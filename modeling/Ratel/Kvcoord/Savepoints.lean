import Ratel.Lib.Search
import Ratel.Storage.OwnWrites

/- Savepoints of a transaction. The coordinator never takes a write back: rolling back to a
   savepoint adds the sequence numbers handed out since to the ignored ones, as one range
   that swallows the ranges of earlier rollbacks after the savepoint. As long as rollbacks
   go to savepoints that no earlier rollback went past, the writes that are not ignored are
   those that a stack of write lists would hold (`Session.Tracks.run`). The invariant is that
   no savepoint on the stack lies inside an ignored range, so that every range is either
   wholly before a savepoint or wholly after it. -/
namespace Ratel.Kvcoord

open Encoding Lib Storage List

/-! The allocator of sequence numbers. -/

/-- A request, by what the allocator of sequence numbers looks at. -/
inductive Request
  | readOnly
  | intentWrite
  | endTxn (commit : Bool)
  | other
deriving DecidableEq, Repr

def Request.numbered : Request → Bool
  | .intentWrite | .endTxn _ => true
  | .readOnly | .other => false

structure TxnSeqNumAllocator where
  writeSeq : TxnSeq
  readSeq : TxnSeq
  steppingModeEnabled : Bool
deriving DecidableEq, Repr

namespace TxnSeqNumAllocator

/-- One round of the loop of `SendLocked`: the sequence number of a request. -/
def assign (s : TxnSeqNumAllocator) (req : Request) : TxnSeqNumAllocator × TxnSeq :=
  -- the numbers are of 32 bits, and the last one is followed by the lowest
  let s := if req.numbered then { s with writeSeq := (s.writeSeq + 1).bmod (2 ^ 32) } else s
  (s, if s.steppingModeEnabled ∧ req = .readOnly then s.readSeq else s.writeSeq)

/-- `SendLocked`: the requests with their sequence numbers. -/
def sendLocked (s : TxnSeqNumAllocator) : List Request → TxnSeqNumAllocator × List (Request × TxnSeq)
  | [] => (s, [])
  | req :: reqs =>
    let (s, seq) := s.assign req
    let (s, rest) := s.sendLocked reqs
    (s, (req, seq) :: rest)

end TxnSeqNumAllocator

/-! The coordinator. -/

inductive TxnType
  | rootTxn
  | leafTxn
deriving DecidableEq, Repr

inductive TxnState
  | txnPending
  | txnRetryableError
  | txnError
  | txnFinalized
deriving DecidableEq, Repr

/-- What is kept of the coordinator's state to come back to it. -/
structure Savepoint where
  active : Bool
  txnID : Nat
  epoch : Nat
  seqNum : TxnSeq
deriving DecidableEq, Repr

/-- The one savepoint at the beginning of every transaction. -/
def initialSavepoint : Savepoint := ⟨false, 0, 0, 0⟩

def Savepoint.initial (s : Savepoint) : Bool := !s.active

structure TxnCoordSender where
  typ : TxnType
  txnState : TxnState
  active : Bool
  txnID : Nat
  epoch : Nat
  ignoredSeqNums : List IgnoredSeqNumRange
  txnSeqNumAllocator : TxnSeqNumAllocator
deriving DecidableEq, Repr

/-- `AddIgnoredSeqNumRange`: cut the list at the last range not included in the new one. -/
def addIgnoredSeqNumRange (list : List IgnoredSeqNumRange) (newRange : IgnoredSeqNumRange) :
    List IgnoredSeqNumRange :=
  list.take (searchIn (fun r => decide (newRange.start ≤ r.stop)) list) ++ [newRange]

namespace TxnCoordSender

/-- The number of the last write. -/
abbrev writeSeq (tc : TxnCoordSender) : TxnSeq := tc.txnSeqNumAllocator.writeSeq

/-- `Send`, with the state that the response leaves the transaction in. The response carries
    back the ignored sequence numbers that the batch went out with. -/
def send (tc : TxnCoordSender) (reqs : List Request) (hasAcquiredLocks : Bool) (outcome : TxnState) :
    TxnCoordSender × List (Request × TxnSeq) :=
  let tc := { tc with active := true }
  if tc.txnState ≠ .txnPending ∧ reqs ≠ [.endTxn false] then (tc, [])
  else if (reqs = [.endTxn true] ∨ reqs = [.endTxn false]) ∧ ¬ hasAcquiredLocks then ({ tc with txnState := outcome }, [])
  else if reqs = [] then (tc, [])
  else
    let (allocator, sent) := tc.txnSeqNumAllocator.sendLocked reqs
    ({ tc with txnSeqNumAllocator := allocator, txnState := outcome }, sent)

def assertNotFinalized (tc : TxnCoordSender) : Except Err Unit :=
  if tc.txnState = .txnFinalized then errorf "operation invalid for finalized txns" else .ok ()

def createSavepoint (tc : TxnCoordSender) : Except Err Savepoint :=
  if tc.typ ≠ .rootTxn then errorf "cannot get savepoint in non-root txn"
  else do
    tc.assertNotFinalized
    if tc.txnState ≠ .txnPending then errorf "cannot create or release savepoint after an error has occurred"
    else if ¬ tc.active then .ok initialSavepoint
    else .ok ⟨true, tc.txnID, tc.epoch, tc.writeSeq⟩

/-- `checkSavepointLocked`, with the error that `RollbackToSavepoint` makes of a restart. -/
def checkSavepointLocked (tc : TxnCoordSender) (s : Savepoint) : Except Err Unit :=
  if s.initial then .ok ()
  else if s.txnID ≠ tc.txnID ∨ s.epoch ≠ tc.epoch then
    errorf "cannot rollback to savepoint after a transaction restart"
  else if s.seqNum > tc.writeSeq then
    errorf "invalid savepoint: got %d, expected 0-%d" [.int s.seqNum, .int tc.writeSeq]
  else .ok ()

def rollbackToSavepoint (tc : TxnCoordSender) (sp : Savepoint) : Except Err TxnCoordSender :=
  if tc.typ ≠ .rootTxn then errorf "cannot rollback savepoint in non-root txn"
  else do
    tc.assertNotFinalized
    if tc.txnState = .txnError then errorf "cannot rollback to savepoint after error"
    else do
      tc.checkSavepointLocked sp
      let tc := { tc with active := sp.active }
      if sp.seqNum < tc.writeSeq then
        .ok { tc with ignoredSeqNums := addIgnoredSeqNumRange tc.ignoredSeqNums ⟨sp.seqNum + 1, tc.writeSeq⟩ }
      else .ok tc

end TxnCoordSender

/-! A stack of write lists. -/

/-- The writes that count, and with every savepoint the writes that counted then. -/
structure WriteStack where
  kept : List TxnSeq
  saved : List (Nat × List TxnSeq)

namespace WriteStack

def empty : WriteStack := ⟨[], []⟩

def write (s : WriteStack) (seqs : List TxnSeq) : WriteStack := { s with kept := s.kept ++ seqs }

def save (s : WriteStack) (id : Nat) : WriteStack := { s with saved := (id, s.kept) :: s.saved }

/-- Back to a savepoint, which stays; those above it go. -/
def rollback (s : WriteStack) (id : Nat) : WriteStack :=
  match s.saved.dropWhile fun p => p.1 ≠ id with
  | [] => s
  | p :: rest => ⟨p.2, p :: rest⟩

end WriteStack

/-! Sessions. -/

inductive Op
  | send (reqs : List Request) (hasAcquiredLocks : Bool) (outcome : TxnState)
  | createSavepoint
  | rollbackToSavepoint (id : Nat)

/-- The sequence numbers that a call takes, if all its requests are sent. -/
def Op.numbers : Op → Nat
  | .send reqs _ _ => reqs.countP Request.numbered
  | .createSavepoint | .rollbackToSavepoint _ => 0

/-- A coordinator, the savepoints it has handed out, all writes it has sent, and beside it
    the stack that the same calls make. -/
structure Session where
  sender : TxnCoordSender
  tokens : List Savepoint
  writes : List TxnSeq
  stack : WriteStack

namespace Session

def start (tc : TxnCoordSender) : Session := ⟨tc, [], [], .empty⟩

def apply (s : Session) : Op → Session
  | .send reqs hasAcquiredLocks outcome =>
    let (sender, sent) := s.sender.send reqs hasAcquiredLocks outcome
    let seqs := (sent.filter fun p => p.1 = .intentWrite).map (·.2)
    { s with sender := sender, writes := s.writes ++ seqs, stack := s.stack.write seqs }
  | .createSavepoint =>
    match s.sender.createSavepoint with
    | .error _ => s
    | .ok sp => { s with tokens := s.tokens ++ [sp], stack := s.stack.save s.tokens.length }
  | .rollbackToSavepoint id =>
    match s.tokens[id]? with
    | none => s
    | some sp =>
      match s.sender.rollbackToSavepoint sp with
      | .error _ => s
      | .ok sender => { s with sender := sender, stack := s.stack.rollback id }

def run (s : Session) (ops : List Op) : Session := ops.foldl apply s

/-- Every rollback goes to a savepoint that no rollback since its creation went past. -/
def Disciplined : Session → List Op → Prop
  | _, [] => True
  | s, op :: ops => (∀ id, op = .rollbackToSavepoint id → id ∈ s.stack.saved.map (·.1)) ∧ (s.apply op).Disciplined ops

def liveWrites (s : Session) : List TxnSeq := s.writes.filter fun seq => !txnSeqIsIgnored seq s.sender.ignoredSeqNums

end Session

/-! The ignored sequence numbers. -/

section
variable {l : List IgnoredSeqNumRange} {q w seq : TxnSeq}

/-- The ranges of rollbacks: sorted, of handed out numbers. -/
structure RangesOk (l : List IgnoredSeqNumRange) (w : TxnSeq) : Prop where
  sorted : SortedRanges l
  start_pos : ∀ r ∈ l, 0 < r.start
  start_le : ∀ r ∈ l, r.start ≤ r.stop
  stop_le : ∀ r ∈ l, r.stop ≤ w

/-- No range has numbers on both sides of a savepoint. -/
def Apart (l : List IgnoredSeqNumRange) (q : TxnSeq) : Prop := ∀ r ∈ l, q < r.start ∨ r.stop ≤ q

theorem RangesOk.mono (h : RangesOk l w) {w' : TxnSeq} (hle : w ≤ w') : RangesOk l w' :=
  ⟨h.sorted, h.start_pos, h.start_le, fun r hr => (h.stop_le r hr).trans hle⟩

/-- Sequence numbers above all those handed out are not ignored. -/
theorem RangesOk.not_ignored (h : RangesOk l w) (hlt : w < seq) : txnSeqIsIgnored seq l = false := by
  rw [← Bool.not_eq_true, txnSeqIsIgnored_iff h.sorted]
  intro hignored
  obtain ⟨r, hr, _, hstop⟩ := hignored
  exact absurd (hstop.trans (h.stop_le r hr)) (not_le.mpr hlt)

theorem RangesOk.stops (h : RangesOk l w) : l.Pairwise fun a b => a.stop < b.stop :=
  h.sorted.imp_of_mem fun _ hb hlt => lt_of_lt_of_le hlt (h.start_le _ hb)

section
variable {new r : IgnoredSeqNumRange}

/-- The ranges that stay are those that end before the new one begins. -/
theorem mem_stays (h : l.Pairwise fun a b => a.stop < b.stop) :
    r ∈ l.take (searchIn (fun r => decide (new.start ≤ r.stop)) l) ↔ r ∈ l ∧ r.stop < new.start := by
  have hmono : l.Pairwise fun a b => decide (new.start ≤ a.stop) = true → decide (new.start ≤ b.stop) = true :=
    h.imp fun hlt hle => by
      rw [decide_eq_true_iff] at hle ⊢
      exact hle.trans hlt.le
  rw [mem_take_searchIn hmono, decide_eq_false_iff_not, not_le]

theorem mem_addIgnoredSeqNumRange (h : l.Pairwise fun a b => a.stop < b.stop) :
    r ∈ addIgnoredSeqNumRange l new ↔ (r ∈ l ∧ r.stop < new.start) ∨ r = new := by
  rw [addIgnoredSeqNumRange, mem_append, mem_stays h, mem_singleton]

theorem addIgnoredSeqNumRange_pairwise {R : IgnoredSeqNumRange → IgnoredSeqNumRange → Prop} (hR : l.Pairwise R)
    (h : l.Pairwise fun a b => a.stop < b.stop) :
    (addIgnoredSeqNumRange l new).Pairwise R ↔ ∀ r ∈ l, r.stop < new.start → R r new := by
  rw [addIgnoredSeqNumRange, pairwise_append]
  constructor
  · exact fun ⟨_, _, hall⟩ r hr hlt => hall r ((mem_stays h).mpr ⟨hr, hlt⟩) new mem_cons_self
  refine fun hnew => ⟨hR.sublist (take_sublist _ _), pairwise_singleton _ _, fun a ha => ?_⟩
  obtain ⟨hmem, hlt⟩ := (mem_stays h).mp ha
  exact forall_mem_singleton.mpr (hnew a hmem hlt)

end

theorem RangesOk.add (h : RangesOk l w) (hq : 0 ≤ q) (hlt : q < w) : RangesOk (addIgnoredSeqNumRange l ⟨q + 1, w⟩) w := by
  refine ⟨(addIgnoredSeqNumRange_pairwise h.sorted h.stops).mpr fun r _ hstop => hstop, fun r hr => ?_, fun r hr => ?_,
    fun r hr => ?_⟩
  all_goals rcases (mem_addIgnoredSeqNumRange h.stops).mp hr with ⟨hold, _⟩ | hnew
  · exact h.start_pos r hold
  · exact hnew ▸ Int.lt_add_one_of_le hq
  · exact h.start_le r hold
  · exact hnew ▸ hlt
  · exact h.stop_le r hold
  · exact hnew ▸ le_rfl

/-- A rollback ignores the numbers handed out since its savepoint, and no others. -/
theorem ignored_add_iff (h : RangesOk l w) (hq : 0 ≤ q) (hapart : Apart l q) (hlt : q < w) (hseq : seq ≤ w) :
    txnSeqIsIgnored seq (addIgnoredSeqNumRange l ⟨q + 1, w⟩) = (txnSeqIsIgnored seq l || decide (q < seq)) := by
  rw [Bool.eq_iff_iff, Bool.or_eq_true, decide_eq_true_iff, txnSeqIsIgnored_iff (h.add hq hlt).sorted,
    txnSeqIsIgnored_iff h.sorted]
  constructor
  · intro ⟨r, hr, hstart, hstop⟩
    rcases (mem_addIgnoredSeqNumRange h.stops).mp hr with hold | hnew
    · exact .inl ⟨r, hold.1, hstart, hstop⟩
    · rw [hnew] at hstart
      exact .inr hstart
  intro hold
  by_cases hafter : q < seq
  · exact ⟨⟨q + 1, w⟩, (mem_addIgnoredSeqNumRange h.stops).mpr (.inr rfl), hafter, hseq⟩
  obtain ⟨r, hr, hstart, hstop⟩ := hold.resolve_right hafter
  have hbefore : r.stop ≤ q := (hapart r hr).resolve_left fun hq => hafter (lt_of_lt_of_le hq hstart)
  exact ⟨r, (mem_addIgnoredSeqNumRange h.stops).mpr (.inl ⟨hr, Int.lt_add_one_of_le hbefore⟩), hstart, hstop⟩

theorem Apart.add (h : RangesOk l w) (hapart : Apart l q) {q' : TxnSeq} (hle : q ≤ q') (w' : TxnSeq) :
    Apart (addIgnoredSeqNumRange l ⟨q' + 1, w'⟩) q := by
  intro r hr
  rcases (mem_addIgnoredSeqNumRange h.stops).mp hr with hold | hnew
  · exact hapart r hold.1
  · rw [hnew]
    exact .inl (Int.lt_add_one_of_le hle)

/-! What `AddIgnoredSeqNumRange` documents of itself. -/

/-- The list it takes and leaves: sorted ranges that neither overlap nor touch. -/
structure Separate (l : List IgnoredSeqNumRange) : Prop where
  start_le : ∀ r ∈ l, r.start ≤ r.stop
  gaps : l.Pairwise fun a b => a.stop + 1 < b.start

def Overlaps (a b : IgnoredSeqNumRange) : Prop := a.start ≤ b.stop ∧ b.start ≤ a.stop

instance (a b : IgnoredSeqNumRange) : Decidable (Overlaps a b) := inferInstanceAs (Decidable (_ ∧ _))

/-- What it asks of the caller: a range that overlaps one of the list overlaps all later
    ones, and ends no earlier than the last. -/
structure Addable (l : List IgnoredSeqNumRange) (new : IgnoredSeqNumRange) : Prop where
  start_le : new.start ≤ new.stop
  later : l.Pairwise fun a b => Overlaps new a → Overlaps new b
  last : ∀ r ∈ l.getLast?, r.stop ≤ new.stop

section
variable {new : IgnoredSeqNumRange}

theorem Separate.sorted (h : Separate l) : SortedRanges l := h.gaps.imp fun hlt => by lia

theorem Separate.stops (h : Separate l) : l.Pairwise fun a b => a.stop < b.stop :=
  h.gaps.imp_of_mem fun _ hb hlt => by
    have := h.start_le _ hb
    lia

theorem Separate.stop_le (h : Separate l) (hnew : Addable l new) {r : IgnoredSeqNumRange} (hr : r ∈ l) :
    r.stop ≤ new.stop := by
  obtain ⟨front, last, rfl⟩ := (eq_nil_or_concat' l).resolve_left (ne_nil_of_mem hr)
  have hlast : last.stop ≤ new.stop := hnew.last last (by simp)
  rcases mem_append.mp hr with hfront | heq
  · have hlt := (pairwise_append.mp h.stops).2.2 r hfront last mem_cons_self
    lia
  · rw [mem_singleton.mp heq]
    exact hlast

/-- A new range that begins inside an old one, or right after it, breaks what is documented:
    the beginning of the old range is no longer ignored, or the two touch. In all other cases
    the list is again separate and ignores the numbers of both. -/
theorem addIgnoredSeqNumRange_documented_iff (h : Separate l) (hnew : Addable l new) :
    (Separate (addIgnoredSeqNumRange l new) ∧ ∀ seq, txnSeqIsIgnored seq (addIgnoredSeqNumRange l new) =
        (txnSeqIsIgnored seq l || decide (new.start ≤ seq ∧ seq ≤ new.stop))) ↔
      ∀ r ∈ l, new.start ≤ r.start ∨ r.stop + 1 < new.start := by
  constructor
  · intro ⟨hsep, hunion⟩ r hr
    by_contra hnot
    -- The number before the new range is in the old one.
    have hbefore : txnSeqIsIgnored (new.start - 1) l = true :=
      (txnSeqIsIgnored_iff h.sorted).mpr ⟨r, hr, by lia, by lia⟩
    obtain ⟨r', hr', hstart, hstop⟩ := (txnSeqIsIgnored_iff hsep.sorted).mp
      ((hunion _).trans (by rw [hbefore, Bool.true_or]))
    rcases (mem_addIgnoredSeqNumRange h.stops).mp hr' with ⟨hold, hlt⟩ | heq
    · have hgap := (addIgnoredSeqNumRange_pairwise h.gaps h.stops).mp hsep.gaps r' hold hlt
      lia
    · lia
  intro hapart
  have hsep : Separate (addIgnoredSeqNumRange l new) := by
    refine ⟨fun r hr => ?_, (addIgnoredSeqNumRange_pairwise h.gaps h.stops).mpr fun r hr hlt => ?_⟩
    · rcases (mem_addIgnoredSeqNumRange h.stops).mp hr with ⟨hold, _⟩ | heq
      · exact h.start_le r hold
      · exact heq ▸ hnew.start_le
    have := h.start_le r hr
    have := hapart r hr
    lia
  refine ⟨hsep, fun seq => ?_⟩
  rw [Bool.eq_iff_iff, Bool.or_eq_true, decide_eq_true_iff, txnSeqIsIgnored_iff hsep.sorted,
    txnSeqIsIgnored_iff h.sorted]
  constructor
  · intro ⟨r, hr, hin⟩
    rcases (mem_addIgnoredSeqNumRange h.stops).mp hr with ⟨hold, _⟩ | heq
    · exact .inl ⟨r, hold, hin⟩
    · exact .inr (heq ▸ hin)
  rintro (⟨r, hr, hin⟩ | hin)
  · by_cases hlt : r.stop < new.start
    · exact ⟨r, (mem_addIgnoredSeqNumRange h.stops).mpr (.inl ⟨hr, hlt⟩), hin⟩
    -- What goes lies within the new range.
    have := hapart r hr
    have := h.stop_le hnew hr
    exact ⟨new, (mem_addIgnoredSeqNumRange h.stops).mpr (.inr rfl), by lia, by lia⟩
  · exact ⟨new, (mem_addIgnoredSeqNumRange h.stops).mpr (.inr rfl), hin⟩

theorem addIgnoredSeqNumRange_eight : Separate (addIgnoredSeqNumRange [⟨3, 5⟩, ⟨10, 20⟩, ⟨22, 24⟩] ⟨8, 26⟩) :=
  ((addIgnoredSeqNumRange_documented_iff ⟨by decide, by decide⟩ ⟨by decide, by decide, by decide⟩).mpr (by decide)).1

/-- Rolled back from 4 on, number 3 of an earlier range counts again; from 6 on, the ranges touch. -/
theorem addIgnoredSeqNumRange_forgets : Separate [⟨3, 5⟩] ∧
    (Addable [⟨3, 5⟩] ⟨4, 8⟩ ∧ txnSeqIsIgnored 3 [⟨3, 5⟩] = true ∧
      txnSeqIsIgnored 3 (addIgnoredSeqNumRange [⟨3, 5⟩] ⟨4, 8⟩) = false) ∧
    Addable [⟨3, 5⟩] ⟨6, 8⟩ ∧ ¬ Separate (addIgnoredSeqNumRange [⟨3, 5⟩] ⟨6, 8⟩) :=
  ⟨⟨by decide, by decide⟩, ⟨⟨by decide, by decide, by decide⟩, by decide, by decide⟩, ⟨by decide, by decide, by decide⟩,
    fun h => absurd h.gaps (by decide)⟩

end

end

/-! What a call can do. -/

namespace TxnCoordSender
variable {tc tc' : TxnCoordSender}

theorem createSavepoint_cases {sp : Savepoint} (h : tc.createSavepoint = .ok sp) :
    (tc.active = false ∧ sp = initialSavepoint) ∨ tc.active = true ∧ sp = ⟨true, tc.txnID, tc.epoch, tc.writeSeq⟩ := by
  unfold createSavepoint at h
  split at h
  · cases h
  obtain ⟨_, _, h⟩ := exists_of_bind_ok h
  split at h
  · cases h
  split at h
  · rename_i hactive
    cases h
    exact .inl ⟨by simpa using hactive, rfl⟩
  rename_i hactive
  cases h
  exact .inr ⟨by simpa using hactive, rfl⟩

theorem rollbackToSavepoint_cases {sp : Savepoint} (h : tc.rollbackToSavepoint sp = .ok tc') :
    tc' = { tc with
      active := sp.active
      ignoredSeqNums := if sp.seqNum < tc.writeSeq then
        addIgnoredSeqNumRange tc.ignoredSeqNums ⟨sp.seqNum + 1, tc.writeSeq⟩ else tc.ignoredSeqNums } := by
  unfold rollbackToSavepoint at h
  split at h
  · cases h
  obtain ⟨_, _, h⟩ := exists_of_bind_ok h
  split at h
  · cases h
  obtain ⟨_, _, h⟩ := exists_of_bind_ok h
  simp only at h
  split at h <;> · cases h; simp [*]

end TxnCoordSender

namespace TxnSeqNumAllocator
variable {s : TxnSeqNumAllocator}

theorem assign_writeSeq (h : 0 ≤ s.writeSeq) (req : Request) (hroom : s.writeSeq + [req].countP Request.numbered < 2 ^ 31) :
    (s.assign req).1.writeSeq = s.writeSeq + [req].countP Request.numbered := by
  cases hreq : req.numbered with
  | false => simp [assign, hreq]
  | true =>
    simp only [hreq, countP_singleton, if_true] at hroom ⊢
    simp only [assign, hreq, if_true]
    exact Int.bmod_eq_of_le (by lia) (by lia)

/-- As long as the numbers last, those of the writes of a batch are new ones. -/
theorem sendLocked_spec : ∀ (reqs : List Request) {s : TxnSeqNumAllocator}, 0 ≤ s.writeSeq →
    s.writeSeq + reqs.countP Request.numbered < 2 ^ 31 →
    (s.sendLocked reqs).1.writeSeq = s.writeSeq + reqs.countP Request.numbered ∧
      ∀ p ∈ (s.sendLocked reqs).2, p.1 = .intentWrite → s.writeSeq < p.2 ∧ p.2 ≤ (s.sendLocked reqs).1.writeSeq
  | [], s, _, _ => ⟨by simp [sendLocked], by simp [sendLocked]⟩
  | req :: reqs, s, h, hroom => by
    rw [← singleton_append, countP_append] at hroom ⊢
    have hassign := assign_writeSeq h req (by lia)
    obtain ⟨hlast, hseqs⟩ := sendLocked_spec reqs (s := (s.assign req).1) (by lia) (by lia)
    have hsend : (s.sendLocked (req :: reqs)).1.writeSeq = ((s.assign req).1.sendLocked reqs).1.writeSeq := rfl
    refine ⟨by rw [singleton_append, hsend]; lia, fun p hp hwrite => ?_⟩
    rw [singleton_append, hsend]
    rcases mem_cons.mp hp with heq | hrest
    · have hreq : req = .intentWrite := (congrArg Prod.fst heq).symm.trans hwrite
      have hseq : p.2 = (s.assign req).1.writeSeq := by
        rw [heq, hreq]
        simp [assign]
      have hone : [req].countP Request.numbered = 1 := by rw [hreq]; rfl
      lia
    · have := hseqs p hrest hwrite
      lia

end TxnSeqNumAllocator

/-- The numbers of the writes of a batch. -/
def writesOf (sent : List (Request × TxnSeq)) : List TxnSeq := (sent.filter fun p => p.1 = .intentWrite).map (·.2)

/-- What `Send` of a batch that can take `n` numbers leaves: higher numbers, all those of the
    batch's writes among them. -/
structure Sent (tc tc' : TxnCoordSender) (seqs : List TxnSeq) (n : Nat) : Prop where
  active : tc'.active = true
  txnID : tc'.txnID = tc.txnID
  epoch : tc'.epoch = tc.epoch
  ignored : tc'.ignoredSeqNums = tc.ignoredSeqNums
  writeSeq : tc.writeSeq ≤ tc'.writeSeq
  writeSeq_le : tc'.writeSeq ≤ tc.writeSeq + n
  seqs : ∀ seq ∈ seqs, tc.writeSeq < seq ∧ seq ≤ tc'.writeSeq

theorem TxnCoordSender.send_spec {tc : TxnCoordSender} (h : 0 ≤ tc.writeSeq) {reqs : List Request}
    (hroom : tc.writeSeq + reqs.countP Request.numbered < 2 ^ 31) (hasAcquiredLocks : Bool) (outcome : TxnState) :
    Sent tc (tc.send reqs hasAcquiredLocks outcome).1 (writesOf (tc.send reqs hasAcquiredLocks outcome).2)
      (reqs.countP Request.numbered) := by
  unfold send
  simp only
  split
  · exact ⟨rfl, rfl, rfl, rfl, le_rfl, by simp, by simp [writesOf]⟩
  split
  · exact ⟨rfl, rfl, rfl, rfl, le_rfl, by simp, by simp [writesOf]⟩
  split
  · exact ⟨rfl, rfl, rfl, rfl, le_rfl, by simp, by simp [writesOf]⟩
  obtain ⟨hlast, hseqs⟩ := TxnSeqNumAllocator.sendLocked_spec reqs h hroom
  refine ⟨rfl, rfl, rfl, rfl, by simp [writeSeq, hlast], hlast.le, fun seq hseq => ?_⟩
  simp only [writesOf, mem_map, mem_filter, decide_eq_true_eq] at hseq
  obtain ⟨p, ⟨hp, hwrite⟩, rfl⟩ := hseq
  exact hseqs p hp hwrite

theorem WriteStack.rollback_split {s : WriteStack} {id : Nat} (h : id ∈ s.saved.map (·.1)) :
    ∃ above p below, s.saved = above ++ p :: below ∧ p.1 = id ∧ s.rollback id = ⟨p.2, p :: below⟩ := by
  have hsplit := (takeWhile_append_dropWhile (p := fun p : Nat × List TxnSeq => decide (p.1 ≠ id)) (l := s.saved)).symm
  cases hd : s.saved.dropWhile fun p => decide (p.1 ≠ id) with
  | nil =>
    obtain ⟨p, hp, hid⟩ := mem_map.mp h
    rw [dropWhile_eq_nil_iff] at hd
    exact absurd hid (by simpa using hd p hp)
  | cons p below =>
    have hhead := head?_dropWhile_not (fun p : Nat × List TxnSeq => decide (p.1 ≠ id)) s.saved
    rw [hd] at hhead hsplit
    exact ⟨_, p, below, hsplit, by simpa using hhead, by simp only [rollback, hd]⟩

/-! Sessions track their stacks. -/

namespace Session

/-- The last write before a savepoint was created. -/
def seqNumOf (s : Session) (id : Nat) : TxnSeq := ((s.tokens[id]?).map (·.seqNum)).getD 0

/-- A savepoint on the stack: what it saved are the writes up to it that are not ignored. -/
structure Placed (s : Session) (p : Nat × List TxnSeq) : Prop where
  created : p.1 < s.tokens.length
  apart : Apart s.sender.ignoredSeqNums (s.seqNumOf p.1)
  saved : p.2 = s.liveWrites.filter fun seq => decide (seq ≤ s.seqNumOf p.1)

structure Tracks (s : Session) : Prop where
  nonneg : 0 ≤ s.sender.writeSeq
  ranges : RangesOk s.sender.ignoredSeqNums s.sender.writeSeq
  writes : ∀ seq ∈ s.writes, 0 < seq ∧ seq ≤ s.sender.writeSeq
  tokens : ∀ sp ∈ s.tokens, (0 ≤ sp.seqNum ∧ sp.seqNum ≤ s.sender.writeSeq) ∧ (sp.active = false → sp.seqNum = 0)
  ours : ∀ sp ∈ s.tokens, sp.active = true → sp.txnID = s.sender.txnID ∧ sp.epoch = s.sender.epoch
  kept : s.stack.kept = s.liveWrites
  placed : ∀ p ∈ s.stack.saved, s.Placed p
  ordered : s.stack.saved.Pairwise fun a b => s.seqNumOf b.1 ≤ s.seqNumOf a.1
  inactive : s.sender.active = false → s.stack.kept = [] ∧ ∀ p ∈ s.stack.saved, s.seqNumOf p.1 = 0

theorem seqNumOf_append {s : Session} {id : Nat} (h : id < s.tokens.length) (sp : Savepoint) (stack : WriteStack) :
    seqNumOf { s with tokens := s.tokens ++ [sp], stack := stack } id = s.seqNumOf id := by
  simp [seqNumOf, getElem?_append_left h]

variable {s : Session}

theorem Tracks.seqNumOf_le (h : s.Tracks) (id : Nat) : s.seqNumOf id ≤ s.sender.writeSeq := by
  unfold seqNumOf
  cases hget : s.tokens[id]? with
  | none => exact h.nonneg
  | some sp => exact (h.tokens sp (mem_of_getElem? hget)).1.2

theorem Tracks.seqNumOf_nonneg (h : s.Tracks) (id : Nat) : 0 ≤ s.seqNumOf id := by
  unfold seqNumOf
  cases hget : s.tokens[id]? with
  | none => exact le_rfl
  | some sp => exact (h.tokens sp (mem_of_getElem? hget)).1.1

theorem Tracks.send (h : s.Tracks) {reqs : List Request}
    (hroom : s.sender.writeSeq + reqs.countP Request.numbered < 2 ^ 31) (hasAcquiredLocks : Bool) (outcome : TxnState) :
    (s.apply (.send reqs hasAcquiredLocks outcome)).Tracks := by
  have hsent := TxnCoordSender.send_spec h.nonneg hroom hasAcquiredLocks outcome
  have happly : s.apply (.send reqs hasAcquiredLocks outcome) = { s with
        sender := (s.sender.send reqs hasAcquiredLocks outcome).1
        writes := s.writes ++ writesOf (s.sender.send reqs hasAcquiredLocks outcome).2
        stack := s.stack.write (writesOf (s.sender.send reqs hasAcquiredLocks outcome).2) } := rfl
  rw [happly]
  generalize (s.sender.send reqs hasAcquiredLocks outcome).1 = tc at hsent
  generalize writesOf (s.sender.send reqs hasAcquiredLocks outcome).2 = seqs at hsent
  -- None of the new writes is ignored, and none is at or below a savepoint.
  have hlive : liveWrites { s with sender := tc, writes := s.writes ++ seqs, stack := s.stack.write seqs } =
      s.liveWrites ++ seqs := by
    simp only [liveWrites, hsent.ignored, filter_append]
    congr 1
    exact filter_eq_self.mpr fun seq hseq => by simp [h.ranges.not_ignored (hsent.seqs seq hseq).1]
  refine ⟨h.nonneg.trans hsent.writeSeq, ?_, ?_, ?_, ?_, ?_, ?_, h.ordered, ?_⟩
  · rw [hsent.ignored]
    exact h.ranges.mono hsent.writeSeq
  · intro seq hseq
    rcases mem_append.mp hseq with hold | hnew
    · exact ⟨(h.writes seq hold).1, (h.writes seq hold).2.trans hsent.writeSeq⟩
    · exact ⟨lt_of_le_of_lt h.nonneg (hsent.seqs seq hnew).1, (hsent.seqs seq hnew).2⟩
  · intro sp hsp
    obtain ⟨⟨hpos, hle⟩, hinitial⟩ := h.tokens sp hsp
    exact ⟨⟨hpos, hle.trans hsent.writeSeq⟩, hinitial⟩
  · rw [hsent.txnID, hsent.epoch]
    exact h.ours
  · rw [hlive, ← h.kept]
    rfl
  · intro p hp
    obtain ⟨hcreated, hapart, hsaved⟩ := h.placed p hp
    refine ⟨hcreated, hsent.ignored ▸ hapart, ?_⟩
    have hnone : (seqs.filter fun seq => decide (seq ≤ s.seqNumOf p.1)) = [] := by
      refine filter_eq_nil_iff.mpr fun seq hseq hle => ?_
      rw [decide_eq_true_iff] at hle
      exact absurd (hle.trans (h.seqNumOf_le p.1)) (not_le.mpr (hsent.seqs seq hseq).1)
    rw [hlive, filter_append]
    show p.2 = (s.liveWrites.filter fun seq => decide (seq ≤ s.seqNumOf p.1)) ++
      seqs.filter fun seq => decide (seq ≤ s.seqNumOf p.1)
    rw [hnone, append_nil]
    exact hsaved
  · intro hinactive
    rw [hsent.active] at hinactive
    cases hinactive

theorem Tracks.createSavepoint (h : s.Tracks) : (s.apply .createSavepoint).Tracks := by
  simp only [apply]
  cases hcreate : s.sender.createSavepoint with
  | error err => exact h
  | ok sp =>
    -- The new savepoint is after every write that counts and outside of the ranges.
    obtain ⟨hle, hinitial, hours, hapart, hsaved, habove⟩ : (0 ≤ sp.seqNum ∧ sp.seqNum ≤ s.sender.writeSeq) ∧
        (sp.active = false → sp.seqNum = 0) ∧
        (sp.active = true → sp.txnID = s.sender.txnID ∧ sp.epoch = s.sender.epoch) ∧ Apart s.sender.ignoredSeqNums sp.seqNum ∧
        s.liveWrites = s.liveWrites.filter (fun seq => decide (seq ≤ sp.seqNum)) ∧
        ∀ p ∈ s.stack.saved, s.seqNumOf p.1 ≤ sp.seqNum := by
      rcases TxnCoordSender.createSavepoint_cases hcreate with hinactive | hactive
      · obtain ⟨hactive, rfl⟩ := hinactive
        obtain ⟨hkept, hzero⟩ := h.inactive hactive
        refine ⟨⟨le_rfl, h.nonneg⟩, fun _ => rfl, by simp [initialSavepoint], fun r hr => .inl (h.ranges.start_pos r hr),
          ?_, fun p hp => ?_⟩
        · rw [← h.kept, hkept]
          rfl
        · exact (hzero p hp).le
      · obtain ⟨_, rfl⟩ := hactive
        refine ⟨⟨h.nonneg, le_rfl⟩, by simp, fun _ => ⟨rfl, rfl⟩, fun r hr => .inr (h.ranges.stop_le r hr),
          ?_, fun p _ => h.seqNumOf_le p.1⟩
        refine (filter_eq_self.mpr fun seq hseq => ?_).symm
        exact decide_eq_true (h.writes seq (mem_of_mem_filter hseq)).2
    let s' : Session := { s with tokens := s.tokens ++ [sp], stack := s.stack.save s.tokens.length }
    have hnew : s'.seqNumOf s.tokens.length = sp.seqNum := by
      simp [s', seqNumOf]
    have hold : ∀ p ∈ s.stack.saved, s'.seqNumOf p.1 = s.seqNumOf p.1 := fun p hp =>
      seqNumOf_append (h.placed p hp).created sp _
    refine ⟨h.nonneg, h.ranges, h.writes, ?_, ?_, h.kept, ?_, ?_, ?_⟩
    · exact forall_mem_append.mpr ⟨h.tokens, forall_mem_singleton.mpr ⟨hle, hinitial⟩⟩
    · exact forall_mem_append.mpr ⟨h.ours, forall_mem_singleton.mpr hours⟩
    · refine forall_mem_cons.mpr ⟨⟨by simp, hnew ▸ hapart, ?_⟩, fun p hp => ?_⟩
      · rw [hnew, h.kept]
        exact hsaved
      obtain ⟨hcreated, hapart', hsaved'⟩ := h.placed p hp
      refine ⟨by simp only [length_append]; omega, hold p hp ▸ hapart', ?_⟩
      rw [hold p hp]
      exact hsaved'
    · refine pairwise_cons.mpr ⟨fun p hp => ?_, h.ordered.imp_of_mem fun ha hb hab => ?_⟩
      · rw [hold p hp, hnew]
        exact habove p hp
      · rw [hold _ ha, hold _ hb]
        exact hab
    · intro hinactive
      obtain ⟨hkept, hzero⟩ := h.inactive hinactive
      refine ⟨hkept, forall_mem_cons.mpr ⟨?_, fun p hp => ?_⟩⟩
      · rw [hnew]
        rcases TxnCoordSender.createSavepoint_cases hcreate with hinitial | hactive
        · rw [hinitial.2]; rfl
        · exact absurd (hinactive.symm.trans hactive.1) (by simp)
      · rw [hold p hp]
        exact hzero p hp

theorem Tracks.rollbackToSavepoint (h : s.Tracks) {id : Nat} (hid : id ∈ s.stack.saved.map (·.1)) :
    (s.apply (.rollbackToSavepoint id)).Tracks := by
  simp only [apply]
  cases hget : s.tokens[id]? with
  | none => exact h
  | some sp =>
    simp only
    cases hrollback : s.sender.rollbackToSavepoint sp with
    | error err => exact h
    | ok tc =>
      have htc := TxnCoordSender.rollbackToSavepoint_cases hrollback
      obtain ⟨above, p, below, hsplit, hp, hstack⟩ := s.stack.rollback_split hid
      let s' : Session := { s with sender := tc, stack := s.stack.rollback id }
      have hseq : ∀ id', s'.seqNumOf id' = s.seqNumOf id' := fun _ => rfl
      have hq : s.seqNumOf p.1 = sp.seqNum := by simp [seqNumOf, hp, hget]
      have hwrite : tc.writeSeq = s.sender.writeSeq := by rw [htc]
      have hpos := (h.tokens sp (mem_of_getElem? hget)).1.1
      have hplaced : ∀ p' ∈ p :: below, s.Placed p' ∧ s.seqNumOf p'.1 ≤ sp.seqNum := by
        intro p' hp'
        refine ⟨h.placed p' (hsplit ▸ mem_append_right _ hp'), ?_⟩
        have hordered := h.ordered
        rw [hsplit] at hordered
        rcases mem_cons.mp hp' with heq | hbelow
        · exact (heq ▸ hq).le
        · exact hq ▸ (pairwise_cons.mp (pairwise_append.mp hordered).2.1).1 p' hbelow
      obtain ⟨hpPlaced, _⟩ := hplaced p mem_cons_self
      have hapart : Apart s.sender.ignoredSeqNums sp.seqNum := hq ▸ hpPlaced.apart
      -- The writes since the savepoint are ignored now, besides those that were.
      have hlive : s'.liveWrites = s.liveWrites.filter fun seq => decide (seq ≤ sp.seqNum) := by
        simp only [liveWrites, filter_filter, s']
        refine filter_congr fun seq hw => ?_
        obtain ⟨_, hle⟩ := h.writes seq hw
        rw [htc]
        by_cases hlt : sp.seqNum < s.sender.writeSeq
        · simp only [hlt, if_true]
          rw [ignored_add_iff h.ranges hpos hapart hlt hle, Bool.not_or, ← decide_not, Bool.and_comm]
          simp only [not_lt]
        · simp [hlt, hle.trans (not_lt.mp hlt)]
      refine ⟨hwrite ▸ h.nonneg, ?_, hwrite ▸ h.writes, hwrite ▸ h.tokens, by simpa only [htc] using h.ours,
        ?_, fun p' hp' => ?_, ?_, fun hinactive => ?_⟩
      · simp only [htc]
        split
        · rename_i hlt
          exact h.ranges.add hpos hlt
        · exact h.ranges
      · rw [hlive]
        simp only [hstack]
        rw [hpPlaced.saved, hq]
      · simp only [hstack] at hp'
        obtain ⟨hplaced', hle⟩ := hplaced p' hp'
        refine ⟨hplaced'.created, ?_, ?_⟩
        · simp only [htc]
          split
          · exact hplaced'.apart.add h.ranges hle _
          · exact hplaced'.apart
        rw [hlive, hseq, hplaced'.saved, filter_filter]
        refine filter_congr fun seq _ => ?_
        by_cases hseq : seq ≤ s.seqNumOf p'.1
        · simp [hseq.trans hle]
        · simp [hseq]
      · simp only [hstack]
        have hordered := h.ordered
        rw [hsplit] at hordered
        exact (pairwise_append.mp hordered).2.1
      · -- Only the initial savepoint makes the transaction inactive.
        have hzero : sp.seqNum = 0 := by
          refine (h.tokens sp (mem_of_getElem? hget)).2 ?_
          simpa [htc] using hinactive
        refine ⟨?_, fun p' hp' => ?_⟩
        · simp only [hstack]
          rw [hpPlaced.saved, hq, hzero]
          refine filter_eq_nil_iff.mpr fun seq hseq hle => ?_
          rw [decide_eq_true_iff] at hle
          exact absurd (h.writes seq (mem_of_mem_filter hseq)).1 (not_lt.mpr hle)
        · simp only [hstack] at hp'
          have hle := (hplaced p' hp').2
          exact le_antisymm (hzero ▸ hle) (h.seqNumOf_nonneg p'.1)

/-- A rollback to any savepoint of the epoch succeeds unless the transaction has failed or ended. -/
theorem Tracks.rollback_ok (h : s.Tracks) (htyp : s.sender.typ = .rootTxn) (herror : s.sender.txnState ≠ .txnError)
    (hfinal : s.sender.txnState ≠ .txnFinalized) {sp : Savepoint} (hsp : sp ∈ s.tokens) :
    ∃ tc, s.sender.rollbackToSavepoint sp = .ok tc := by
  have hcheck : s.sender.checkSavepointLocked sp = .ok () := by
    unfold TxnCoordSender.checkSavepointLocked
    cases hactive : sp.active with
    | false => simp [Savepoint.initial, hactive]
    | true =>
      obtain ⟨hid, hepoch⟩ := h.ours sp hsp hactive
      have hle := (h.tokens sp hsp).1.2
      simp [Savepoint.initial, hid, hepoch, hle]
  unfold TxnCoordSender.rollbackToSavepoint TxnCoordSender.assertNotFinalized
  rw [hcheck]
  simp only [htyp, herror, hfinal, ne_eq, not_true_eq_false, if_false]
  split
  · exact ⟨_, rfl⟩
  · exact ⟨_, rfl⟩

theorem Tracks.apply_writeSeq (h : s.Tracks) {op : Op} (hroom : s.sender.writeSeq + op.numbers < 2 ^ 31) :
    (s.apply op).sender.writeSeq ≤ s.sender.writeSeq + op.numbers := by
  cases op with
  | send reqs hasAcquiredLocks outcome =>
    exact (TxnCoordSender.send_spec h.nonneg hroom hasAcquiredLocks outcome).writeSeq_le
  | createSavepoint =>
    simp only [apply, Op.numbers]
    split <;> simp
  | rollbackToSavepoint id =>
    simp only [apply, Op.numbers]
    split
    · simp
    split
    · simp
    · next hrollback => simp [TxnCoordSender.rollbackToSavepoint_cases hrollback]

theorem Tracks.run : ∀ {ops : List Op} {s : Session}, s.Tracks → s.Disciplined ops →
    s.sender.writeSeq + (ops.map Op.numbers).sum < 2 ^ 31 → (s.run ops).Tracks
  | [], _, h, _, _ => h
  | op :: ops, s, h, hops, hroom => by
    obtain ⟨hop, hops⟩ := hops
    rw [map_cons, sum_cons] at hroom
    have hnow : s.sender.writeSeq + op.numbers < 2 ^ 31 := by lia
    have hstep : (s.apply op).Tracks := by
      cases op with
      | send reqs hasAcquiredLocks outcome => exact h.send hnow hasAcquiredLocks outcome
      | createSavepoint => exact h.createSavepoint
      | rollbackToSavepoint id => exact h.rollbackToSavepoint (hop id rfl)
    have hnext := h.apply_writeSeq hnow
    exact hstep.run hops (by lia)

end Session

/-- At the start of an epoch no write has been sent and none is rolled back. -/
structure TxnCoordSender.Fresh (tc : TxnCoordSender) : Prop where
  ignored : tc.ignoredSeqNums = []
  writeSeq : tc.writeSeq = 0

/-- The writes of an epoch that are not ignored are those that a stack of write lists keeps,
    and a rollback to a savepoint on the stack is possible as long as the transaction is. The
    epoch is one that does not run out of sequence numbers. -/
theorem liveWrites_eq_stack (tc : TxnCoordSender) (hfresh : tc.Fresh) (ops : List Op)
    (hops : (Session.start tc).Disciplined ops) (hnumbers : (ops.map Op.numbers).sum < 2 ^ 31) :
    let s := (Session.start tc).run ops
    s.liveWrites = s.stack.kept ∧
      (s.sender.typ = .rootTxn → s.sender.txnState = .txnPending → ∀ id ∈ s.stack.saved.map (·.1),
        ∃ sp tc', s.tokens[id]? = some sp ∧ s.sender.rollbackToSavepoint sp = .ok tc') := by
  have hstart : (Session.start tc).Tracks := by
    refine ⟨hfresh.writeSeq.ge, ?_, by simp [Session.start], by simp [Session.start], by simp [Session.start], rfl,
      by simp [Session.start, WriteStack.empty], .nil, fun _ => ⟨rfl, by simp [Session.start, WriteStack.empty]⟩⟩
    have hignored : (Session.start tc).sender.ignoredSeqNums = [] := hfresh.ignored
    rw [hignored]
    exact ⟨.nil, by simp, by simp, by simp⟩
  have hroom : (Session.start tc).sender.writeSeq + (ops.map Op.numbers).sum < 2 ^ 31 := by
    have hzero : (Session.start tc).sender.writeSeq = 0 := hfresh.writeSeq
    lia
  have h := hstart.run hops hroom
  refine ⟨h.kept.symm, fun htyp hpending id hid => ?_⟩
  obtain ⟨p, hp, rfl⟩ := mem_map.mp hid
  have hget := getElem?_eq_getElem (h.placed p hp).created
  obtain ⟨tc', htc'⟩ := h.rollback_ok htyp (by simp [hpending]) (by simp [hpending]) (mem_of_getElem? hget)
  exact ⟨_, tc', hget, htc'⟩

/-- Writes 1 to 5 with nested and repeated rollbacks: 2 and 3 go with the first, 4 with the
    second to the same savepoint, and 5 is written after it. -/
def nestedRollbacks : List Op :=
  [.send [.intentWrite] false .txnPending, .createSavepoint, .send [.intentWrite] true .txnPending, .createSavepoint,
    .send [.readOnly, .intentWrite] true .txnPending, .rollbackToSavepoint 0, .send [.intentWrite] true .txnPending,
    .rollbackToSavepoint 0, .send [.intentWrite] true .txnPending]

def newRootTxn : TxnCoordSender := ⟨.rootTxn, .txnPending, false, 1, 0, [], ⟨0, 0, false⟩⟩

theorem liveWrites_eq_stack_nested : ((Session.start newRootTxn).run nestedRollbacks).liveWrites = [1, 5] := by
  have hops : (Session.start newRootTxn).Disciplined nestedRollbacks := by
    refine ⟨by simp, by simp, by simp, by simp, by simp, ?_, by simp, ?_, by simp, trivial⟩
    all_goals
      intro id hid
      cases hid
      decide +kernel
  rw [(liveWrites_eq_stack newRootTxn ⟨rfl, rfl⟩ nestedRollbacks hops (by decide)).1]
  decide +kernel

end Ratel.Kvcoord
