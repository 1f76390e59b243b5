import Ratel.Rangefeed.ResolvedTimestamp

/- Runs of the resolved timestamp. The `World` is what the range does to the intents of its
   transactions: how many each has, how many of those the initial scan has not reported yet,
   the transaction's timestamp, and whether it is known to be aborted. `World.Allows` are the
   promises made to the rangefeed. Between the two stands `Inv`: before initialization a
   reference count is the number of intents less those not reported, which may be negative;
   afterwards it is the number of intents, unless the transaction is known to be aborted, and
   the resolved timestamp is what a recomputation makes of the closed timestamp and the
   oldest transaction. An operation that says it changed nothing leaves the oldest transaction
   alone, or adds one above the closed timestamp (`Quiet`), so the checks do not panic. -/
namespace Ratel.Rangefeed

open Ratel.Lib Function UnresolvedIntentQueue
open Ratel.Storage (Timestamp)

variable {ID : Type} [LinearOrder ID]

namespace UnresolvedIntentQueue

variable {q q' : UnresolvedIntentQueue ID} {id : ID} {txn : UnresolvedTxn}

theorem mem_entries {e : ID × UnresolvedTxn} : e ∈ q.txns.entries ↔ q.txns.get e.1 = some e.2 :=
  q.txns.ascending.find?_eq_some_iff.symm

theorem oldest_eq_none : q.oldest = none ↔ ∀ id, q.txns.get id = none := by
  unfold oldest
  rw [List.argmin_eq_none, List.eq_nil_iff_forall_not_mem]
  constructor
  · intro h id
    rw [Option.eq_none_iff_forall_not_mem]
    intro txn htxn
    exact h (id, txn) (mem_entries.mpr htxn)
  intro h e he
  have := mem_entries.mp he
  rw [h e.1] at this
  cases this

/-- The oldest transaction is the one that ranks below all others. -/
theorem oldest_eq_some : q.oldest = some (id, txn) ↔
    q.txns.get id = some txn ∧ ∀ id' txn', q.txns.get id' = some txn' → rank (id, txn) ≤ rank (id', txn') := by
  have hrank : ∀ {a b : ID × UnresolvedTxn}, q.txns.get a.1 = some a.2 → q.txns.get b.1 = some b.2 →
      rank a = rank b → a = b := by
    intro a b ha hb heq
    have hid : a.1 = b.1 := (Prod.mk.inj (toLex_inj.mp heq)).2
    rw [hid, hb] at ha
    exact Prod.ext hid (Option.some.inj ha.symm)
  constructor
  · intro h
    refine ⟨mem_entries.mp (List.argmin_mem h), fun id' txn' h' => ?_⟩
    exact List.le_of_mem_argmin (mem_entries (e := (id', txn')).mpr h') h
  intro ⟨hget, hle⟩
  cases ho : q.oldest with
  | none =>
    rw [oldest_eq_none.mp ho id] at hget
    cases hget
  | some e =>
    have he : q.txns.get e.1 = some e.2 := mem_entries.mp (List.argmin_mem ho)
    have hge : rank e ≤ rank (id, txn) :=
      List.le_of_mem_argmin (mem_entries (e := (id, txn)).mpr hget) ho
    exact congrArg some (hrank he hget (le_antisymm hge (hle e.1 e.2 he)))

theorem timestamp_le_of_rank {a b : ID × UnresolvedTxn} (h : rank a ≤ rank b) :
    a.2.timestamp ≤ b.2.timestamp := by
  rcases Prod.Lex.toLex_le_toLex.mp h with hlt | heq
  · exact hlt.le
  · exact heq.1.le

/-- The timestamp of the oldest transaction. -/
def least (q : UnresolvedIntentQueue ID) : Option Timestamp := q.oldest.map (·.2.timestamp)

theorem least_le {t : Timestamp} (h : q.least = some t) (hget : q.txns.get id = some txn) : t ≤ txn.timestamp := by
  obtain ⟨⟨id', txn'⟩, ho, rfl⟩ := Option.map_eq_some_iff.mp h
  exact timestamp_le_of_rank ((oldest_eq_some.mp ho).2 id txn hget)

theorem least_get {t : Timestamp} (h : q.least = some t) :
    ∃ id txn, q.txns.get id = some txn ∧ txn.timestamp = t := by
  obtain ⟨⟨id, txn⟩, ho, rfl⟩ := Option.map_eq_some_iff.mp h
  exact ⟨id, txn, (oldest_eq_some.mp ho).1, rfl⟩

theorem least_eq_none (h : q.least = none) (id : ID) : q.txns.get id = none :=
  oldest_eq_none.mp (Option.map_eq_none_iff.mp h) id

theorem least_isSome (h : q.txns.get id = some txn) : ∃ t, q.least = some t := by
  cases hl : q.least with
  | none =>
    rw [least_eq_none hl id] at h
    cases h
  | some t => exact ⟨t, rfl⟩

/-- A transaction that is not the oldest can rise or go without any effect on the oldest. -/
theorem least_of_not_oldest (hget : q.txns.get id = some txn) (hold : q.isOldest id = false)
    (hother : ∀ id', id' ≠ id → q'.txns.get id' = q.txns.get id')
    (hid : ∀ txn', q'.txns.get id = some txn' → txn.timestamp ≤ txn'.timestamp) : q'.least = q.least := by
  obtain ⟨t, ht⟩ := least_isSome hget
  obtain ⟨⟨o, old⟩, ho, _⟩ := Option.map_eq_some_iff.mp ht
  have hne : o ≠ id := by
    intro heq
    have htrue : q.isOldest id = true := by
      unfold isOldest
      rw [ho, ← heq]
      exact decide_eq_true rfl
    rw [htrue] at hold
    cases hold
  obtain ⟨hold', hle⟩ := oldest_eq_some.mp ho
  have ho' : q'.oldest = some (o, old) := by
    refine oldest_eq_some.mpr ⟨by rw [hother o hne]; exact hold', fun id' txn' h' => ?_⟩
    by_cases heq : id' = id
    · subst heq
      have hrank : rank (id', txn) ≤ rank (id', txn') := by
        refine Prod.Lex.toLex_le_toLex.mpr ?_
        rcases (hid txn' h').lt_or_eq with hlt | heq
        · exact .inl hlt
        · exact .inr ⟨heq, le_rfl⟩
      exact (hle id' txn hget).trans hrank
    · rw [hother id' heq] at h'
      exact hle id' txn' h'
  unfold least
  rw [ho, ho']

/-- The least timestamp depends on the timestamps only. -/
theorem least_congr (h : ∀ id, (q'.txns.get id).map (·.timestamp) = (q.txns.get id).map (·.timestamp)) :
    q'.least = q.least := by
  have key : ∀ {a b : UnresolvedIntentQueue ID},
      (∀ id, (a.txns.get id).map (·.timestamp) = (b.txns.get id).map (·.timestamp)) →
      ∀ {t}, b.least = some t → ∃ u, a.least = some u ∧ u ≤ t := by
    intro a b hab t ht
    obtain ⟨id, txn, hget, rfl⟩ := least_get ht
    have hmap := hab id
    rw [hget, Option.map_some] at hmap
    obtain ⟨txn', hget', hts⟩ := Option.map_eq_some_iff.mp hmap
    obtain ⟨u, hu⟩ := least_isSome hget'
    exact ⟨u, hu, hts ▸ least_le hu hget'⟩
  cases hq : q.least with
  | none =>
    cases hq' : q'.least with
    | none => rfl
    | some t =>
      obtain ⟨u, hu, _⟩ := key (fun id => (h id).symm) hq'
      rw [hq] at hu
      cases hu
  | some t =>
    obtain ⟨u, hu, hle⟩ := key h hq
    obtain ⟨v, hv, hle'⟩ := key (fun id => (h id).symm) hu
    rw [hq] at hv
    cases hv
    rw [hu, le_antisymm hle hle']

/-- What an update does to the transaction's record. -/
inductive Updated (q : UnresolvedIntentQueue ID) (id : ID) (ts : Timestamp) (delta : Int) :
    Option UnresolvedTxn → Bool → Prop
  | unknown (hget : q.txns.get id = none) (hd : delta = 0 ∨ delta < 0 ∧ q.allowNegRefCount = false) :
      Updated q id ts delta none false
  | added {txn : UnresolvedTxn} (hget : q.txns.get id = none)
      (hd : ¬ (delta = 0 ∨ delta < 0 ∧ q.allowNegRefCount = false))
      (hts : txn.timestamp = ts) (hcount : txn.refCount = delta) : Updated q id ts delta (some txn) false
  | removed {txn : UnresolvedTxn} (hget : q.txns.get id = some txn)
      (hd : txn.refCount + delta = 0 ∨ txn.refCount + delta < 0 ∧ q.allowNegRefCount = false) :
      Updated q id ts delta none (q.isOldest id)
  | raised {txn txn' : UnresolvedTxn} (hget : q.txns.get id = some txn)
      (hd : ¬ (txn.refCount + delta = 0 ∨ txn.refCount + delta < 0 ∧ q.allowNegRefCount = false))
      (hlt : txn.timestamp < ts) (hts : txn'.timestamp = ts) (hcount : txn'.refCount = txn.refCount + delta) :
      Updated q id ts delta (some txn') (q.isOldest id)
  | counted {txn txn' : UnresolvedTxn} (hget : q.txns.get id = some txn)
      (hd : ¬ (txn.refCount + delta = 0 ∨ txn.refCount + delta < 0 ∧ q.allowNegRefCount = false))
      (hge : ts ≤ txn.timestamp) (hts : txn'.timestamp = txn.timestamp)
      (hcount : txn'.refCount = txn.refCount + delta) : Updated q id ts delta (some txn') false

theorem updateTxn_updated (q : UnresolvedIntentQueue ID) (id : ID) (key : Bytes) (minTS ts : Timestamp) (delta : Int) :
    Updated q id ts delta ((q.updateTxn id key minTS ts delta).1.txns.get id) (q.updateTxn id key minTS ts delta).2 ∧
      (∀ id', id' ≠ id → (q.updateTxn id key minTS ts delta).1.txns.get id' = q.txns.get id') ∧
      (q.updateTxn id key minTS ts delta).1.allowNegRefCount = q.allowNegRefCount := by
  unfold updateTxn
  cases hget : q.txns.get id with
  | none =>
    by_cases hd : delta = 0 ∨ delta < 0 ∧ q.allowNegRefCount = false
    · simp only [if_pos hd]
      exact ⟨hget ▸ .unknown hget hd, fun _ _ => trivial, trivial⟩
    simp only [if_neg hd]
    refine ⟨?_, fun id' hne => by rw [Store.get_put, if_neg hne], trivial⟩
    rw [Store.get_put, if_pos rfl]
    exact .added hget hd rfl rfl
  | some txn =>
    by_cases hd : txn.refCount + delta = 0 ∨ txn.refCount + delta < 0 ∧ q.allowNegRefCount = false
    · simp only [if_pos hd]
      refine ⟨?_, fun id' hne => by rw [Store.get_del, if_neg hne], trivial⟩
      rw [Store.get_del, if_pos rfl]
      exact .removed hget hd
    by_cases hlt : txn.timestamp < ts
    · simp only [if_neg hd, if_pos hlt]
      refine ⟨?_, fun id' hne => by rw [Store.get_put, if_neg hne], trivial⟩
      rw [Store.get_put, if_pos rfl]
      exact .raised hget hd hlt rfl rfl
    simp only [if_neg hd, if_neg hlt]
    refine ⟨?_, fun id' hne => by rw [Store.get_put, if_neg hne], trivial⟩
    rw [Store.get_put, if_pos rfl]
    exact .counted hget hd (not_lt.mp hlt) rfl rfl

end UnresolvedIntentQueue

/-! Recomputing. -/

/-- The resolved timestamp for a closed timestamp and the oldest transaction's. -/
def target (closed : Timestamp) : Option Timestamp → Timestamp
  | none => withoutLogical closed
  | some t => withoutLogical (min closed (t - 1))

theorem withoutLogical_le (ts : Timestamp) : withoutLogical ts ≤ ts := Nat.div_mul_le_self ts (2 ^ 31)

theorem withoutLogical_idem (ts : Timestamp) : withoutLogical (withoutLogical ts) = withoutLogical ts := by
  unfold withoutLogical
  rw [Nat.mul_div_cancel _ (by decide)]

theorem target_le (closed : Timestamp) (least : Option Timestamp) : target closed least ≤ closed := by
  cases least with
  | none => exact withoutLogical_le closed
  | some t => exact (withoutLogical_le _).trans (min_le_left _ _)

variable {closed : Timestamp} {id : ID}

theorem target_lt {t u : Timestamp} (hpos : 0 < t) (hle : t ≤ u) : target closed (some t) < u := by
  have hprev : target closed (some t) ≤ t - 1 := (withoutLogical_le _).trans (min_le_right _ _)
  have : (t : Nat) - 1 < t := Nat.sub_lt hpos Nat.one_pos
  exact lt_of_le_of_lt hprev (lt_of_lt_of_le this hle)

/-- A transaction above the closed timestamp does not hold it back. -/
theorem target_of_lt {t : Timestamp} (h : closed < t) : target closed (some t) = target closed none := by
  have : min closed (t - 1) = closed := min_eq_left (Nat.le_sub_one_of_lt h)
  show withoutLogical (min closed (t - 1)) = withoutLogical closed
  rw [this]

/-- Adding a transaction above the closed timestamp changes nothing. -/
theorem target_of_added {q q' : UnresolvedIntentQueue ID} {txn : UnresolvedTxn}
    (hget : q.txns.get id = none) (hget' : q'.txns.get id = some txn)
    (hother : ∀ id', id' ≠ id → q'.txns.get id' = q.txns.get id') (hlt : closed < txn.timestamp) :
    target closed q'.least = target closed q.least := by
  have hold : ∀ {id' txn'}, q.txns.get id' = some txn' → q'.txns.get id' = some txn' := by
    intro id' txn' h
    have hne : id' ≠ id := by
      intro heq
      rw [heq, hget] at h
      cases h
    rw [hother id' hne, h]
  obtain ⟨t', ht'⟩ := least_isSome hget'
  rw [ht']
  obtain ⟨o, old, ho, hots⟩ := least_get ht'
  cases hq : q.least with
  | none =>
    have hoid : o = id := by
      by_contra hne
      rw [hother o hne, least_eq_none hq o] at ho
      cases ho
    rw [hoid, hget'] at ho
    cases ho
    exact target_of_lt (hots ▸ hlt)
  | some t =>
    obtain ⟨p, prior, hp, hpts⟩ := least_get hq
    have hle : t' ≤ t := hpts ▸ least_le ht' (hold hp)
    by_cases hoid : o = id
    · rw [hoid, hget'] at ho
      cases ho
      have hclosed : closed < t' := hots ▸ hlt
      rw [target_of_lt hclosed, target_of_lt (hclosed.trans_le hle)]
    · rw [hother o hoid] at ho
      rw [le_antisymm hle (hots ▸ least_le hq ho)]

namespace ResolvedTimestamp

variable {rts : ResolvedTimestamp ID}

/-- A recomputation from a resolved timestamp that is not above the closed one and below every
    transaction. -/
theorem recompute_eq (hinit : rts.init = true) (hle : rts.resolvedTS ≤ rts.closedTS)
    (hwhole : withoutLogical rts.resolvedTS = rts.resolvedTS)
    (hbelow : ∀ t, rts.intentQ.least = some t → rts.resolvedTS < t) :
    rts.resolvedTS ≤ target rts.closedTS rts.intentQ.least ∧
      rts.recompute = some ({ rts with resolvedTS := target rts.closedTS rts.intentQ.least },
        decide (rts.resolvedTS < target rts.closedTS rts.intentQ.least)) := by
  have hheld : ∃ ts, rts.heldBack = some ts ∧ rts.resolvedTS ≤ ts ∧
      withoutLogical ts = target rts.closedTS rts.intentQ.least := by
    unfold heldBack UnresolvedIntentQueue.least
    cases ho : rts.intentQ.oldest with
    | none => exact ⟨_, rfl, hle, rfl⟩
    | some e =>
      have hlt : rts.resolvedTS < e.2.timestamp := hbelow _ (by unfold UnresolvedIntentQueue.least; rw [ho]; rfl)
      have hne : e.2.timestamp ≠ 0 := Nat.ne_of_gt (lt_of_le_of_lt (Nat.zero_le _) hlt)
      simp only [if_neg (not_le.mpr hlt), prev, if_neg hne]
      exact ⟨_, rfl, le_min hle (Nat.le_sub_one_of_lt hlt), rfl⟩
  obtain ⟨ts, hts, hge, htarget⟩ := hheld
  have hmono : rts.resolvedTS ≤ target rts.closedTS rts.intentQ.least := by
    rw [← htarget, ← hwhole]
    exact Nat.mul_le_mul_right _ (Nat.div_le_div_right hge)
  refine ⟨hmono, ?_⟩
  unfold recompute
  rw [if_neg (by rw [hinit]; exact Bool.noConfusion), if_neg (not_lt.mpr hle), hts]
  simp only [htarget, if_neg (not_lt.mpr hmono)]
  by_cases hlt : rts.resolvedTS < target rts.closedTS rts.intentQ.least
  · rw [if_pos hlt, decide_eq_true hlt]
  · rw [if_neg hlt, decide_eq_false hlt, ← le_antisymm hmono (not_lt.mp hlt)]

end ResolvedTimestamp

/-! The range and what it promises. -/

/-- What reaches the rangefeed. An intent that the initial scan finds comes as a write. -/
inductive Event (ID : Type)
  | init
  | forwardClosedTS (ts : Timestamp)
  | scanIntent (txnID : ID) (txnKey : Bytes) (txnMinTimestamp ts : Timestamp)
  | logicalOp (op : LogicalOp ID)

def ResolvedTimestamp.apply (rts : ResolvedTimestamp ID) : Event ID → Option (ResolvedTimestamp ID × Bool)
  | .init => rts.initialise
  | .forwardClosedTS ts => rts.forwardClosedTS ts
  | .scanIntent id key minTS ts => rts.consume (.writeIntent id key minTS ts)
  | .logicalOp op => rts.consume op

/-- The closed timestamp, and for every transaction the number of its intents on the range, how
    many of those that were there at the start the scan has yet to report, its timestamp, and
    whether it is known to be aborted. -/
structure World (ID : Type) where
  closed : Timestamp
  intents : ID → Nat
  unscanned : ID → Nat
  txnTS : ID → Timestamp
  aborted : ID → Bool

namespace World

/-- Writes are above what is closed. A scan reports intents that were there, once each, and
    initialization waits for all of them. A committed intent is one of a transaction not known
    to be aborted, at no less than the transaction's timestamp. -/
def Allows (w : World ID) : Event ID → Prop
  | .init => ∀ id, w.unscanned id = 0
  | .forwardClosedTS _ => True
  | .scanIntent id _ _ ts => 0 < w.unscanned id ∧ 0 < ts
  | .logicalOp (.writeValue ts) => w.closed < ts
  | .logicalOp (.deleteRange ts) => w.closed < ts
  | .logicalOp (.writeIntent _ _ _ ts) => w.closed < ts
  | .logicalOp (.updateIntent _ _) => True
  | .logicalOp (.commitIntent id ts) => 0 < w.intents id ∧ w.aborted id = false ∧ w.txnTS id ≤ ts
  | .logicalOp (.abortIntent id) => 0 < w.intents id
  | .logicalOp (.abortTxn _) => True

/-- One transaction has other intents, and its timestamp is the highest seen of it. -/
def change (w : World ID) (id : ID) (intents unscanned : Nat) (ts : Timestamp) : World ID :=
  { w with
    intents := update w.intents id intents
    unscanned := update w.unscanned id unscanned
    txnTS := update w.txnTS id (max (w.txnTS id) ts) }

def after (w : World ID) : Event ID → World ID
  | .init => w
  | .forwardClosedTS ts => { w with closed := max w.closed ts }
  | .scanIntent id _ _ ts => w.change id (w.intents id) (w.unscanned id - 1) ts
  | .logicalOp (.writeValue _) => w
  | .logicalOp (.deleteRange _) => w
  | .logicalOp (.writeIntent id _ _ ts) => w.change id (w.intents id + 1) (w.unscanned id) ts
  | .logicalOp (.updateIntent id ts) => w.change id (w.intents id) (w.unscanned id) ts
  | .logicalOp (.commitIntent id ts) => w.change id (w.intents id - 1) (w.unscanned id) ts
  | .logicalOp (.abortIntent id) => w.change id (w.intents id - 1) (w.unscanned id) 0
  | .logicalOp (.abortTxn id) => { w with aborted := update w.aborted id true }

/-- A range as the rangefeed finds it: nothing closed yet, the scan still to come. -/
structure Initial (w : World ID) : Prop where
  closed : w.closed = 0
  unscanned : w.unscanned = w.intents
  live : ∀ id, 0 < w.intents id → 0 < w.txnTS id

end World

/-! The invariant. -/

/-- The reference count of a record, zero if there is none. -/
def countOf : Option UnresolvedTxn → Int
  | none => 0
  | some txn => txn.refCount

/-- The record of one transaction against what the range has of it. -/
structure RecordOk (init : Bool) (resolved : Timestamp) (w : World ID) (id : ID)
    (record : Option UnresolvedTxn) : Prop where
  ts_le : ∀ txn, record = some txn → txn.timestamp ≤ w.txnTS id
  -- only an intent that was written or scanned gives a positive count
  unwritten : ∀ txn, record = some txn → txn.timestamp = 0 → txn.refCount < 0
  live : 0 < w.intents id → 0 < w.txnTS id
  before : init = false → countOf record = w.intents id - w.unscanned id ∧ ∀ txn, record = some txn → txn.refCount ≠ 0
  after : init = true → w.unscanned id = 0 ∧ (∀ txn, record = some txn → 0 < txn.refCount ∧ resolved < txn.timestamp) ∧
    (w.aborted id = false → countOf record = w.intents id)

namespace ResolvedTimestamp

/-- All but that the resolved timestamp is what a recomputation gives. -/
structure Sound (w : World ID) (rts : ResolvedTimestamp ID) : Prop where
  closed : rts.closedTS = w.closed
  whole : withoutLogical rts.resolvedTS = rts.resolvedTS
  resolved_le : rts.resolvedTS ≤ rts.closedTS
  fresh : rts.init = false → rts.resolvedTS = 0
  allowNeg : rts.intentQ.allowNegRefCount = !rts.init
  records : ∀ id, RecordOk rts.init rts.resolvedTS w id (rts.intentQ.txns.get id)

structure Inv (w : World ID) (rts : ResolvedTimestamp ID) : Prop extends Sound w rts where
  exact_ : rts.init = true → rts.resolvedTS = target rts.closedTS rts.intentQ.least

variable {w : World ID} {rts : ResolvedTimestamp ID}

theorem Sound.below (h : Sound w rts) (hinit : rts.init = true) {id : ID} {txn : UnresolvedTxn}
    (hget : rts.intentQ.txns.get id = some txn) : rts.resolvedTS < txn.timestamp :=
  (((h.records id).after hinit).2.1 txn hget).2

theorem Sound.below_least (h : Sound w rts) (hinit : rts.init = true) :
    ∀ t, rts.intentQ.least = some t → rts.resolvedTS < t := by
  intro t ht
  obtain ⟨id, txn, hget, rfl⟩ := least_get ht
  exact h.below hinit hget

/-- The resolved timestamp is below that of every unresolved intent's transaction. -/
theorem Sound.lt_txnTS (h : Sound w rts) {id : ID} (hlive : 0 < w.intents id) (habort : w.aborted id = false) :
    rts.resolvedTS < w.txnTS id := by
  have hrec := h.records id
  cases hinit : rts.init with
  | false =>
    rw [h.fresh hinit]
    exact hrec.live hlive
  | true =>
    have hcount := (hrec.after hinit).2.2 habort
    cases hget : rts.intentQ.txns.get id with
    | none =>
      rw [hget] at hcount
      have : (0 : Int) = w.intents id := hcount
      omega
    | some txn => exact (h.below hinit hget).trans_le (hrec.ts_le txn hget)

/-- A recomputation restores the invariant and tells whether the timestamp moved. -/
theorem Sound.recompute (h : Sound w rts) :
    ∃ rts' moved, rts.recompute = some (rts', moved) ∧ Inv w rts' ∧ rts.resolvedTS ≤ rts'.resolvedTS ∧
      (moved = true ↔ rts.resolvedTS < rts'.resolvedTS) := by
  cases hinit : rts.init with
  | false =>
    refine ⟨rts, false, ?_, ⟨h, fun h' => absurd (hinit.symm.trans h') Bool.noConfusion⟩, le_rfl, ?_⟩
    · unfold ResolvedTimestamp.recompute
      rw [if_pos hinit]
    · exact iff_of_false Bool.noConfusion (lt_irrefl _)
  | true =>
    have hbelow := h.below_least hinit
    obtain ⟨hmono, heq⟩ := recompute_eq hinit h.resolved_le h.whole hbelow
    refine ⟨_, _, heq, ⟨⟨h.closed, ?_, target_le _ _, ?_, h.allowNeg, fun id => ?_⟩, fun _ => rfl⟩, hmono,
      decide_eq_true_iff⟩
    · cases rts.intentQ.least with
      | none | some _ => exact withoutLogical_idem _
    · intro h'
      exact absurd (hinit.symm.trans h') Bool.noConfusion
    have hrec := h.records id
    refine ⟨hrec.ts_le, hrec.unwritten, hrec.live, hrec.before, fun hi => ?_⟩
    obtain ⟨hscan, hpos, hcount⟩ := hrec.after hi
    refine ⟨hscan, fun txn hget => ⟨(hpos txn hget).1, ?_⟩, hcount⟩
    obtain ⟨t, ht⟩ := least_isSome hget
    rw [ht]
    exact target_lt (lt_of_le_of_lt (Nat.zero_le _) (hbelow t ht)) (least_le ht hget)

/-- With the invariant in place the check that nothing changed passes. -/
theorem Inv.assertNoChange (h : Inv w rts) : rts.assertNoChange = some (rts, false) := by
  have hre : rts.recompute = some (rts, false) := by
    cases hinit : rts.init with
    | false =>
      unfold ResolvedTimestamp.recompute
      rw [if_pos hinit]
    | true =>
      rw [(recompute_eq hinit h.resolved_le h.whole (h.below_least hinit)).2, ← h.exact_ hinit,
        decide_eq_false (lt_irrefl _)]
  unfold ResolvedTimestamp.assertNoChange
  rw [hre]
  exact if_neg (by simp)

/-! One step. -/

/-- An operation returns, keeps the invariant, does not take the resolved timestamp back and
    tells whether it moved. -/
def StepOk (w' : World ID) (rts : ResolvedTimestamp ID) (result : Option (ResolvedTimestamp ID × Bool)) : Prop :=
  ∃ rts' moved, result = some (rts', moved) ∧ Inv w' rts' ∧ rts.resolvedTS ≤ rts'.resolvedTS ∧
    (moved = true ↔ rts.resolvedTS < rts'.resolvedTS)

variable {w' : World ID} {rts' : ResolvedTimestamp ID}

/-- What follows an operation on the queue. -/
theorem Sound.settle (h : Sound w' rts') (heq : rts'.resolvedTS = rts.resolvedTS) {changed : Bool}
    (hquiet : changed = false → rts'.init = true → rts'.resolvedTS = target rts'.closedTS rts'.intentQ.least) :
    StepOk w' rts (rts'.settle changed) := by
  cases changed with
  | true =>
    obtain ⟨r, moved, hr, hinv, hle, hmoved⟩ := h.recompute
    rw [heq] at hle hmoved
    exact ⟨r, moved, hr, hinv, hle, hmoved⟩
  | false =>
    have hinv : Inv w' rts' := ⟨h, hquiet rfl⟩
    exact ⟨rts', false, hinv.assertNoChange, hinv, heq.ge, iff_of_false Bool.noConfusion (by rw [heq]; exact lt_irrefl _)⟩

end ResolvedTimestamp

/-- How the range changes with an update of one transaction in the queue. -/
structure Moves (w w' : World ID) (closed : Timestamp) (init : Bool) (id : ID) (ts : Timestamp) (delta : Int) :
    Prop where
  closed_eq : w'.closed = w.closed
  aborted : w'.aborted = w.aborted
  other : ∀ id', id' ≠ id → w'.intents id' = w.intents id' ∧ w'.unscanned id' = w.unscanned id' ∧
    w'.txnTS id' = w.txnTS id'
  txnTS : w'.txnTS id = max (w.txnTS id) ts
  count : (w'.intents id : Int) - w'.unscanned id = w.intents id - w.unscanned id + delta
  unscanned : init = true → w'.unscanned id = 0
  delta_le : -1 ≤ delta
  up : 0 < delta → 0 < ts ∧ (init = true → closed < ts)
  down : delta < 0 → 0 < w.intents id
  live : 0 < w'.intents id → 0 < w'.txnTS id

theorem Moves.change {w : World ID} {init : Bool} {intents unscanned : Nat}
    {ts : Timestamp} {delta : Int} (hcount : (intents : Int) - unscanned = w.intents id - w.unscanned id + delta)
    (hscan : init = true → unscanned = 0) (hlow : -1 ≤ delta)
    (hup : 0 < delta → 0 < ts ∧ (init = true → closed < ts)) (hdown : delta < 0 → 0 < w.intents id)
    (hlive : 0 < intents → 0 < w.txnTS id ∨ 0 < ts) :
    Moves w (w.change id intents unscanned ts) closed init id ts delta where
  closed_eq := rfl
  aborted := rfl
  other := fun id' hne =>
    ⟨update_of_ne hne _ _, update_of_ne hne _ _, update_of_ne hne _ _⟩
  txnTS := update_self _ _ _
  count := by
    simp only [World.change, update_self]
    exact hcount
  unscanned := fun hi => by
    simp only [World.change, update_self]
    exact hscan hi
  delta_le := hlow
  up := hup
  down := hdown
  live := fun h => by
    simp only [World.change, update_self] at h ⊢
    rcases hlive h with ht | ht
    · exact ht.trans_le (le_max_left _ _)
    · exact ht.trans_le (le_max_right _ _)

section Record

variable {w w' : World ID} {init : Bool} {closed resolved : Timestamp} {id : ID} {ts : Timestamp} {delta : Int}

omit [LinearOrder ID] in
theorem RecordOk.congr {record : Option UnresolvedTxn} (h : RecordOk init resolved w id record)
    (hi : w'.intents id = w.intents id) (hu : w'.unscanned id = w.unscanned id)
    (ht : w'.txnTS id = w.txnTS id) (ha : w'.aborted id = w.aborted id) :
    RecordOk init resolved w' id record := by
  obtain ⟨h1, h2, h3, h4, h5⟩ := h
  rw [← hi, ← hu, ← ht, ← ha] at *
  exact ⟨h1, h2, h3, h4, h5⟩

omit [LinearOrder ID] in
theorem RecordOk.absent (hlive : 0 < w.intents id → 0 < w.txnTS id)
    (hbefore : init = false → (w.intents id : Int) - w.unscanned id = 0)
    (hafter : init = true → w.unscanned id = 0 ∧ (w.aborted id = false → w.intents id = 0)) :
    RecordOk init resolved w id none where
  ts_le := fun _ h => nomatch h
  unwritten := fun _ h => nomatch h
  live := hlive
  before := fun hi => ⟨(hbefore hi).symm, (fun _ h => nomatch h)⟩
  after := fun hi => ⟨(hafter hi).1, (fun _ h => nomatch h), fun ha => by rw [(hafter hi).2 ha]; rfl⟩

omit [LinearOrder ID] in
theorem RecordOk.present {txn : UnresolvedTxn} (hts : txn.timestamp ≤ w.txnTS id)
    (hunwritten : txn.timestamp = 0 → txn.refCount < 0) (hlive : 0 < w.intents id → 0 < w.txnTS id)
    (hbefore : init = false → txn.refCount = w.intents id - w.unscanned id ∧ txn.refCount ≠ 0)
    (hafter : init = true → w.unscanned id = 0 ∧ (0 < txn.refCount ∧ resolved < txn.timestamp) ∧
      (w.aborted id = false → txn.refCount = w.intents id)) :
    RecordOk init resolved w id (some txn) where
  ts_le := fun _ h => by cases h; exact hts
  unwritten := fun _ h => by cases h; exact hunwritten
  live := hlive
  before := fun hi => ⟨(hbefore hi).1, fun _ h => by cases h; exact (hbefore hi).2⟩
  after := fun hi => ⟨(hafter hi).1, fun _ h => by cases h; exact (hafter hi).2.1, (hafter hi).2.2⟩

/-- The record of an updated transaction. -/
theorem RecordOk.update {q : UnresolvedIntentQueue ID} {record : Option UnresolvedTxn} {changed : Bool}
    (hm : Moves w w' closed init id ts delta) (hres : resolved ≤ closed) (hneg : q.allowNegRefCount = !init)
    (h : RecordOk init resolved w id (q.txns.get id)) (hu : q.Updated id ts delta record changed) :
    RecordOk init resolved w' id record := by
  have hkept : ∀ {t : Timestamp}, t ≤ w.txnTS id → t ≤ w'.txnTS id := fun ht => by
    rw [hm.txnTS]
    exact ht.trans (le_max_left _ _)
  have hseen : ts ≤ w'.txnTS id := by
    rw [hm.txnTS]
    exact le_max_right _ _
  have hcount := hm.count
  have hlow := hm.delta_le
  have hscanned : init = true → w'.unscanned id = 0 ∧ w.unscanned id = 0 := fun hi =>
    ⟨hm.unscanned hi, (h.after hi).1⟩
  have hintents : init = true → w'.aborted id = false → countOf (q.txns.get id) = w.intents id :=
    fun hi ha => (h.after hi).2.2 (by rw [← hm.aborted]; exact ha)
  -- a count that moves with the update stays exact
  have hcounts : ∀ n : Int, n = countOf (q.txns.get id) + delta → (init = false → n = w'.intents id - w'.unscanned id) ∧
      (init = true → w'.aborted id = false → n = w'.intents id) := by
    refine fun n hn => ⟨fun hi => ?_, fun hi ha => ?_⟩
    · have h0 := (h.before hi).1
      omega
    have h0 := hintents hi ha
    have hs := hscanned hi
    omega
  cases hu with
  | unknown hget hd =>
    rw [hget] at h hintents
    refine .absent hm.live (fun hi => ?_) fun hi => ⟨hm.unscanned hi, fun ha => ?_⟩
    · have h0 : (0 : Int) = w.intents id - w.unscanned id := (h.before hi).1
      have hd0 : delta = 0 := hd.resolve_right fun hd => by
        rw [hneg, hi] at hd
        cases hd.2
      omega
    · -- nothing is taken from a transaction without intents
      have h0 : (0 : Int) = w.intents id := hintents hi ha
      have hs := hscanned hi
      omega
  | @added txn hget hd htime hcnt =>
    rw [hget] at h hcounts
    rw [not_or] at hd
    obtain ⟨hbefore, hafter⟩ := hcounts txn.refCount (hcnt.trans (zero_add delta).symm)
    refine .present (htime ▸ hseen) (fun hz => ?_) hm.live (fun hi => ⟨hbefore hi, hcnt ▸ hd.1⟩)
      fun hi => ⟨hm.unscanned hi, ?_, hafter hi⟩
    · by_contra hge
      have hpos := (hm.up (by omega)).1
      rw [← htime, hz] at hpos
      exact absurd hpos (lt_irrefl _)
    have hpos : 0 < delta := by
      have hnn : ¬ delta < 0 := fun hlt => hd.2 ⟨hlt, by rw [hneg, hi]; rfl⟩
      omega
    exact ⟨hcnt ▸ hpos, htime ▸ hres.trans_lt ((hm.up hpos).2 hi)⟩
  | @removed txn hget hd =>
    rw [hget] at h hcounts
    have hzero : txn.refCount + delta = 0 := by
      cases hi : init with
      | false => exact hd.resolve_right fun hd => by rw [hneg, hi] at hd; cases hd.2
      | true =>
        have := ((h.after hi).2.1 txn rfl).1
        omega
    obtain ⟨hbefore, hafter⟩ := hcounts 0 hzero.symm
    exact .absent hm.live (fun hi => (hbefore hi).symm) fun hi =>
      ⟨hm.unscanned hi, fun ha => Int.ofNat_inj.mp (hafter hi ha).symm⟩
  | @raised txn txn' hget hd hlt htime hcnt =>
    rw [hget] at h hcounts
    rw [not_or] at hd
    obtain ⟨hbefore, hafter⟩ := hcounts txn'.refCount hcnt
    refine .present (htime ▸ hseen) (fun hz => ?_) hm.live (fun hi => ⟨hbefore hi, hcnt ▸ hd.1⟩)
      fun hi => ⟨hm.unscanned hi, ⟨?_, ?_⟩, hafter hi⟩
    · rw [← htime, hz] at hlt
      exact absurd hlt (Nat.not_lt_zero _)
    · have := ((h.after hi).2.1 txn rfl).1
      omega
    · exact htime ▸ ((h.after hi).2.1 txn rfl).2.trans hlt
  | @counted txn txn' hget hd hge htime hcnt =>
    rw [hget] at h hcounts
    rw [not_or] at hd
    obtain ⟨hbefore, hafter⟩ := hcounts txn'.refCount hcnt
    refine .present (htime ▸ hkept (h.ts_le txn rfl)) (fun hz => ?_) hm.live (fun hi => ⟨hbefore hi, hcnt ▸ hd.1⟩)
      fun hi => ⟨hm.unscanned hi, ⟨?_, ?_⟩, hafter hi⟩
    · have hneg' := h.unwritten txn rfl (htime ▸ hz)
      have hnup : ¬ 0 < delta := fun hpos => by
        have htspos := (hm.up hpos).1
        rw [← htime, hz] at hge
        exact absurd (htspos.trans_le hge) (lt_irrefl _)
      omega
    · have := ((h.after hi).2.1 txn rfl).1
      omega
    · exact htime ▸ ((h.after hi).2.1 txn rfl).2

end Record

/-- An update that reports no change leaves alone what a recomputation looks at. -/
theorem UnresolvedIntentQueue.Updated.quiet {q q' : UnresolvedIntentQueue ID}
    {ts : Timestamp} {delta : Int} {record : Option UnresolvedTxn} {changed : Bool}
    (hu : q.Updated id ts delta record changed) (hc : changed = false) (hrec : q'.txns.get id = record)
    (hother : ∀ id', id' ≠ id → q'.txns.get id' = q.txns.get id')
    (hneg : q.allowNegRefCount = false) (hup : 0 < delta → closed < ts) :
    target closed q'.least = target closed q.least := by
  cases hu with
  | unknown hget _ =>
    refine congrArg _ (least_congr fun id' => ?_)
    by_cases heq : id' = id
    · rw [heq, hrec, hget]
    · rw [hother id' heq]
  | added hget hd hts _ =>
    rw [not_or, not_and] at hd
    have hpos : 0 < delta := lt_of_le_of_ne (not_lt.mp fun hlt => hd.2 hlt hneg) (Ne.symm hd.1)
    exact target_of_added hget hrec hother (hts ▸ hup hpos)
  | removed hget _ =>
    refine congrArg _ (least_of_not_oldest hget hc hother fun txn' h' => ?_)
    rw [hrec] at h'
    cases h'
  | raised hget _ hlt hts _ =>
    refine congrArg _ (least_of_not_oldest hget hc hother fun txn' h' => ?_)
    rw [hrec] at h'
    cases h'
    exact hts ▸ hlt.le
  | counted hget _ _ hts _ =>
    refine congrArg _ (least_congr fun id' => ?_)
    by_cases heq : id' = id
    · rw [heq, hrec, hget, Option.map_some, Option.map_some, hts]
    · rw [hother id' heq]

namespace ResolvedTimestamp

variable {w w' : World ID} {rts : ResolvedTimestamp ID}

/-- A queue operation on one transaction whose record stays right. -/
theorem Inv.queueStep (h : Inv w rts) (q' : UnresolvedIntentQueue ID) (id : ID) {changed : Bool}
    (hclosed : w'.closed = w.closed) (hneg : q'.allowNegRefCount = rts.intentQ.allowNegRefCount)
    (hother : ∀ id', id' ≠ id → q'.txns.get id' = rts.intentQ.txns.get id' ∧
      w'.intents id' = w.intents id' ∧ w'.unscanned id' = w.unscanned id' ∧ w'.txnTS id' = w.txnTS id' ∧
      w'.aborted id' = w.aborted id')
    (hid : RecordOk rts.init rts.resolvedTS w' id (q'.txns.get id))
    (hquiet : changed = false → rts.init = true →
      target rts.closedTS q'.least = target rts.closedTS rts.intentQ.least) :
    StepOk w' rts ({ rts with intentQ := q' }.settle changed) := by
  have hsound : Sound w' { rts with intentQ := q' } := by
    refine ⟨h.closed.trans hclosed.symm, h.whole, h.resolved_le, h.fresh, hneg.trans h.allowNeg, fun id' => ?_⟩
    by_cases heq : id' = id
    · rw [heq]
      exact hid
    obtain ⟨hget, hi, hu, ht, ha⟩ := hother id' heq
    rw [hget]
    exact (h.records id').congr hi hu ht ha
  exact hsound.settle rfl fun hc hinit => (h.exact_ hinit).trans (hquiet hc hinit).symm

variable {ts : Timestamp}

theorem Inv.update (h : Inv w rts) {id : ID} {delta : Int}
    (hm : Moves w w' rts.closedTS rts.init id ts delta) (key : Bytes) (minTS : Timestamp) :
    StepOk w' rts ((rts.withQueue (rts.intentQ.updateTxn id key minTS ts delta)).1.settle
      (rts.withQueue (rts.intentQ.updateTxn id key minTS ts delta)).2) := by
  obtain ⟨hu, hother, hneg⟩ := rts.intentQ.updateTxn_updated id key minTS ts delta
  have hrec := RecordOk.update hm h.resolved_le h.allowNeg (h.records id) hu
  refine h.queueStep _ id hm.closed_eq hneg (fun id' hne => ⟨hother id' hne, ?_⟩) hrec ?_
  · obtain ⟨hi, hs, ht⟩ := hm.other id' hne
    exact ⟨hi, hs, ht, by rw [hm.aborted]⟩
  intro hc hinit
  have hno : rts.intentQ.allowNegRefCount = false := by rw [h.allowNeg, hinit]; rfl
  exact hu.quiet hc rfl hother hno fun hpos => (hm.up hpos).2 hinit

/-- An operation that leaves the queue alone. -/
theorem Inv.idle (h : Inv w rts) : StepOk w rts (rts.settle false) :=
  h.toSound.settle rfl fun _ hinit => h.exact_ hinit

theorem consume_eq {op : LogicalOp ID} {rts' : ResolvedTimestamp ID} {changed : Bool}
    (h : rts.consumeLogicalOp op = some (rts', changed)) : rts.consume op = rts'.settle changed := by
  unfold consume
  rw [h]

theorem assertOpAboveRTS_eq (h : rts.resolvedTS < ts) (result : ResolvedTimestamp ID × Bool) :
    rts.assertOpAboveRTS ts result = some result := if_neg (not_le.mpr h)

theorem Inv.writeIntent (h : Inv w rts) {id : ID} (hts : rts.resolvedTS < ts)
    (hm : Moves w w' rts.closedTS rts.init id ts 1) (key : Bytes) (minTS : Timestamp) :
    StepOk w' rts (rts.consume (.writeIntent id key minTS ts)) := by
  have heq : rts.consumeLogicalOp (.writeIntent id key minTS ts) =
      some (rts.withQueue (rts.intentQ.incRef id key minTS ts)) := assertOpAboveRTS_eq hts _
  rw [consume_eq heq]
  exact h.update hm key minTS

theorem Inv.initialise (h : Inv w rts) (hscan : ∀ id, w.unscanned id = 0) : StepOk w rts rts.initialise := by
  have hpos : ∀ id txn, rts.intentQ.txns.get id = some txn → 0 < txn.refCount := by
    intro id txn hget
    have hrec := h.records id
    cases hinit : rts.init with
    | true => exact ((hrec.after hinit).2.1 txn hget).1
    | false =>
      obtain ⟨hcount, hne⟩ := hrec.before hinit
      rw [hget, hscan id] at hcount
      have hcount' : txn.refCount = (w.intents id : Int) - (0 : Nat) := hcount
      have := hne txn hget
      omega
  have hall : (rts.intentQ.txns.entries.all fun e => decide (0 < e.2.refCount)) = true := by
    rw [List.all_eq_true]
    intro e he
    exact decide_eq_true (hpos e.1 e.2 (UnresolvedIntentQueue.mem_entries.mp he))
  have hsound : Sound w { rts with init := true, intentQ := { rts.intentQ with allowNegRefCount := false } } := by
    refine ⟨h.closed, h.whole, h.resolved_le, fun hn => (nomatch hn), rfl, fun id => ?_⟩
    have hrec := h.records id
    refine ⟨hrec.ts_le, hrec.unwritten, hrec.live, fun hn => (nomatch hn), fun _ => ⟨hscan id, fun txn hget => ?_, ?_⟩⟩
    · refine ⟨hpos id txn hget, ?_⟩
      cases hinit : rts.init with
      | true => exact h.below hinit hget
      | false =>
        rw [h.fresh hinit]
        refine Nat.pos_of_ne_zero fun hz => ?_
        have := hrec.unwritten txn hget hz
        have := hpos id txn hget
        omega
    · intro ha
      cases hinit : rts.init with
      | true => exact (hrec.after hinit).2.2 ha
      | false =>
        have hcount := (hrec.before hinit).1
        rw [hscan id] at hcount
        rw [hcount]
        simp
  unfold ResolvedTimestamp.initialise disallowNegRefCount
  rw [if_pos hall]
  obtain ⟨r, moved, hr, hinv, hle, hmoved⟩ := hsound.recompute
  exact ⟨r, moved, hr, hinv, hle, hmoved⟩

theorem Inv.forwardClosedTS (h : Inv w rts) (ts : Timestamp) :
    StepOk { w with closed := max w.closed ts } rts (rts.forwardClosedTS ts) := by
  unfold ResolvedTimestamp.forwardClosedTS
  have hrecords : ∀ id, RecordOk rts.init rts.resolvedTS { w with closed := max w.closed ts } id
      (rts.intentQ.txns.get id) := fun id => (h.records id).congr rfl rfl rfl rfl
  by_cases hlt : rts.closedTS < ts
  · rw [if_pos hlt]
    have hclosed : ts = max w.closed ts := by
      rw [← h.closed]
      exact (max_eq_right hlt.le).symm
    have hsound : Sound { w with closed := max w.closed ts } { rts with closedTS := ts } :=
      ⟨hclosed, h.whole, h.resolved_le.trans hlt.le, h.fresh, h.allowNeg, hrecords⟩
    obtain ⟨r, moved, hr, hinv, hle, hmoved⟩ := hsound.recompute
    exact ⟨r, moved, hr, hinv, hle, hmoved⟩
  · rw [if_neg hlt]
    have hclosed : rts.closedTS = max w.closed ts := by
      rw [← h.closed]
      exact (max_eq_left (not_lt.mp hlt)).symm
    have hinv : Inv { w with closed := max w.closed ts } rts :=
      ⟨⟨hclosed, h.whole, h.resolved_le, h.fresh, h.allowNeg, hrecords⟩, h.exact_⟩
    exact ⟨rts, false, hinv.assertNoChange, hinv, le_rfl, iff_of_false Bool.noConfusion (lt_irrefl _)⟩

/-- A transaction that is known to be aborted is taken out, once the counts are settled. -/
theorem Inv.abortTxn (h : Inv w rts) (id : ID) :
    StepOk (w.after (.logicalOp (.abortTxn id))) rts (rts.consume (.abortTxn id)) := by
  have hrec := h.records id
  have habort : (w.after (.logicalOp (.abortTxn id))).aborted id = true := update_self _ _ _
  have hother : ∀ id', id' ≠ id → (w.after (.logicalOp (.abortTxn id))).aborted id' = w.aborted id' :=
    fun id' hne => update_of_ne hne _ _
  -- the count of a transaction known to be aborted is free
  have hkept : RecordOk rts.init rts.resolvedTS (w.after (.logicalOp (.abortTxn id))) id (rts.intentQ.txns.get id) := by
    refine ⟨hrec.ts_le, hrec.unwritten, hrec.live, hrec.before, fun hi => ?_⟩
    refine ⟨(hrec.after hi).1, (hrec.after hi).2.1, fun ha => ?_⟩
    rw [habort] at ha
    cases ha
  have hfree : StepOk (w.after (.logicalOp (.abortTxn id))) rts (rts.settle false) :=
    h.queueStep rts.intentQ id rfl rfl (fun id' hne => ⟨rfl, rfl, rfl, rfl, hother id' hne⟩) hkept fun _ _ => rfl
  cases hinit : rts.init with
  | false =>
    have heq : rts.consumeLogicalOp (.abortTxn id) = some (rts, false) := if_pos hinit
    rw [consume_eq heq]
    exact hfree
  | true =>
    have heq : rts.consumeLogicalOp (.abortTxn id) = some (rts.withQueue (rts.intentQ.del id)) :=
      if_neg (by rw [hinit]; exact Bool.noConfusion)
    rw [consume_eq heq]
    unfold del
    cases hget : rts.intentQ.txns.get id with
    | none => exact hfree
    | some txn =>
      have hdel : ∀ id', id' ≠ id → (rts.intentQ.txns.del id).get id' = rts.intentQ.txns.get id' :=
        fun id' hne => by rw [Store.get_del, if_neg hne]
      have hgone : (rts.intentQ.txns.del id).get id = none := by rw [Store.get_del, if_pos rfl]
      refine h.queueStep _ id rfl rfl (fun id' hne => ⟨hdel id' hne, rfl, rfl, rfl, hother id' hne⟩) ?_
        fun hc _ => congrArg _ (least_of_not_oldest hget hc hdel fun txn' h' => ?_)
      · rw [hgone]
        refine .absent hrec.live (fun hi => ?_) fun hi => ⟨(hrec.after hi).1, fun ha => ?_⟩
        · rw [hinit] at hi
          cases hi
        · rw [habort] at ha
          cases ha
      · rw [hgone] at h'
        cases h'

/-- Every event the range may send is a good step. -/
theorem Inv.apply (h : Inv w rts) (ev : Event ID) (hallow : w.Allows ev) :
    StepOk (w.after ev) rts (rts.apply ev) := by
  have habove : ∀ {ts : Timestamp}, w.closed < ts → rts.resolvedTS < ts := fun hts =>
    h.resolved_le.trans_lt (h.closed ▸ hts)
  have hscanned : ∀ id, rts.init = true → w.unscanned id = 0 := fun id hi => ((h.records id).after hi).1
  have hlive : ∀ id, 0 < w.intents id → 0 < w.txnTS id := fun id => (h.records id).live
  have hdrop : ∀ id, 0 < w.intents id → ∀ ts, Moves w (w.change id (w.intents id - 1) (w.unscanned id) ts)
      rts.closedTS rts.init id ts (-1) := fun id hpos ts =>
    .change (by omega) (hscanned id) (by decide) (fun hlt => absurd hlt (by decide)) (fun _ => hpos)
      fun _ => .inl (hlive id hpos)
  cases ev with
  | init => exact h.initialise hallow
  | forwardClosedTS ts => exact h.forwardClosedTS ts
  | scanIntent id key minTS ts =>
    obtain ⟨hscan, hts⟩ := hallow
    -- after initialization nothing is left to scan
    have hinit : ¬ rts.init = true := fun hi => absurd (hscanned id hi) (Nat.ne_of_gt hscan)
    refine h.writeIntent (by rw [h.fresh (Bool.not_eq_true _ ▸ hinit)]; exact hts) ?_ key minTS
    exact .change (by omega) (fun hi => absurd hi hinit) (by decide) (fun _ => ⟨hts, fun hi => absurd hi hinit⟩)
      (fun hlt => absurd hlt (by decide)) fun _ => .inr hts
  | logicalOp op =>
    cases op with
    | writeValue ts =>
      have heq : rts.consumeLogicalOp (.writeValue ts) = some (rts, false) := assertOpAboveRTS_eq (habove hallow) _
      show StepOk w rts (rts.consume _)
      rw [consume_eq heq]
      exact h.idle
    | deleteRange ts =>
      have heq : rts.consumeLogicalOp (.deleteRange ts) = some (rts, false) := assertOpAboveRTS_eq (habove hallow) _
      show StepOk w rts (rts.consume _)
      rw [consume_eq heq]
      exact h.idle
    | writeIntent id key minTS ts =>
      have hclosed : w.closed < ts := hallow
      have hts : 0 < ts := lt_of_le_of_lt (Nat.zero_le _) hclosed
      refine h.writeIntent (habove hallow) ?_ key minTS
      exact .change (by omega) (hscanned id) (by decide) (fun _ => ⟨hts, fun _ => h.closed ▸ hclosed⟩)
        (fun hlt => absurd hlt (by decide)) fun _ => .inr hts
    | updateIntent id ts =>
      have hm : Moves w (w.change id (w.intents id) (w.unscanned id) ts) rts.closedTS rts.init id ts 0 :=
        .change (by omega) (hscanned id) (by decide) (fun hlt => absurd hlt (by decide))
          (fun hlt => absurd hlt (by decide)) fun hi => .inl (hlive id hi)
      exact h.update hm [] 0
    | commitIntent id ts =>
      exact h.update (hdrop id hallow.1 ts) [] 0
    | abortIntent id => exact h.update (hdrop id hallow 0) [] 0
    | abortTxn id => exact h.abortTxn id

end ResolvedTimestamp

/-! Runs. -/

/-- The range keeps its promises throughout. -/
def World.AllowsRun (w : World ID) : List (Event ID) → Prop
  | [] => True
  | ev :: evs => w.Allows ev ∧ (w.after ev).AllowsRun evs

def Event.commits : Event ID → Option Timestamp
  | .logicalOp (.writeValue ts) => some ts
  | .logicalOp (.deleteRange ts) => some ts
  | .logicalOp (.commitIntent _ ts) => some ts
  | _ => none

namespace ResolvedTimestamp

variable {w : World ID} {rts : ResolvedTimestamp ID}

/-- The resolved timestamp is not above the closed one, is below the timestamp of every
    transaction with unresolved intents, and below every value still to be committed. -/
structure StateOk (w : World ID) (rts : ResolvedTimestamp ID) (rest : List (Event ID)) : Prop where
  closed : rts.resolvedTS ≤ w.closed
  unresolved : ∀ id, 0 < w.intents id → w.aborted id = false → rts.resolvedTS < w.txnTS id
  later : ∀ ev ∈ rest, ∀ ts, ev.commits = some ts → rts.resolvedTS < ts

/-- All states of a run are right, no event panics, none takes the resolved timestamp back, and
    each returns whether it moved. -/
def RunOk (w : World ID) (rts : ResolvedTimestamp ID) : List (Event ID) → Prop
  | [] => StateOk w rts []
  | ev :: evs => StateOk w rts (ev :: evs) ∧ ∃ rts' moved, rts.apply ev = some (rts', moved) ∧
      rts.resolvedTS ≤ rts'.resolvedTS ∧ (moved = true ↔ rts.resolvedTS < rts'.resolvedTS) ∧
      RunOk (w.after ev) rts' evs

/-- A value is committed above the resolved timestamp of its moment. -/
theorem Sound.lt_commits (h : Sound w rts) {ev : Event ID} (hallow : w.Allows ev) {ts : Timestamp}
    (hc : ev.commits = some ts) : rts.resolvedTS < ts := by
  have hclosed : w.closed < ts → rts.resolvedTS < ts := fun hlt => h.resolved_le.trans_lt (h.closed ▸ hlt)
  cases ev with
  | init => cases hc
  | forwardClosedTS => cases hc
  | scanIntent => cases hc
  | logicalOp op =>
    cases op with
    | writeValue _ | deleteRange _ =>
      cases hc
      exact hclosed hallow
    | commitIntent id t =>
      cases hc
      obtain ⟨hlive, habort, hle⟩ := hallow
      exact (h.lt_txnTS hlive habort).trans_le hle
    | writeIntent | updateIntent | abortIntent | abortTxn => cases hc

/-- Nor is it ever committed below the resolved timestamp of an earlier moment. -/
theorem Inv.lt_later : ∀ (evs : List (Event ID)) (w : World ID) (rts : ResolvedTimestamp ID), Inv w rts →
    w.AllowsRun evs → ∀ ev ∈ evs, ∀ ts, ev.commits = some ts → rts.resolvedTS < ts := by
  intro evs
  induction evs with
  | nil =>
    intro w rts _ _ ev hev
    cases hev
  | cons e evs ih =>
    intro w rts h ⟨hallow, hrun⟩ ev hev ts hc
    rcases List.mem_cons.mp hev with heq | hev
    · rw [heq] at hc
      exact h.toSound.lt_commits hallow hc
    · obtain ⟨rts', _, _, hinv, hle, _⟩ := h.apply e hallow
      exact hle.trans_lt (ih _ rts' hinv hrun ev hev ts hc)

theorem Inv.runOk : ∀ (evs : List (Event ID)) (w : World ID) (rts : ResolvedTimestamp ID), Inv w rts →
    w.AllowsRun evs → RunOk w rts evs := by
  intro evs
  induction evs with
  | nil =>
    intro w rts h hrun
    exact ⟨h.closed ▸ h.resolved_le, fun _ => h.lt_txnTS, Inv.lt_later [] w rts h hrun⟩
  | cons ev evs ih =>
    intro w rts h hrun
    obtain ⟨rts', moved, happly, hinv, hle, hmoved⟩ := h.apply ev hrun.1
    refine ⟨⟨h.closed ▸ h.resolved_le, fun _ => h.lt_txnTS, Inv.lt_later (ev :: evs) w rts h hrun⟩, ?_⟩
    exact ⟨rts', moved, happly, hle, hmoved, ih _ rts' hinv hrun.2⟩

theorem inv_make (hw : w.Initial) : Inv w (make : ResolvedTimestamp ID) := by
  have hzero : withoutLogical 0 = 0 := Nat.le_zero.mp (withoutLogical_le 0)
  refine ⟨⟨hw.closed.symm, hzero, le_rfl, fun _ => rfl, rfl, fun id => ?_⟩, fun h => (nomatch h)⟩
  refine .absent (hw.live id) (fun _ => ?_) fun h => (nomatch h)
  rw [hw.unscanned]
  omega

/-- Whatever a range that keeps its promises sends to a new rangefeed, the resolved timestamp
    is right in every state of the run. -/
theorem resolvedTimestamp_runs (w : World ID) (hw : w.Initial) (evs : List (Event ID)) (hrun : w.AllowsRun evs) :
    RunOk w make evs :=
  Inv.runOk evs w make (inv_make hw) hrun

def wall (n : Nat) : Timestamp := n * 2 ^ 31

local instance threeNeZero : NeZero (2 + 1) := ⟨by decide⟩

/-- One transaction has an intent when the rangefeed starts. -/
def oneIntent : World (Fin 3) where
  closed := 0
  intents := fun id => if id = 1 then 1 else 0
  unscanned := fun id => if id = 1 then 1 else 0
  txnTS := fun id => if id = 1 then wall 3 else 0
  aborted := fun _ => false

/-- Its intent is committed before the scan reports it. Another transaction is found aborted
    and then writes and loses one more intent. -/
def evictedRun : List (Event (Fin 3)) :=
  [.logicalOp (.commitIntent 1 (wall 5)), .forwardClosedTS (wall 8), .scanIntent 1 [97] (wall 3) (wall 3),
    .logicalOp (.writeIntent 2 [98] (wall 9) (wall 9)), .init, .forwardClosedTS (wall 20),
    .logicalOp (.abortTxn 2), .logicalOp (.writeIntent 2 [98] (wall 9) (wall 21)), .logicalOp (.abortIntent 2)]

theorem resolvedTimestamp_runs_evicted : RunOk oneIntent make evictedRun := by
  have hallow : oneIntent.AllowsRun evictedRun :=
    ⟨⟨by decide, by decide, by decide⟩, trivial, ⟨by decide, by decide⟩, show _ < _ by decide,
      show ∀ id : Fin 3, _ = 0 by decide, trivial, trivial, show _ < _ by decide, show 0 < _ by decide, trivial⟩
  exact resolvedTimestamp_runs oneIntent ⟨rfl, rfl, by decide⟩ evictedRun hallow

end ResolvedTimestamp

end Ratel.Rangefeed
