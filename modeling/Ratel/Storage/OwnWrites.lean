import Ratel.Storage.PutSpec
import Ratel.Storage.ScanPages

/- Reading one's own writes. A transaction writes a key at increasing sequence numbers,
   while the sequence numbers it has rolled back only grow; the last write is the
   provisional value of its intent and the earlier ones that still counted at the next
   write are in the intent's history. So whatever a later reader rolls back, the write
   with the highest sequence number that counts for it is there to be read
   (`Logged.keyOutcome_eq`), and without one the committed versions below are. -/
namespace Ratel.Storage

open Encoding Keys Lib List SequencedIntent

/-! Sequence numbers rolled back. -/

/-- A sequence number is in one of the ranges. -/
def SeqIgnored (ignored : List IgnoredSeqNumRange) (seq : TxnSeq) : Prop :=
  ∃ r ∈ ignored, r.start ≤ seq ∧ seq ≤ r.stop

def SortedRanges (ignored : List IgnoredSeqNumRange) : Prop :=
  ignored.Pairwise fun a b => a.stop < b.start

instance (ignored : List IgnoredSeqNumRange) : Decidable (SortedRanges ignored) :=
  inferInstanceAs (Decidable (ignored.Pairwise _))

variable {seq : TxnSeq} {ignored : List IgnoredSeqNumRange} {reader : Transaction}

theorem txnSeqIsIgnored_go_iff : ∀ {l : List IgnoredSeqNumRange},
    l.Pairwise (fun a b => b.stop < a.start) → (txnSeqIsIgnored.go seq l = true ↔ SeqIgnored l seq)
  | [], _ => by simp [txnSeqIsIgnored.go, SeqIgnored]
  | r :: l, h => by
    obtain ⟨hr, hl⟩ := pairwise_cons.mp h
    rw [txnSeqIsIgnored.go]
    split
    · rename_i hlt
      rw [txnSeqIsIgnored_go_iff hl]
      simp [SeqIgnored, hlt.not_ge]
    rename_i hle
    rw [decide_eq_true_iff]
    constructor
    · exact fun hstop => ⟨r, mem_cons_self, not_lt.mp hle, hstop⟩
    rintro ⟨r', hr', hstart, hstop⟩
    rcases mem_cons.mp hr' with rfl | hr'
    · exact hstop
    · exact absurd ((hr r' hr').trans_le (not_lt.mp hle)) (not_lt.mpr hstop)

theorem txnSeqIsIgnored_iff (h : SortedRanges ignored) :
    txnSeqIsIgnored seq ignored = true ↔ SeqIgnored ignored seq := by
  rw [txnSeqIsIgnored, txnSeqIsIgnored_go_iff (pairwise_reverse.mpr h)]
  simp [SeqIgnored]

/-! Reading below an intent. -/

section
variable {o : ScanOptions} {range : Option RangeKeyStack} {k : Bytes} {ks : KeyState}

variable (o range k) in
/-- Reading the newest of some versions at or below the read timestamp. -/
def versionsOutcome (versions : List (Timestamp × MVCCValue)) : Outcome :=
  readVersion o range k (versions.find? fun e => decide (e.1 ≤ o.ts))

/-- Just below an intent, or at the read timestamp if that is lower, a read finds the
    committed versions. -/
theorem atOrBelow_committed {m : MVCCMetadata} {v : MVCCValue} {older : List (Timestamp × MVCCValue)}
    (hhist : ks.history = (m.timestamp, v) :: older) (hpos : 0 < m.timestamp) (ts : Timestamp) :
    ks.atOrBelow (if m.timestamp ≤ ts then m.timestamp - 1 else ts) = older.find? fun e => decide (e.1 ≤ ts) := by
  have hdesc := ks.history_descending
  rw [hhist] at hdesc
  have hbelow := (pairwise_cons.mp hdesc).1
  unfold KeyState.atOrBelow
  rw [hhist]
  split
  · rename_i hle
    rw [find?_cons_of_neg (by simpa using Nat.sub_one_lt hpos.ne')]
    refine find?_congr fun e he => ?_
    have hlt := hbelow e he
    rw [decide_eq_true (hlt.le.trans hle), decide_eq_true (Nat.le_sub_one_of_lt hlt)]
  · rename_i hlt
    rw [find?_cons_of_neg (by simpa using hlt)]

/-- The provisional value of an intent is read at the intent's timestamp. -/
theorem readVersion_provisional {m : MVCCMetadata} {v : MVCCValue} {older : List (Timestamp × MVCCValue)}
    (hhist : ks.history = (m.timestamp, v) :: older) (hrange : ∀ s, range = some s → s.newest < m.timestamp)
    (hvalid : ∀ s, range = some s → s.Valid) :
    readVersion o range k (ks.atOrBelow m.timestamp) = .emit ⟨⟨k, m.timestamp⟩, v.rawBytes⟩ := by
  have hat : ks.atOrBelow m.timestamp = some (m.timestamp, v) := by simp [KeyState.atOrBelow, hhist]
  have hcov : coveredByRangeKey o range m.timestamp = none := by
    cases hc : coveredByRangeKey o range m.timestamp with
    | none => rfl
    | some rkv =>
      obtain ⟨⟨s, hs, hmem⟩, hle⟩ := covered_spec hc
      have hnewest : rkv.timestamp ≤ s.newest := RangeKeyStack.le_newest (hvalid s hs) hmem
      exact absurd (hrange s hs) (not_lt.mpr (hle.1.trans hnewest))
  simp [hat, readVersion, hcov]

end

/-! The history of an intent. -/

/-- In a list sorted by rank, a prefix with low ranks is all of them. -/
theorem takeWhile_eq_filter {α : Type} {rank : α → TxnSeq} {bound : TxnSeq} : ∀ {l : List α},
    l.Pairwise (fun a b => rank a < rank b) →
    l.takeWhile (fun a => decide (rank a ≤ bound)) = l.filter fun a => decide (rank a ≤ bound)
  | [], _ => rfl
  | a :: l, h => by
    obtain ⟨ha, hl⟩ := pairwise_cons.mp h
    by_cases hle : rank a ≤ bound
    · simp [hle, takeWhile_eq_filter hl]
    have hnone : l.filter (fun a => decide (rank a ≤ bound)) = [] := by
      refine filter_eq_nil_iff.mpr fun b hb => ?_
      rw [decide_eq_true_eq]
      exact not_le.mpr ((not_le.mp hle).trans (ha b hb))
    simp [hle, hnone]

/-- In a list sorted by rank, the last element with a property is the highest. -/
theorem find?_reverse_of_highest {α : Type} {rank : α → TxnSeq} {p : α → Bool} {l : List α} {a : α}
    (hsorted : l.Pairwise fun a b => rank a < rank b) (ha : a ∈ l) (hp : p a = true)
    (hhighest : ∀ b ∈ l, p b = true → rank b ≤ rank a) : l.reverse.find? p = some a := by
  cases hlast : l.reverse.find? p with
  | none => exact absurd hp (find?_eq_none.mp hlast a (mem_reverse.mpr ha))
  | some b =>
    obtain ⟨hb, later, earlier, hl, hlater⟩ := find?_eq_some_iff_append.mp hlast
    have hdesc : (later ++ b :: earlier).Pairwise fun a b => rank b < rank a := hl ▸ pairwise_reverse.mpr hsorted
    have hmem : ∀ {x}, x ∈ l ↔ x ∈ later ++ b :: earlier := by
      intro x
      rw [← hl, mem_reverse]
    rcases mem_append.mp (hmem.mp ha) with ha | ha
    · simpa [hp] using hlater a ha
    rcases mem_cons.mp ha with heq | ha
    · rw [heq]
    · have hlt := (pairwise_cons.mp (pairwise_append.mp hdesc).2.1).1 a ha
      exact absurd (hhighest b (hmem.mpr (by simp)) hb) (not_le.mpr hlt)

def counts (reader : Transaction) (seq : TxnSeq) : Bool :=
  decide (seq ≤ reader.sequence) && !txnSeqIsIgnored seq reader.ignoredSeqNums

theorem getFromIntentHistory_eq {m : MVCCMetadata}
    (hsorted : m.intentHistory.Pairwise fun a b => a.sequence < b.sequence) :
    getFromIntentHistory m reader =
      (m.intentHistory.reverse.find? fun w => counts reader w.sequence).map (·.value) := by
  have htake : m.intentHistory.take (m.intentHistory.findIdx fun w => decide (reader.sequence < w.sequence)) =
      m.intentHistory.filter fun w => decide (w.sequence ≤ reader.sequence) := by
    rw [← takeWhile_eq_filter hsorted, takeWhile_eq_take_findIdx_not]
    simp [← decide_not]
  simp only [getFromIntentHistory, htake, ← filter_reverse, find?_filter, counts, Bool.decide_and, Bool.decide_eq_true]

/-! Runs of writes. -/

structure TxnWrite where
  txn : Transaction
  value : Bytes
  valueFn : Option ValueFn
  localTimestamp : Timestamp
  writeLocalTimestamps : Bool
  replayWriteTimestampProtection : Bool

def TxnWrite.opts (w : TxnWrite) : WriteOptions :=
  ⟨some w.txn, w.localTimestamp, w.writeLocalTimestamps, w.replayWriteTimestampProtection⟩

/-- An engine and the writes made so far: their sequence numbers and the values they left. -/
structure Session where
  engine : Engine
  log : List (TxnSeq × Bytes)

/-- Request a write to a key. A write that fails changes nothing. -/
def Session.write (sz : Sizes) (k : Bytes) (st : Session) (w : TxnWrite) : Session :=
  match mvccPutInternal sz (st.engine.ranges.at? k) k (st.engine.nextKey k) (st.engine.keyState k) w.txn.readTimestamp
    w.value w.valueFn w.opts .zero with
  | .error _ => st
  | .ok r => ⟨st.engine.setKey k r.state,
      st.log ++ [(w.txn.sequence, (r.state.history.head?.map (·.2.rawBytes)).getD [])]⟩

def Session.run (sz : Sizes) (k : Bytes) (st : Session) (writes : List TxnWrite) : Session :=
  writes.foldl (Session.write sz k) st

/-! What a run keeps. -/

/-- The sequence numbers of one list that are rolled back are in the other too. -/
def Grows (ignored ignored' : List IgnoredSeqNumRange) : Prop :=
  ∀ seq, txnSeqIsIgnored seq ignored = true → txnSeqIsIgnored seq ignored' = true

theorem Grows.nil (ignored : List IgnoredSeqNumRange) : Grows [] ignored := by
  intro seq h
  simp [txnSeqIsIgnored, txnSeqIsIgnored.go] at h

def SequencedIntent.pair (w : SequencedIntent) : TxnSeq × Bytes := (w.sequence, w.value.rawBytes)

/-- The writes of a list that are not rolled back. -/
def live (ignored : List IgnoredSeqNumRange) (log : List (TxnSeq × Bytes)) : List (TxnSeq × Bytes) :=
  log.filter fun w => !txnSeqIsIgnored w.1 ignored

theorem live_append (ignored : List IgnoredSeqNumRange) (log log' : List (TxnSeq × Bytes)) :
    live ignored (log ++ log') = live ignored log ++ live ignored log' := filter_append ..

theorem live_live {ignored' : List IgnoredSeqNumRange} (h : Grows ignored ignored')
    (log : List (TxnSeq × Bytes)) : live ignored' (live ignored log) = live ignored' log := by
  unfold live
  rw [filter_filter]
  refine filter_congr fun w _ => ?_
  cases h' : txnSeqIsIgnored w.1 ignored' with
  | true => rfl
  | false =>
    cases hw : txnSeqIsIgnored w.1 ignored with
    | false => rfl
    | true => simp [h w.1 hw] at h'

def lastCounting (reader : Transaction) (log : List (TxnSeq × Bytes)) : Option (TxnSeq × Bytes) :=
  log.reverse.find? fun w => counts reader w.1

theorem lastCounting_live (h : Grows ignored reader.ignoredSeqNums) (log : List (TxnSeq × Bytes)) :
    lastCounting reader (live ignored log) = lastCounting reader log := by
  unfold lastCounting live
  rw [← filter_reverse, find?_filter]
  refine find?_congr fun w _ => ?_
  cases hw : txnSeqIsIgnored w.1 ignored with
  | false => simp
  | true => simp [counts, h w.1 hw]

/-- The intent on top of a key: its history and provisional value are the writes of the
    log, less some of the earlier ones that are rolled back. -/
structure Holding (id epoch : Nat) (ignored : List IgnoredSeqNumRange) (ks : KeyState) (past : List (TxnSeq × Bytes))
    (last : TxnSeq × Bytes) (m : MVCCMetadata) (t : TxnMeta) : Prop where
  metadata : ks.metadata = some m
  versioned : m.rawBytes = []
  txn : m.txn = some t
  id : t.id = id
  epoch : t.epoch = epoch
  sequence : t.sequence = last.1
  newest : ∃ v, ks.history = (m.timestamp, v) :: ks.committed ∧ v.rawBytes = last.2
  sorted : m.intentHistory.Pairwise fun a b => a.sequence < b.sequence
  earlier : ∀ w ∈ m.intentHistory, w.sequence < t.sequence
  past : live ignored (m.intentHistory.map pair) = live ignored past

/-- Before the first write of an epoch, or holding the writes made in it. -/
inductive Logged (id epoch : Nat) (ignored : List IgnoredSeqNumRange) (start : KeyState) :
    KeyState → List (TxnSeq × Bytes) → Prop
  | start : Logged id epoch ignored start start []
  | wrote {ks : KeyState} {past : List (TxnSeq × Bytes)} {last : TxnSeq × Bytes} {m : MVCCMetadata} {t : TxnMeta}
      (hcommitted : ks.committed = start.committed) (h : Holding id epoch ignored ks past last m t) :
      Logged id epoch ignored start ks (past ++ [last])

/-- A key as a transaction may find it at the start of an epoch: without an intent, or with
    its own of an earlier epoch. -/
def Startable (id epoch : Nat) (ks : KeyState) : Prop :=
  ∀ m, ks.metadata = some m → m.rawBytes = [] ∧ ∃ t, m.txn = some t ∧ t.id = id ∧ t.epoch < epoch

section
variable {sz : Sizes} {range : Option RangeKeyStack} {k : Bytes} {next : NextKey} {id epoch : Nat}
  {ignored : List IgnoredSeqNumRange} {start ks : KeyState} {log : List (TxnSeq × Bytes)}

theorem Holding.grow {past : List (TxnSeq × Bytes)} {last : TxnSeq × Bytes} {m : MVCCMetadata} {t : TxnMeta}
    {ignored' : List IgnoredSeqNumRange} (hgrows : Grows ignored ignored')
    (h : Holding id epoch ignored ks past last m t) : Holding id epoch ignored' ks past last m t :=
  { h with past := by rw [← live_live hgrows, h.past, live_live hgrows] }

/-- A failed write is as if only the list of rolled back sequence numbers had grown. -/
theorem Logged.grow {ignored' : List IgnoredSeqNumRange} (hgrows : Grows ignored ignored')
    (h : Logged id epoch ignored start ks log) : Logged id epoch ignored' start ks log := by
  cases h with
  | start => exact .start
  | wrote hcommitted h => exact .wrote hcommitted (h.grow hgrows)

theorem live_singleton (ignored : List IgnoredSeqNumRange) (w : TxnSeq × Bytes) :
    live ignored [w] = if txnSeqIsIgnored w.1 ignored then [] else [w] := by
  cases h : txnSeqIsIgnored w.1 ignored <;> simp [live, h]

/-- When no earlier write is found, all of the history is rolled back. -/
theorem live_of_getPrevIntentSeq {m : MVCCMetadata} {seq : TxnSeq} (hlt : ∀ w ∈ m.intentHistory, w.sequence < seq)
    (h : m.getPrevIntentSeq seq ignored = none) : live ignored (m.intentHistory.map pair) = [] := by
  have hall : m.intentHistory.findIdx (fun w => decide (seq ≤ w.sequence)) = m.intentHistory.length :=
    findIdx_eq_length.mpr fun w hw => by simpa using hlt w hw
  simp only [MVCCMetadata.getPrevIntentSeq, hall, take_length, find?_eq_none, mem_reverse] at h
  refine filter_eq_nil_iff.mpr fun w hw => ?_
  obtain ⟨w', hw', rfl⟩ := mem_map.mp hw
  exact h w' hw'

section
variable {past : List (TxnSeq × Bytes)} {last : TxnSeq × Bytes} {m : MVCCMetadata} {t : TxnMeta} {txn : Transaction}
  {history : List SequencedIntent}

theorem HistoryKept.eq_nil (h : HistoryKept ks m t txn history) (hne : txn.epoch ≠ t.epoch) : history = [] := by
  cases h with
  | otherEpoch _ => rfl
  | added heq => exact absurd heq hne
  | kept heq => exact absurd heq hne
  | dropped heq => rfl

/-- The history that the next write of the epoch leaves. -/
theorem Holding.history_next (h : Holding id epoch ignored ks past last m t) (hkept : HistoryKept ks m t txn history)
    (hepoch : txn.epoch = epoch) (hgrows : Grows ignored txn.ignoredSeqNums) (hinc : last.1 < txn.sequence) :
    (history.Pairwise fun a b => a.sequence < b.sequence) ∧ (∀ w ∈ history, w.sequence < txn.sequence) ∧
      live txn.ignoredSeqNums (history.map pair) = live txn.ignoredSeqNums (past ++ [last]) := by
  have hpast := (h.grow hgrows).past
  have hlt : ∀ w ∈ m.intentHistory, w.sequence < txn.sequence := fun w hw =>
    (h.earlier w hw).trans (h.sequence ▸ hinc)
  cases hkept with
  | otherEpoch hne => exact absurd (hepoch.trans h.epoch.symm) hne
  | @added v _ hlive hv =>
    obtain ⟨v', hhist, hv'⟩ := h.newest
    have heq : v = v' := by
      rw [KeyState.version_eq_some_iff.mpr (by simp [hhist] : (m.timestamp, v') ∈ ks.history)] at hv
      exact (Option.some.inj hv).symm
    have hpair : pair ⟨t.sequence, v⟩ = last := by
      rw [pair, h.sequence, heq, hv']
    refine ⟨pairwise_append.mpr ⟨h.sorted, pairwise_singleton _ _, fun a ha => forall_mem_singleton.mpr (h.earlier a ha)⟩,
      forall_mem_append.mpr ⟨hlt, forall_mem_singleton.mpr (h.sequence ▸ hinc)⟩, ?_⟩
    rw [map_append, map_singleton, hpair, live_append, live_append, hpast]
  | kept _ hignored =>
    refine ⟨h.sorted, hlt, ?_⟩
    rw [live_append, live_singleton, ← h.sequence, if_pos hignored, append_nil, hpast]
  | dropped _ hignored hnone =>
    refine ⟨.nil, by simp, ?_⟩
    rw [live_append, live_singleton, ← h.sequence, if_pos hignored, append_nil, ← hpast,
      live_of_getPrevIntentSeq hlt hnone]
    rfl

theorem Logged.eq_nil_of_metadata (h : Logged id epoch ignored start ks log) (hm : ks.metadata = none) : log = [] := by
  cases h with
  | start => rfl
  | wrote _ h =>
    rw [h.metadata] at hm
    cases hm

theorem Logged.committed_eq (h : Logged id epoch ignored start ks log) : ks.committed = start.committed := by
  cases h with
  | start => rfl
  | wrote hcommitted _ => exact hcommitted

variable (hstart : Startable id epoch start) (h : Logged id epoch ignored start ks log)

include hstart h

/-- An intent that a put of the transaction finds. -/
theorem Logged.of_metadata (hm : ks.metadata = some m) (ht : m.txn = some t) :
    (log = [] ∧ t.epoch < epoch) ∨ ∃ past last, log = past ++ [last] ∧ Holding id epoch ignored ks past last m t := by
  cases h with
  | start =>
    obtain ⟨_, t', ht', _, hlt⟩ := hstart m hm
    rw [ht] at ht'
    cases ht'
    exact .inl ⟨rfl, hlt⟩
  | @wrote _ past last m' t' hcommitted h =>
    have hm' := h.metadata
    rw [hm] at hm'
    cases hm'
    have ht' := h.txn
    rw [ht] at ht'
    cases ht'
    exact .inr ⟨past, last, rfl, h⟩

/-- The history a put leaves to its intent, given the writes logged so far. -/
theorem PutTarget.history_next {opts : WriteOptions} {p : Pending} (hp : PutTarget sz range k next ks opts p)
    (htxn : opts.txn = some txn) (hepoch : txn.epoch = epoch) (hgrows : Grows ignored txn.ignoredSeqNums)
    (hinc : ∀ w ∈ log, w.1 < txn.sequence) :
    (p.intentHistory.Pairwise fun a b => a.sequence < b.sequence) ∧ (∀ w ∈ p.intentHistory, w.sequence < txn.sequence) ∧
      live txn.ignoredSeqNums (p.intentHistory.map pair) = live txn.ignoredSeqNums log := by
  cases hp with
  | versions hm _ _ _ hnil =>
    -- A key without an intent is one that nothing has been written to.
    rw [h.eq_nil_of_metadata hm, hnil]
    exact ⟨.nil, by simp, rfl⟩
  | intent hm _ ht htxn' _ _ _ _ hp =>
    rw [htxn] at htxn'
    cases htxn'
    rcases h.of_metadata hstart hm ht with ⟨rfl, hlt⟩ | ⟨past, last, rfl, hold⟩
    · -- The intent of an earlier epoch leaves nothing.
      rw [hp.history.eq_nil (by rw [hepoch]; exact hlt.ne')]
      exact ⟨.nil, by simp, rfl⟩
    · exact hold.history_next hp.history hepoch hgrows (hinc last (by simp))

/-- The next write of the epoch is not taken for a replay of the intent on the key. -/
theorem Logged.not_replay (hm : ks.metadata = some m) (ht : m.txn = some t) (hepoch : txn.epoch = epoch)
    (hinc : ∀ w ∈ log, w.1 < txn.sequence) : ¬ (txn.epoch = t.epoch ∧ txn.sequence ≤ t.sequence) := by
  rintro ⟨heq, hle⟩
  rcases h.of_metadata hstart hm ht with ⟨_, hlt⟩ | ⟨past, last, rfl, hold⟩
  · rw [← heq, hepoch] at hlt
    exact absurd hlt (lt_irrefl _)
  have hlt := hinc last (by simp)
  rw [← hold.sequence] at hlt
  exact absurd hle (not_le.mpr hlt)

/-- A write within the epoch adds to the log. -/
theorem Logged.put (hs : ks.Sound range) (hvalid : ∀ s, range = some s → s.Valid)
    {w : TxnWrite} {ms : MVCCStats} {r : PutResult}
    (hid : w.txn.id = id) (hepoch : w.txn.epoch = epoch) (hgrows : Grows ignored w.txn.ignoredSeqNums)
    (hinc : ∀ w' ∈ log, w'.1 < w.txn.sequence)
    (hput : mvccPutInternal sz range k next ks w.txn.readTimestamp w.value w.valueFn w.opts ms = .ok r) :
    r.state.Sound range ∧ Logged id epoch w.txn.ignoredSeqNums start r.state
      (log ++ [(w.txn.sequence, (r.state.history.head?.map (·.2.rawBytes)).getD [])]) := by
  cases mvccPutInternal_cases hput with
  | inline hts hfound hput => simp [putInline, TxnWrite.opts, putErrorf] at hput
  | replay hf ht htxn hreplay =>
    cases htxn
    exact absurd hreplay (h.not_replay hstart (metadata_of_found_txn hvalid hf ht) ht hepoch hinc)
  | @writes p _ hts hfound hread hp hr =>
    have htarget := hp.target hs hvalid hfound hts (le_writeTimestamp hread)
    have hwritten := htarget.written hr
    refine ⟨hwritten.sound hs, ?_⟩
    have hmeta : r.state.metadata = some
        (putMetadata sz p ((mvccGetMetadata sz range k ks).bind (·.metadata.txn)).isSome w.opts) := hwritten.metadata
    have hcommitted : r.state.committed = ks.committed := by
      simp [KeyState.committed, hmeta, hwritten.history]
    obtain ⟨hsorted, hearlier, hpast⟩ := htarget.history_next hstart h rfl hepoch hgrows hinc
    have hnewest : ∃ v, r.state.history = (p.writeTimestamp, v) :: r.state.committed ∧
        v.rawBytes = (r.state.history.head?.map (·.2.rawBytes)).getD [] := by
      rw [hcommitted, hwritten.history]
      exact ⟨_, rfl, rfl⟩
    exact .wrote (hcommitted.trans h.committed_eq)
      ⟨hmeta, rfl, rfl, hid, hepoch, rfl, hnewest, hsorted, hearlier, hpast⟩

/-- What a reader of the transaction finds: the last write of the log that counts for it,
    or else the newest committed version. -/
theorem Logged.keyOutcome_eq (hs : ks.Sound range) (hvalid : ∀ s, range = some s → s.Valid) {o : ScanOptions}
    {reader : Transaction} (hreader : o.txn = some reader) (hid : reader.id = id) (hepoch : reader.epoch = epoch)
    (hgrows : Grows ignored reader.ignoredSeqNums) :
    ∃ ts, keyOutcome o range k ks = match lastCounting reader log with
      | some w => .emit ⟨⟨k, ts⟩, w.2⟩
      | none => versionsOutcome o range k start.committed := by
  cases h with
  | start =>
    refine ⟨0, ?_⟩
    cases hm : start.metadata with
    | none => simp [keyOutcome, hm, recordOutcome, lastCounting, versionsOutcome, KeyState.committed, KeyState.atOrBelow]
    | some m =>
      obtain ⟨hraw, t, ht, htid, hlt⟩ := hstart m hm
      obtain ⟨_, v, older, _, hhist, _⟩ := hs.intent m hm hraw
      have hpos : 0 < m.timestamp := hs.positive (m.timestamp, v) (by simp [hhist])
      have hown : t.id = reader.id := htid.trans hid.symm
      have hne : reader.epoch ≠ t.epoch := by omega
      have hnlt : ¬ reader.epoch < t.epoch := by omega
      simp only [keyOutcome, hm, recordOutcome, metadataOutcome, hraw, ne_eq, not_true_eq_false, if_false, ht, hreader,
        hown, if_true, ownIntentOutcome, hne, hnlt, atOrBelow_committed hhist hpos, lastCounting, reverse_nil,
        find?_nil, versionsOutcome, KeyState.committed, hhist, tail_cons]
  | @wrote _ past last m t hcommitted h =>
    refine ⟨m.timestamp, ?_⟩
    obtain ⟨v, hhist, hlast⟩ := h.newest
    obtain ⟨_, _, _, _, hhist', hrange⟩ := hs.intent m h.metadata h.versioned
    have hpos : 0 < m.timestamp := hs.positive (m.timestamp, v) (by simp [hhist])
    have hown : t.id = reader.id := h.id.trans hid.symm
    have hsame : reader.epoch = t.epoch := hepoch.trans h.epoch.symm
    simp only [keyOutcome, h.metadata, recordOutcome, metadataOutcome, h.versioned, ne_eq, not_true_eq_false, if_false,
      h.txn, hreader, hown, if_true, ownIntentOutcome, hsame]
    by_cases hcounts : counts reader last.1 = true
    · -- The provisional value counts.
      have hsplit : t.sequence ≤ reader.sequence ∧ ¬ txnSeqIsIgnored t.sequence reader.ignoredSeqNums = true := by
        simpa [counts, h.sequence] using hcounts
      have hfind : lastCounting reader (past ++ [last]) = some last := by simp [lastCounting, hcounts]
      rw [if_pos hsplit, hfind, readVersion_provisional hhist hrange hvalid, hlast]
    have hsplit : ¬ (t.sequence ≤ reader.sequence ∧ ¬ txnSeqIsIgnored t.sequence reader.ignoredSeqNums = true) := by
      simpa [counts, h.sequence] using hcounts
    have hfind : lastCounting reader (past ++ [last]) = lastCounting reader (m.intentHistory.map pair) := by
      rw [← lastCounting_live hgrows (m.intentHistory.map _), h.past, lastCounting_live hgrows]
      simp [lastCounting, hcounts]
    rw [if_neg hsplit, hfind, getFromIntentHistory_eq h.sorted, lastCounting, ← map_reverse, find?_map]
    simp only [Function.comp_def, pair]
    cases m.intentHistory.reverse.find? fun w => counts reader w.sequence with
    | some w => rfl
    | none =>
      simp only [Option.map_none, versionsOutcome, ← hcommitted, atOrBelow_committed hhist hpos]

/-- A write that is made was not refused by the seek below its intent. -/
theorem Logged.not_seekFails (hs : ks.Sound range) (hvalid : ∀ s, range = some s → s.Valid) {w : TxnWrite} {ms : MVCCStats}
    {r : PutResult} (hepoch : w.txn.epoch = epoch) (hinc : ∀ w' ∈ log, w'.1 < w.txn.sequence)
    (hput : mvccPutInternal sz range k next ks w.txn.readTimestamp w.value w.valueFn w.opts ms = .ok r) :
    ¬ SeekFails w.txn next ks := by
  cases mvccPutInternal_cases hput with
  | inline hts hfound hput => simp [putInline, TxnWrite.opts, putErrorf] at hput
  | replay hf ht htxn hreplay =>
    cases htxn
    exact absurd hreplay (h.not_replay hstart (metadata_of_found_txn hvalid hf ht) ht hepoch hinc)
  | writes hts hfound hread hp hr =>
    cases hp.target hs hvalid hfound hts (le_writeTimestamp hread) with
    | versions hm => simp [SeekFails, hm]
    | intent hm _ _ htxn _ _ _ _ hp =>
      cases htxn
      obtain ⟨prev, hprev, _⟩ := hp.prev
      exact (prevOfMoved_ok_iff range k hm).mp ⟨prev, hprev⟩

/-- The intent on the key is one that the next write of the epoch overwrites. -/
theorem Logged.overwritable (hid : txn.id = id) (hepoch : txn.epoch = epoch) (hinc : ∀ w ∈ log, w.1 < txn.sequence) :
    Overwritable txn ks := by
  intro m hm
  cases h with
  | start =>
    obtain ⟨hraw, t, ht, htid, hlt⟩ := hstart m hm
    exact ⟨hraw, t, ht, htid.trans hid.symm, .inl (hepoch ▸ hlt)⟩
  | @wrote _ past last m' t _ h =>
    have hm' := h.metadata
    rw [hm] at hm'
    cases hm'
    exact ⟨h.versioned, t, h.txn, h.id.trans hid.symm,
      .inr ⟨h.epoch.trans hepoch.symm, h.sequence ▸ hinc last (by simp)⟩⟩

end

end

/-! Whole runs. -/

/-- The writes of one epoch of a transaction: at increasing sequence numbers, with sorted
    lists of rolled back ones that only grow. -/
structure Epoch (id epoch : Nat) (writes : List TxnWrite) : Prop where
  own : ∀ w ∈ writes, w.txn.id = id ∧ w.txn.epoch = epoch
  sorted : ∀ w ∈ writes, SortedRanges w.txn.ignoredSeqNums
  increasing : writes.Pairwise fun a b => a.txn.sequence < b.txn.sequence
  growing : writes.Pairwise fun a b => ∀ seq, SeqIgnored a.txn.ignoredSeqNums seq → SeqIgnored b.txn.ignoredSeqNums seq

theorem grows_of_sorted {ignored' : List IgnoredSeqNumRange} (h : SortedRanges ignored)
    (h' : SortedRanges ignored') (hsub : ∀ seq, SeqIgnored ignored seq → SeqIgnored ignored' seq) :
    Grows ignored ignored' := fun seq hseq =>
  (txnSeqIsIgnored_iff h').mpr (hsub seq ((txnSeqIsIgnored_iff h).mp hseq))

/-- The writes of an epoch after the first. -/
theorem Epoch.tail {id epoch : Nat} {w : TxnWrite} {writes : List TxnWrite} (h : Epoch id epoch (w :: writes)) :
    Epoch id epoch writes ∧ ∀ w' ∈ writes, w.txn.sequence < w'.txn.sequence ∧
      Grows w.txn.ignoredSeqNums w'.txn.ignoredSeqNums := by
  obtain ⟨hincreasing, hincreasing'⟩ := pairwise_cons.mp h.increasing
  obtain ⟨hgrowing, hgrowing'⟩ := pairwise_cons.mp h.growing
  have hmem : ∀ {w'}, w' ∈ writes → w' ∈ w :: writes := mem_cons_of_mem _
  refine ⟨⟨fun w' hw' => h.own w' (hmem hw'), fun w' hw' => h.sorted w' (hmem hw'), hincreasing', hgrowing'⟩,
    fun w' hw' => ⟨hincreasing w' hw', ?_⟩⟩
  exact grows_of_sorted (h.sorted w mem_cons_self) (h.sorted w' (hmem hw')) (hgrowing w' hw')

section
variable {sz : Sizes} {k : Bytes} {id epoch : Nat} {start : KeyState} {ranges : RangeKeys}
  {ignored : List IgnoredSeqNumRange} {st : Session} {w : TxnWrite} {writes : List TxnWrite}

/-- The seek below the intent on the key refuses a write. -/
def Session.SeekFails (k : Bytes) (st : Session) (w : TxnWrite) : Prop :=
  Storage.SeekFails w.txn (st.engine.nextKey k) (st.engine.keyState k)

/-- The writes to a key leave the next key alone. -/
theorem Session.run_nextKey (sz : Sizes) (k : Bytes) (st : Session) (writes : List TxnWrite) :
    (st.run sz k writes).engine.nextKey k = st.engine.nextKey k := by
  induction writes generalizing st with
  | nil => rfl
  | cons w writes ih =>
    have hwrite : (st.write sz k w).engine.nextKey k = st.engine.nextKey k := by
      unfold Session.write
      split
      · rfl
      · simp [Engine.nextKey, Engine.keyState_setKey_of_ne]
    exact (ih _).trans hwrite

/-- A write logs at most one value. -/
theorem Session.run_log_length (sz : Sizes) (k : Bytes) (st : Session) (writes : List TxnWrite) :
    (st.run sz k writes).log.length ≤ st.log.length + writes.length := by
  induction writes generalizing st with
  | nil => exact le_rfl
  | cons w writes ih =>
    have hwrite : (st.write sz k w).log.length ≤ st.log.length + 1 := by
      unfold Session.write
      split <;> simp
    have hrest := ih (st.write sz k w)
    simp only [Session.run, foldl_cons, length_cons] at hrest ⊢
    omega

/-- A session of an epoch: the engine is consistent and its key holds the log. -/
structure Session.Ok (k : Bytes) (id epoch : Nat) (start : KeyState) (ranges : RangeKeys)
    (ignored : List IgnoredSeqNumRange) (st : Session) : Prop where
  consistent : st.engine.Consistent
  ranges : st.engine.ranges = ranges
  logged : Logged id epoch ignored start (st.engine.keyState k) st.log
  sorted : st.log.Pairwise fun a b => a.1 < b.1

/-- A write may follow a session. -/
structure Session.Before (ignored : List IgnoredSeqNumRange) (st : Session) (w : TxnWrite) : Prop where
  grows : Grows ignored w.txn.ignoredSeqNums
  later : ∀ l ∈ st.log, l.1 < w.txn.sequence

variable (sz k) in
/-- What may follow the first write of an epoch and the rest may follow the rest. -/
theorem Session.Before.write (hepoch : Epoch id epoch (w :: writes)) (h : ∀ w' ∈ w :: writes, st.Before ignored w') :
    ∀ w' ∈ writes, (st.write sz k w).Before w.txn.ignoredSeqNums w' := by
  intro w' hw'
  obtain ⟨hlt, hgrows⟩ := hepoch.tail.2 w' hw'
  refine ⟨hgrows, ?_⟩
  have hlater := (h w' (mem_cons_of_mem _ hw')).later
  unfold Session.write
  split
  · exact hlater
  · exact forall_mem_append.mpr ⟨hlater, forall_mem_singleton.mpr hlt⟩

variable (hstart : Startable id epoch start)

include hstart

variable (sz) in
theorem Session.Ok.write (h : st.Ok k id epoch start ranges ignored)
    (hown : w.txn.id = id ∧ w.txn.epoch = epoch) (hw : st.Before ignored w) :
    (st.write sz k w).Ok k id epoch start ranges w.txn.ignoredSeqNums := by
  unfold Session.write
  have hs := h.consistent.sound_keyState k
  split
  · exact ⟨h.consistent, h.ranges, h.logged.grow hw.grows, h.sorted⟩
  rename_i r hput
  have hk : k ≠ [] := by
    rintro rfl
    simp [mvccPutInternal, putErrorf] at hput
  obtain ⟨hsound, hlogged⟩ := h.logged.put hstart hs (fun _ => st.engine.valid_range) hown.1 hown.2 hw.grows hw.later
    hput
  refine ⟨h.consistent.setKey hk hsound, h.ranges, ?_, ?_⟩
  · rw [Engine.keyState_setKey]
    exact hlogged
  · exact pairwise_append.mpr ⟨h.sorted, pairwise_singleton _ _, fun a ha => forall_mem_singleton.mpr (hw.later a ha)⟩

variable (sz) in
theorem Session.Ok.run {reader : List IgnoredSeqNumRange} :
    ∀ {writes : List TxnWrite} {ignored : List IgnoredSeqNumRange} {st : Session}, Epoch id epoch writes →
    st.Ok k id epoch start ranges ignored → Grows ignored reader → (∀ w ∈ writes, Grows w.txn.ignoredSeqNums reader) →
    (∀ w ∈ writes, st.Before ignored w) → (st.run sz k writes).Ok k id epoch start ranges reader
  | [], _, _, _, h, hreader, _, _ => ⟨h.consistent, h.ranges, h.logged.grow hreader, h.sorted⟩
  | w :: writes, ignored, st, hepoch, h, hreader, hgrows, hbefore => by
    have hstep := h.write sz hstart (hepoch.own w mem_cons_self) (hbefore w mem_cons_self)
    show ((st.write sz k w).run sz k writes).Ok k id epoch start ranges reader
    exact Session.Ok.run hepoch.tail.1 hstep (hgrows w mem_cons_self)
      (forall_mem_cons.mp hgrows).2 (Session.Before.write sz k hepoch hbefore)

/-- A plain write is logged unless the seek refuses it. -/
theorem Session.Ok.write_log (hk : k ≠ []) (h : st.Ok k id epoch start ranges ignored)
    (hown : w.txn.id = id ∧ w.txn.epoch = epoch)
    (hw : st.Before ignored w) (hplain : w.valueFn = none) (hts : w.txn.readTimestamp ≠ 0)
    (hseek : ¬ st.SeekFails k w) : (st.write sz k w).log = st.log ++ [(w.txn.sequence, w.value)] := by
  have hput : ∃ r, mvccPutInternal sz (st.engine.ranges.at? k) k (st.engine.nextKey k) (st.engine.keyState k)
      w.txn.readTimestamp w.value none w.opts .zero = .ok r ∧
      (r.state.history.head?.map (·.2.rawBytes)).getD [] = w.value :=
    mvccPutInternal_succeeds (h.consistent.sound_keyState k) (fun _ => st.engine.valid_range) hk rfl hts
      (h.logged.overwritable hstart hown.1 hown.2 hw.later) hseek
  obtain ⟨r, hput, hvalue⟩ := hput
  simp only [Session.write, hplain, hput, hvalue]

variable (sz) in
theorem Session.Ok.write_of_seekFails (h : st.Ok k id epoch start ranges ignored) (hepoch : w.txn.epoch = epoch)
    (hw : st.Before ignored w) (hseek : st.SeekFails k w) : st.write sz k w = st := by
  unfold Session.write
  split
  · rfl
  rename_i r hput
  exact absurd hseek (h.logged.not_seekFails hstart (h.consistent.sound_keyState k) (fun _ => st.engine.valid_range)
    hepoch hw.later hput)

/-- Plain writes are all made, and the log is their list, unless the seek refuses one. -/
theorem Session.Ok.run_log (hk : k ≠ []) :
    ∀ {writes : List TxnWrite} {ignored : List IgnoredSeqNumRange} {st : Session}, Epoch id epoch writes →
    st.Ok k id epoch start ranges ignored → (∀ w ∈ writes, st.Before ignored w) →
    (∀ w ∈ writes, w.valueFn = none ∧ w.txn.readTimestamp ≠ 0) →
    ((st.run sz k writes).log = st.log ++ writes.map (fun w => (w.txn.sequence, w.value)) ↔
      ∀ before w after, writes = before ++ w :: after → ¬ (st.run sz k before).SeekFails k w)
  | [], _, st, _, _, _, _ => by simp [Session.run]
  | w :: writes, ignored, st, hepoch, h, hbefore, hplain => by
    have hown := hepoch.own w mem_cons_self
    have hw := hbefore w mem_cons_self
    obtain ⟨hfn, hts⟩ := hplain w mem_cons_self
    show ((st.write sz k w).run sz k writes).log = _ ↔ _
    by_cases hseek : st.SeekFails k w
    · -- The write is lost, and the rest cannot make up for it.
      refine iff_of_false (fun heq => ?_) fun hall => hall [] w writes rfl hseek
      have hlen := Session.run_log_length sz k (st.write sz k w) writes
      rw [heq, h.write_of_seekFails sz hstart hown.2 hw hseek] at hlen
      simp at hlen
    have ih := Session.Ok.run_log hk hepoch.tail.1 (h.write sz hstart hown hw)
      (Session.Before.write sz k hepoch hbefore) (forall_mem_cons.mp hplain).2
    rw [h.write_log hstart hk hown hw hfn hts hseek, append_assoc] at ih
    refine ih.trans ⟨fun hall before w' after heq => ?_, fun hall before w' after heq => ?_⟩
    · cases before with
      | nil =>
        cases heq
        exact hseek
      | cons _ before =>
        cases heq
        exact hall before w' after rfl
    · exact hall (w :: before) w' after (by rw [heq, cons_append])

end

/-! Reading a key. -/

theorem mvccScan_single {o : ScanOptions} {e : Engine} {k : Bytes} (he : e.Consistent) (ho : o.Unlimited)
    (hstart : o.start = k) (hstop : o.stop = k ++ [0]) (parent : Cursor MVCCKey) (changed : Bool) {iters : Nat}
    (hiters : iters ≤ o.maxItersBeforeSeek) (hok : (e.outcome o k).failed = false)
    (hnone : (e.outcome o k).conflicts k = []) :
    mvccScan o e parent changed iters = .ok ⟨(e.outcome o k).pairs o, none, none, 0⟩ := by
  have hmem : ∀ k', k' ∈ e.userKeys o → k' = k := by
    intro k' hk'
    have hb := (mem_userKeys.mp hk').1
    rw [hstart, hstop, lt_append_zero_iff] at hb
    exact le_antisymm hb.2 hb.1
  have hkeys : e.userKeys o = [k] ∨ e.userKeys o = [] ∧ e.outcome o k = .skip := by
    cases hget : e.keys.get k with
    | none =>
      refine .inr ⟨eq_nil_iff_forall_not_mem.mpr fun k' hk' => ?_, by rw [Engine.outcome, Engine.keyState, hget]; rfl⟩
      obtain ⟨_, ks, hks⟩ := mem_userKeys.mp hk'
      rw [hmem k' hk', hget] at hks
      cases hks
    | some ks =>
      have hk : k ∈ e.userKeys o :=
        mem_userKeys.mpr ⟨⟨hstart.le, by rw [hstop]; exact lt_append_zero_iff.mpr le_rfl⟩, ks, hget⟩
      have hnodup : (e.userKeys o).Nodup := userKeys_ordered.imp fun hlt heq => by
        subst heq
        split at hlt <;> exact absurd hlt (lt_irrefl _)
      exact .inl (perm_singleton.mp ((perm_ext_iff_of_nodup hnodup (nodup_singleton k)).mpr fun k' =>
        ⟨fun hk' => mem_singleton.mpr (hmem k' hk'), fun hk' => mem_singleton.mp hk' ▸ hk⟩))
  rw [mvccScan_eq_run he parent changed hiters, runKeys_unlimited ho _ _ rfl fun k' hk' => hmem k' hk' ▸ hok]
  rcases hkeys with hkeys | ⟨hkeys, hskip⟩
  · simp [finish, hkeys, hnone, Out.empty, scanResult, noResume]
  · simp [finish, hkeys, hskip, Outcome.pairs, Out.empty, scanResult, noResume]

/-- A write is visible to a reader of its transaction: it is not later than the reader's
    sequence number and not rolled back. -/
def CountsFor (reader : Transaction) (seq : TxnSeq) : Prop :=
  seq ≤ reader.sequence ∧ ¬ SeqIgnored reader.ignoredSeqNums seq

theorem counts_iff (hsorted : SortedRanges reader.ignoredSeqNums) :
    counts reader seq = true ↔ CountsFor reader seq := by
  simp [counts, CountsFor, ← txnSeqIsIgnored_iff hsorted]

/-- A transaction writes a key of a consistent engine in one epoch, and then reads it in
    that epoch with a list of rolled back sequence numbers that has only grown. The plain
    writes are all made, unless one of them would move an intent from the first timestamp
    while the next key holds a metadata record, which the put fails on. The read returns the
    value of the write with the highest sequence number that counts for the reader; without
    one, the newest version at or below the read timestamp among those that were committed
    before the epoch's writes. An intent of an earlier epoch that the writes found on the
    key is never read. -/
theorem read_own_writes (sz : Sizes) (e : Engine) (he : e.Consistent) (k : Bytes) (id epoch : Nat)
    (hstart : Startable id epoch (e.keyState k)) (writes : List TxnWrite) (hwrites : Epoch id epoch writes)
    (reader : Transaction) (hid : reader.id = id) (hepoch : reader.epoch = epoch)
    (hsorted : SortedRanges reader.ignoredSeqNums)
    (hgrows : ∀ w ∈ writes, ∀ seq, SeqIgnored w.txn.ignoredSeqNums seq → SeqIgnored reader.ignoredSeqNums seq)
    (o : ScanOptions) (ho : o.Unlimited) (hreader : o.txn = some reader) (hspan : o.start = k ∧ o.stop = k ++ [0])
    (parent : Cursor MVCCKey) (changed : Bool) (iters : Nat) (hiters : iters ≤ o.maxItersBeforeSeek) :
    let st := Session.run sz k ⟨e, []⟩ writes
    let read := mvccScan o st.engine parent changed iters
    (k ≠ [] → (∀ w ∈ writes, w.valueFn = none ∧ w.txn.readTimestamp ≠ 0) →
      (st.log = writes.map (fun w => (w.txn.sequence, w.value)) ↔ ∀ before w after, writes = before ++ w :: after →
        ¬ (Session.run sz k ⟨e, []⟩ before).SeekFails k w)) ∧
    (∀ w ∈ st.log, CountsFor reader w.1 → (∀ w' ∈ st.log, CountsFor reader w'.1 → w'.1 ≤ w.1) →
      ∃ ts, read = .ok ⟨(Outcome.emit ⟨⟨k, ts⟩, w.2⟩).pairs o, none, none, 0⟩) ∧
    ((∀ w ∈ st.log, ¬ CountsFor reader w.1) →
      read = .ok ⟨(versionsOutcome o (e.ranges.at? k) k (e.keyState k).committed).pairs o, none, none, 0⟩) := by
  intro st read
  have hinit : Session.Ok k id epoch (e.keyState k) e.ranges [] ⟨e, []⟩ := ⟨he, rfl, .start, .nil⟩
  have hbefore : ∀ w ∈ writes, Session.Before [] ⟨e, []⟩ w := fun w _ => ⟨Grows.nil _, by simp⟩
  have hok : st.Ok k id epoch (e.keyState k) e.ranges reader.ignoredSeqNums :=
    hinit.run sz hstart hwrites (Grows.nil _)
      (fun w hw => grows_of_sorted (hwrites.sorted w hw) hsorted (hgrows w hw)) hbefore
  obtain ⟨ts, houtcome⟩ := hok.logged.keyOutcome_eq (k := k) hstart (hok.consistent.sound_keyState k)
    (fun _ => st.engine.valid_range) hreader hid hepoch fun _ h => h
  rw [← Engine.outcome, hok.ranges] at houtcome
  have hscan := mvccScan_single hok.consistent ho hspan.1 hspan.2 parent changed hiters
  refine ⟨fun hk hplain => ?_, fun w hw hcounts hhighest => ⟨ts, ?_⟩, fun hnone => ?_⟩
  · exact hinit.run_log hstart hk hwrites hbefore hplain
  · have hlast : lastCounting reader st.log = some w :=
      find?_reverse_of_highest hok.sorted hw ((counts_iff hsorted).mpr hcounts) fun w' hw' h' =>
        hhighest w' hw' ((counts_iff hsorted).mp h')
    rw [hlast] at houtcome
    rw [houtcome] at hscan
    exact hscan rfl rfl
  have hlast : lastCounting reader st.log = none :=
    find?_eq_none.mpr fun w hw => (counts_iff hsorted).not.mpr (hnone w (mem_reverse.mp hw))
  rw [hlast] at houtcome
  obtain ⟨hread, hconflicts⟩ := readVersion_ok o (e.ranges.at? k) k
    ((e.keyState k).committed.find? fun v => decide (v.1 ≤ o.ts))
  rw [houtcome] at hscan
  exact hscan hread hconflicts

/-- The second epoch of the transaction that holds the intent of `threeKeys`. -/
def restarted (sequence : TxnSeq) (ignored : List IgnoredSeqNumRange) : Transaction where
  id := 7
  epoch := 1
  sequence := sequence
  writeTimestamp := 6
  rest := []
  readTimestamp := 6
  ignoredSeqNums := ignored
  read_le_write := le_rfl

def twoWrites : List TxnWrite :=
  [⟨restarted 1 [], [0xa], none, 0, false, false⟩, ⟨restarted 2 [], [0xb], none, 0, false, false⟩]

/-- A read at the second write's sequence number, after that write was rolled back. -/
def readBack : ScanOptions :=
  { reverseScan with start := [0x63], stop := [0x63, 0], ts := 6, txn := some (restarted 2 [⟨2, 2⟩]) }

theorem read_own_writes_rolledBack : ∃ ts, mvccScan readBack
    (Session.run ⟨fun _ => 0, fun _ => 0⟩ [0x63] ⟨threeKeys, []⟩ twoWrites).engine .before false 5 =
      .ok ⟨[⟨⟨[0x63], ts⟩, [0xa]⟩], none, none, 0⟩ := by
  have hstart : Startable 7 1 (threeKeys.keyState [0x63]) := by
    intro m hm
    cases hm
    exact ⟨rfl, _, rfl, rfl, by decide⟩
  have hwrites : Epoch 7 1 twoWrites := by
    refine ⟨by simp [twoWrites, restarted], by simp [twoWrites, restarted, SortedRanges], ?_, ?_⟩
    · simp [twoWrites, restarted]
    · simp [twoWrites, restarted]
  obtain ⟨hlog, hread, _⟩ := read_own_writes ⟨fun _ => 0, fun _ => 0⟩ threeKeys threeKeys_consistent [0x63] 7 1 hstart
    twoWrites hwrites (restarted 2 [⟨2, 2⟩]) rfl rfl (by decide) (by simp [twoWrites, restarted, SeqIgnored]) readBack
    ⟨rfl, rfl, rfl⟩ rfl ⟨rfl, rfl⟩ .before false 5 (by decide)
  have hlog := (hlog (by simp) (by simp [twoWrites, restarted])).mpr fun before w after _ hseek => by
    rw [Session.SeekFails, Session.run_nextKey] at hseek
    exact hseek.1 (by decide)
  rw [hlog] at hread
  refine hread (1, [0xa]) (by simp [twoWrites, restarted]) ⟨by decide, ?_⟩ fun w hw hcounts => ?_
  · simp [SeqIgnored, restarted]
  simp only [twoWrites, restarted, map_cons, map_nil, mem_cons, not_mem_nil, or_false] at hw
  rcases hw with rfl | rfl
  · exact le_rfl
  · exact absurd ⟨_, mem_cons_self, le_rfl, le_rfl⟩ hcounts.2

end Ratel.Storage
