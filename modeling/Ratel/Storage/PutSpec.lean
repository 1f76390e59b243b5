import Ratel.Storage.Put

/- What a put does to a key. Every put that succeeds is an inline one, a replay that
   changes nothing, or the write of one version on top of the committed ones: an intent
   the writer had is replaced, its committed versions stay, and the new version is above
   all of them and above the range tombstones, which keeps the key sound. -/
namespace Ratel.Storage

open Encoding Keys Lib

/-- The versions of a key without the provisional value of an intent. -/
def KeyState.committed (ks : KeyState) : List (Timestamp × MVCCValue) :=
  match ks.metadata with
  | some _ => ks.history.tail
  | none => ks.history

theorem KeyState.committed_subset (ks : KeyState) : ∀ e ∈ ks.committed, e ∈ ks.history := by
  unfold committed
  split
  · exact fun e he => List.mem_of_mem_tail he
  · exact fun e => id

section
variable {sz : Sizes} {range : Option RangeKeyStack} {k : Bytes} {next : NextKey} {ks : KeyState}

/-! The metadata found. -/

theorem RangeKeyStack.firstAtOrAbove_le_newest {s : RangeKeyStack} {t : Timestamp} {v : RangeKeyVersion}
    (h : s.firstAtOrAbove t = some v) : t ≤ s.newest := by
  unfold firstAtOrAbove at h
  cases hv : s.versions with
  | nil => simp [hv] at h
  | cons w older =>
    simp only [hv, List.takeWhile_cons] at h
    split at h
    · rename_i hle
      simpa [newest, hv] using hle
    · cases h

theorem RangeKeyStack.newest_lt_of_firstAtOrAbove {s : RangeKeyStack} {t : Timestamp} (hne : s.versions ≠ [])
    (h : s.firstAtOrAbove t = none) : s.newest < t := by
  obtain ⟨w, older, hv⟩ := List.exists_cons_of_ne_nil hne
  simp only [firstAtOrAbove, hv, List.takeWhile_cons] at h
  split at h
  · cases h
  · rename_i hle
    simpa [newest, hv] using hle

variable (sz k) in
/-- What is found for a key without a metadata record: nothing, or a made-up record at or
    above the versions and the range tombstones. -/
theorem mvccGetMetadata_implicit (hm : ks.metadata = none) (hvalid : ∀ s, range = some s → s.Valid) :
    (mvccGetMetadata sz range k ks = none ∧ ks.history = [] ∧ range = none) ∨
    ∃ f, mvccGetMetadata sz range k ks = some f ∧ f.metadata.txn = none ∧ f.metadata.rawBytes = [] ∧
      f.metadata.intentHistory = [] ∧ (∀ e ∈ ks.history, e.1 ≤ f.metadata.timestamp) ∧
      ∀ s, range = some s → s.newest ≤ f.metadata.timestamp := by
  unfold mvccGetMetadata
  rw [hm]
  simp only
  have hdesc := ks.history_descending
  cases hh : ks.history with
  | nil =>
    cases range with
    | none => exact .inl ⟨rfl, rfl, rfl⟩
    | some s => exact .inr ⟨_, rfl, rfl, rfl, rfl, by simp, fun s' hs' => by cases hs'; exact le_refl _⟩
  | cons e older =>
    obtain ⟨t, v⟩ := e
    rw [hh] at hdesc
    have hle : ∀ e ∈ (t, v) :: older, e.1 ≤ t :=
      List.forall_mem_cons.mpr ⟨le_refl _, fun e he => ((List.pairwise_cons.mp hdesc).1 e he).le⟩
    simp only [List.head?_cons]
    cases range with
    | none => exact .inr ⟨_, rfl, rfl, rfl, rfl, hle, by simp⟩
    | some s =>
      simp only
      cases hf : s.firstAtOrAbove t with
      | none =>
        refine .inr ⟨_, rfl, rfl, rfl, rfl, hle, fun s' hs' => ?_⟩
        cases hs'
        exact (RangeKeyStack.newest_lt_of_firstAtOrAbove (hvalid s rfl).nonempty hf).le
      | some rkv =>
        have htop := RangeKeyStack.firstAtOrAbove_le_newest hf
        exact .inr ⟨_, rfl, rfl, rfl, rfl, fun e he => (hle e he).trans htop, fun s' hs' => by cases hs'; exact le_refl _⟩

/-! Preparing a write. -/

/-- The history that an overwritten intent leaves to the new one: nothing from another
    epoch, and within an epoch the provisional value is added unless it is rolled back. -/
inductive HistoryKept (ks : KeyState) (m : MVCCMetadata) (t : TxnMeta) (txn : Transaction) :
    List SequencedIntent → Prop
  | otherEpoch (hepoch : txn.epoch ≠ t.epoch) : HistoryKept ks m t txn []
  | added {v : MVCCValue} (hepoch : txn.epoch = t.epoch)
      (hlive : txnSeqIsIgnored t.sequence txn.ignoredSeqNums = false) (hv : ks.version m.timestamp = some v) :
      HistoryKept ks m t txn (m.intentHistory ++ [⟨t.sequence, v⟩])
  | kept (hepoch : txn.epoch = t.epoch) (hignored : txnSeqIsIgnored t.sequence txn.ignoredSeqNums = true) :
      HistoryKept ks m t txn m.intentHistory
  | dropped (hepoch : txn.epoch = t.epoch) (hignored : txnSeqIsIgnored t.sequence txn.ignoredSeqNums = true)
      (hnone : m.getPrevIntentSeq txn.sequence txn.ignoredSeqNums = none) : HistoryKept ks m t txn []

/-- What overwriting an intent amounts to. -/
structure Overwritten (sz : Sizes) (range : Option RangeKeyStack) (k : Bytes) (next : NextKey) (ks : KeyState)
    (m : MVCCMetadata) (t : TxnMeta) (txn : Transaction) (p : Pending) : Prop where
  writeTimestamp : p.writeTimestamp = max txn.writeTimestamp m.timestamp
  versions : p.versions =
    if m.timestamp < txn.writeTimestamp then ks.versions.del (OrderDual.toDual m.timestamp) else ks.versions
  prev : ∃ prev, prevOfMoved range k next ks m txn = .ok prev ∧ p.prevIsValue = prev.isSome ∧
    p.prevValSize = (prev.map (encodedMVCCValueSize sz)).getD 0
  history : HistoryKept ks m t txn p.intentHistory

variable {m : MVCCMetadata} {t : TxnMeta} {txn : Transaction} {value : Bytes} {valueFn : Option ValueFn}
    {p : Pending} {found : Option FoundMetadata} {writeTimestamp timestamp : Timestamp} {opts : WriteOptions}

theorem historyKept_of_existing {found exVal : Option Bytes}
    {curProvVal : Option MVCCValue} (prev : Option MVCCValue) (hex : exValOfIntent k ks m t txn = .ok (found, curProvVal))
    (hexVal : existingValue range k ks txn.readTimestamp found = .ok exVal) :
    HistoryKept ks m t txn (pendingOverwrite sz ks m t txn value exVal curProvVal prev).intentHistory := by
  simp only [pendingOverwrite]
  by_cases hepoch : txn.epoch = t.epoch
  · unfold exValOfIntent at hex
    rw [if_pos hepoch] at hex
    cases hignored : txnSeqIsIgnored t.sequence txn.ignoredSeqNums with
    | false =>
      simp only [hignored, Bool.false_eq_true, not_false_eq_true, if_true] at hex
      split at hex
      · cases hex
      rename_i v hv
      cases hex
      cases hexVal
      simp only [hepoch, Option.isSome_some, and_self]
      exact .added hepoch hignored hv
    | true =>
      simp only [hignored, not_true_eq_false, if_false, Except.ok.injEq, Prod.mk.injEq] at hex
      obtain ⟨hfound, rfl⟩ := hex
      simp only [hepoch, true_and]
      split
      · exact .kept hepoch hignored
      rename_i hnone
      -- Without an existing value, the history holds none either.
      cases hprev : m.getPrevIntentSeq txn.sequence txn.ignoredSeqNums with
      | none => exact .dropped hepoch hignored hprev
      | some w =>
        rw [hprev] at hfound
        subst hfound
        cases hexVal
        exact absurd rfl hnone
  · simp only [hepoch, false_and]
    exact .otherEpoch hepoch

theorem overwriteIntent_spec (h : overwriteIntent sz range k next ks m t txn value valueFn = .ok p) :
    Overwritten sz range k next ks m t txn p := by
  unfold overwriteIntent at h
  split at h
  · cases h
  rename_i found curProvVal hex
  split at h
  · cases h
  rename_i exVal hexVal
  split at h
  · cases h
  split at h
  · cases h
  rename_i prev hprev
  cases h
  refine ⟨?_, rfl, ⟨prev, hprev, rfl, rfl⟩, historyKept_of_existing prev hex hexVal⟩
  simp only [pendingOverwrite]
  split
  · next hlt => rw [max_eq_right hlt.le]
  · next hle => rw [max_eq_left (not_lt.mp hle)]

/-- Everything a put can be about to write. -/
inductive Prepared (sz : Sizes) (range : Option RangeKeyStack) (k : Bytes) (next : NextKey) (ks : KeyState)
    (found : Option FoundMetadata) (readTimestamp writeTimestamp : Timestamp) (opts : WriteOptions) : Pending → Prop
  | fresh (value : Bytes) (hfound : found = none) : Prepared sz range k next ks found readTimestamp writeTimestamp opts
      ⟨value, writeTimestamp, ks.versions, [], false, 0, false, false⟩
  | overwrites {f : FoundMetadata} {t : TxnMeta} {txn : Transaction} {p : Pending} (hfound : found = some f)
      (ht : f.metadata.txn = some t) (htxn : opts.txn = some txn) (hid : t.id = txn.id)
      (hlater : t.epoch < txn.epoch ∨ t.epoch = txn.epoch ∧ t.sequence < txn.sequence)
      (hp : Overwritten sz range k next ks f.metadata t txn p) :
      Prepared sz range k next ks found readTimestamp writeTimestamp opts p
  | tooOld {f : FoundMetadata} (value : Bytes) (replaced : Bool) (hfound : found = some f)
      (ht : f.metadata.txn = none) : Prepared sz range k next ks found readTimestamp writeTimestamp opts
      ⟨value, max writeTimestamp (f.metadata.timestamp + 1), ks.versions, f.metadata.intentHistory, false, 0,
        replaced, true⟩
  | above {f : FoundMetadata} (value : Bytes) (replaced : Bool) (hfound : found = some f) (ht : f.metadata.txn = none)
      (habove : f.metadata.timestamp < readTimestamp) : Prepared sz range k next ks found readTimestamp writeTimestamp opts
      ⟨value, writeTimestamp, ks.versions, f.metadata.intentHistory, false, 0, replaced, false⟩

theorem exists_of_map_put {α β : Type} {x : Except PutErr α} {f : α → β} {b : β} (h : x.map f = .ok b) :
    ∃ a, x = .ok a ∧ f a = b := by
  cases x with
  | error err => cases h
  | ok a => exact ⟨a, rfl, Except.ok.inj h⟩

/-- What is prepared, or that nothing is because the write is a replay. -/
theorem preparePut_cases {readTimestamp : Timestamp} {out : Option Pending}
    (h : preparePut sz range k next ks found readTimestamp writeTimestamp value valueFn opts = .ok out) :
    (∃ p, out = some p ∧ Prepared sz range k next ks found readTimestamp writeTimestamp opts p) ∨
      out = none ∧ ∃ f t txn, found = some f ∧ f.metadata.txn = some t ∧ opts.txn = some txn ∧
        txn.epoch = t.epoch ∧ txn.sequence ≤ t.sequence := by
  unfold preparePut at h
  cases found with
  | none =>
    obtain ⟨value', _, h⟩ := exists_of_map_put h
    exact .inl ⟨_, h.symm, .fresh value' rfl⟩
  | some f =>
    simp only at h
    cases ht : f.metadata.txn with
    | none =>
      rw [ht] at h
      obtain ⟨p', hput, h⟩ := exists_of_map_put h
      refine .inl ⟨p', h.symm, ?_⟩
      unfold putOverVersion at hput
      split at hput
      · simp only at hput
        split at hput
        · cases hput
        split at hput
        · cases hput
        · cases hput
          exact .tooOld _ _ rfl ht
      · rename_i habove
        split at hput
        · cases hput
        · cases hput
          exact .above _ _ rfl ht (not_le.mp habove)
    | some t =>
      simp only [ht] at h
      split at h
      · cases h
      rename_i txn htxn
      obtain ⟨hid, h⟩ := of_ite_ne h nofun
      obtain ⟨hepoch, h⟩ := of_ite_ne h nofun
      split at h
      · next hreplay =>
        obtain ⟨_, _, h⟩ := exists_of_map_put h
        exact .inr ⟨h.symm, f, t, txn, rfl, ht, htxn, hreplay⟩
      next hreplay =>
      obtain ⟨p', hover, h⟩ := exists_of_map_put h
      refine .inl ⟨p', h.symm, .overwrites rfl ht htxn (not_not.mp hid) ?_ (overwriteIntent_spec hover)⟩
      rcases (not_lt.mp hepoch).lt_or_eq with hlt | heq
      · exact .inl hlt
      · exact .inr ⟨heq, not_le.mp fun hle => hreplay ⟨heq.symm, hle⟩⟩

theorem preparePut_spec {readTimestamp : Timestamp}
    (h : preparePut sz range k next ks found readTimestamp writeTimestamp value valueFn opts = .ok (some p)) :
    Prepared sz range k next ks found readTimestamp writeTimestamp opts p := by
  obtain ⟨p', hp, hprepared⟩ | ⟨hnone, -⟩ := preparePut_cases h
  · exact Option.some.inj hp ▸ hprepared
  · cases hnone

inductive PutCase (sz : Sizes) (range : Option RangeKeyStack) (k : Bytes) (next : NextKey) (ks : KeyState)
    (timestamp : Timestamp) (value : Bytes) (valueFn : Option ValueFn) (opts : WriteOptions) (ms : MVCCStats) :
    PutResult → Prop
  | inline {r : PutResult} (hts : timestamp = 0)
      (hfound : ∀ f, mvccGetMetadata sz range k ks = some f → f.metadata.isInline = true)
      (hput : putInline sz range k ks (mvccGetMetadata sz range k ks) value valueFn opts ms = .ok r) :
      PutCase sz range k next ks timestamp value valueFn opts ms r
  | replay {f : FoundMetadata} {t : TxnMeta} {txn : Transaction} (hfound : mvccGetMetadata sz range k ks = some f)
      (ht : f.metadata.txn = some t) (htxn : opts.txn = some txn)
      (hreplay : txn.epoch = t.epoch ∧ txn.sequence ≤ t.sequence) :
      PutCase sz range k next ks timestamp value valueFn opts ms ⟨ks, false, false, ms⟩
  | writes {p : Pending} {r : PutResult} (hts : timestamp ≠ 0)
      (hfound : ∀ f, mvccGetMetadata sz range k ks = some f → f.metadata.isInline = false)
      (hread : ∀ txn, opts.txn = some txn → txn.readTimestamp = timestamp)
      (hp : Prepared sz range k next ks (mvccGetMetadata sz range k ks) timestamp
        ((opts.txn.map (·.writeTimestamp)).getD timestamp) opts p)
      (hr : writeVersion sz k ks (mvccGetMetadata sz range k ks) p opts ms = .ok r) :
      PutCase sz range k next ks timestamp value valueFn opts ms r

theorem mvccPutInternal_cases
    {ms : MVCCStats} {r : PutResult} (h : mvccPutInternal sz range k next ks timestamp value valueFn opts ms = .ok r) :
    PutCase sz range k next ks timestamp value valueFn opts ms r := by
  unfold mvccPutInternal at h
  obtain ⟨-, h⟩ := of_ite_ne h nofun
  obtain ⟨-, h⟩ := of_ite_ne h nofun
  obtain ⟨hmixed, h⟩ := of_ite_ne h nofun
  have hinline : ∀ f, mvccGetMetadata sz range k ks = some f → f.metadata.isInline = decide (timestamp = 0) := by
    intro f hf
    simp only [hf, Option.any_some, bne_iff_ne, not_not] at hmixed
    exact hmixed.symm
  split at h
  · rename_i hts
    have hts : timestamp = 0 := by simpa using hts
    exact .inline hts (fun f hf => by rw [hinline f hf, hts]; rfl) h
  rename_i hts
  have hts : timestamp ≠ 0 := by simpa using hts
  obtain ⟨hread, h⟩ := of_ite_ne h nofun
  have hread : ∀ txn, opts.txn = some txn → txn.readTimestamp = timestamp := by
    intro txn htxn
    simpa [htxn] using hread
  simp only at h
  split at h
  · cases h
  · rename_i hp
    cases h
    obtain ⟨_, hout, -⟩ | ⟨-, f, t, txn, hf, ht, htxn, hreplay⟩ := preparePut_cases hp
    · cases hout
    · exact .replay hf ht htxn hreplay
  · rename_i p hp
    exact .writes hts (fun f hf => by rw [hinline f hf]; simpa using hts) hread (preparePut_spec hp) h

/-! The versions written. -/

theorem mvccGetMetadata_explicit (hm : ks.metadata = some m) :
    mvccGetMetadata sz range k ks = some ⟨m, encodedMVCCKeyPrefixLength k, sz.metadata m, m.timestamp⟩ := by
  simp [mvccGetMetadata, hm]

theorem metadata_of_found_txn (hvalid : ∀ s, range = some s → s.Valid) {f : FoundMetadata}
    (hf : mvccGetMetadata sz range k ks = some f) (ht : f.metadata.txn = some t) : ks.metadata = some f.metadata := by
  cases hm : ks.metadata with
  | none =>
    rcases mvccGetMetadata_implicit sz k hm hvalid with ⟨hnone, _⟩ | ⟨f', hf', htxn, _⟩
    · rw [hnone] at hf
      cases hf
    rw [hf'] at hf
    cases hf
    rw [htxn] at ht
    cases ht
  | some m =>
    rw [mvccGetMetadata_explicit hm] at hf
    cases hf
    rfl

theorem not_found (hvalid : ∀ s, range = some s → s.Valid) (hnone : mvccGetMetadata sz range k ks = none) :
    ks.metadata = none ∧ ks.history = [] ∧ range = none := by
  cases hm : ks.metadata with
  | none =>
    rcases mvccGetMetadata_implicit sz k hm hvalid with ⟨_, hempty, hrange⟩ | ⟨f, hf, _⟩
    · exact ⟨rfl, hempty, hrange⟩
    · rw [hf] at hnone
      cases hnone
  | some m =>
    rw [mvccGetMetadata_explicit hm] at hnone
    cases hnone

/-- A key without an intent as a put finds it. -/
theorem KeyState.Sound.found_implicit (hs : ks.Sound range) (hvalid : ∀ s, range = some s → s.Valid)
    {f : FoundMetadata} (hf : mvccGetMetadata sz range k ks = some f) (ht : f.metadata.txn = none)
    (hinline : f.metadata.isInline = false) : ks.metadata = none ∧
      f.metadata.intentHistory = [] ∧ (∀ e ∈ ks.history, e.1 ≤ f.metadata.timestamp) ∧
      ∀ s, range = some s → s.newest ≤ f.metadata.timestamp := by
  cases hm : ks.metadata with
  | none =>
    refine ⟨rfl, ?_⟩
    rcases mvccGetMetadata_implicit sz k hm hvalid with ⟨hnone, _⟩ | ⟨f', hf', _, _, hhist, hle, hrange⟩
    · rw [hnone] at hf
      cases hf
    rw [hf'] at hf
    cases hf
    exact ⟨hhist, hle, hrange⟩
  | some m =>
    rw [mvccGetMetadata_explicit hm] at hf
    cases hf
    obtain ⟨t, _, _, htxn, _⟩ := hs.intent m hm (by simpa [MVCCMetadata.isInline] using hinline)
    rw [htxn] at ht
    cases ht

/-- A write goes on top of the committed versions. -/
structure OnTop (range : Option RangeKeyStack) (ks : KeyState) (p : Pending) : Prop where
  positive : 0 < p.writeTimestamp
  above : ∀ e ∈ ks.committed, e.1 < p.writeTimestamp
  range : ∀ s, range = some s → s.newest < p.writeTimestamp
  entries : ∀ v, (p.versions.put (OrderDual.toDual p.writeTimestamp) v).entries =
    (OrderDual.toDual p.writeTimestamp, v) :: ks.committed

/-- What a prepared put meets: a key without an intent, whose versions are all below the write, or an intent
    of its own transaction. -/
inductive PutTarget (sz : Sizes) (range : Option RangeKeyStack) (k : Bytes) (next : NextKey) (ks : KeyState)
    (opts : WriteOptions) (p : Pending) : Prop
  | versions (hm : ks.metadata = none) (hpos : 0 < p.writeTimestamp) (hversions : p.versions = ks.versions)
      (hprev : p.prevIsValue = false ∧ p.prevValSize = 0) (hnil : p.intentHistory = [])
      (habove : ∀ e ∈ ks.history, e.1 < p.writeTimestamp)
      (hrange : ∀ s, range = some s → s.newest < p.writeTimestamp)
  | intent {m : MVCCMetadata} {t : TxnMeta} {txn : Transaction} {v : MVCCValue} (hm : ks.metadata = some m)
      (hraw : m.rawBytes = []) (ht : m.txn = some t) (htxn : opts.txn = some txn)
      (hlater : t.epoch < txn.epoch ∨ t.epoch = txn.epoch ∧ t.sequence < txn.sequence)
      (hpos : 0 < m.timestamp) (hhist : ks.history = (m.timestamp, v) :: ks.committed)
      (hrange : ∀ s, range = some s → s.newest < m.timestamp) (hp : Overwritten sz range k next ks m t txn p)

theorem Prepared.target (hs : ks.Sound range) (hvalid : ∀ s, range = some s → s.Valid)
    (hp : Prepared sz range k next ks (mvccGetMetadata sz range k ks) timestamp writeTimestamp opts p)
    (hfound : ∀ f, mvccGetMetadata sz range k ks = some f → f.metadata.isInline = false)
    (hts : timestamp ≠ 0) (hwrite : timestamp ≤ writeTimestamp) : PutTarget sz range k next ks opts p := by
  have hpos : 0 < writeTimestamp := lt_of_lt_of_le (Nat.pos_of_ne_zero hts) hwrite
  cases hp with
  | fresh value hnone =>
    obtain ⟨hm, hempty, hrange⟩ := not_found hvalid hnone
    exact .versions hm hpos rfl ⟨rfl, rfl⟩ rfl (by simp [hempty]) (by simp [hrange])
  | tooOld value replaced hf ht =>
    obtain ⟨hm, hnil, hle, hrange⟩ := hs.found_implicit hvalid hf ht (hfound _ hf)
    refine .versions hm (lt_of_lt_of_le hpos (le_max_left _ _)) rfl ⟨rfl, rfl⟩ hnil (fun e he => ?_) fun s hs' => ?_
    · exact lt_of_lt_of_le (Nat.lt_succ_of_le (hle e he)) (le_max_right _ _)
    · exact lt_of_lt_of_le (Nat.lt_succ_of_le (hrange s hs')) (le_max_right _ _)
  | above value replaced hf ht habove =>
    obtain ⟨hm, hnil, hle, hrange⟩ := hs.found_implicit hvalid hf ht (hfound _ hf)
    refine .versions hm hpos rfl ⟨rfl, rfl⟩ hnil (fun e he => ?_) fun s hs' => ?_
    · exact lt_of_le_of_lt (hle e he) (habove.trans_le hwrite)
    · exact lt_of_le_of_lt (hrange s hs') (habove.trans_le hwrite)
  | @overwrites f t txn p hf ht htxn hid hlater hp =>
    have hm := metadata_of_found_txn hvalid hf ht
    have hraw : f.metadata.rawBytes = [] := by simpa [MVCCMetadata.isInline] using hfound f hf
    obtain ⟨_, v, older, _, hhist, hrange⟩ := hs.intent f.metadata hm hraw
    exact .intent (v := v) hm hraw ht htxn hlater (hs.positive (f.metadata.timestamp, v) (by simp [hhist]))
      (by simp [KeyState.committed, hm, hhist]) hrange hp

theorem KeyState.committed_of_no_metadata (hm : ks.metadata = none) : ks.committed = ks.history := by
  rw [committed, hm]

theorem PutTarget.onTop (h : PutTarget sz range k next ks opts p) : OnTop range ks p := by
  cases h with
  | versions hm hpos hversions _ _ habove hrange =>
    have hcommitted := KeyState.committed_of_no_metadata hm
    refine ⟨hpos, hcommitted ▸ habove, hrange, fun v => ?_⟩
    have hlt : ∀ e ∈ ks.versions.entries, OrderDual.toDual p.writeTimestamp < e.1 := habove
    rw [hversions, hcommitted, Store.entries_put_of_lt hlt]
    rfl
  | @intent m t txn v hm _ _ _ _ hpos hhist hrange hp =>
    have hdesc := ks.history_descending
    rw [hhist] at hdesc
    have hbelow := (List.pairwise_cons.mp hdesc).1
    have hle : m.timestamp ≤ p.writeTimestamp := hp.writeTimestamp ▸ le_max_right _ _
    refine ⟨lt_of_lt_of_le hpos hle, fun e he => lt_of_lt_of_le (hbelow e he) hle,
      fun s hs' => lt_of_lt_of_le (hrange s hs') hle, fun w => ?_⟩
    rw [hp.versions]
    split
    · -- The provisional value is cleared first.
      have hdel : (ks.versions.del (OrderDual.toDual m.timestamp)).entries = ks.committed :=
        Store.entries_del_head hhist
      have hlt : ∀ e ∈ (ks.versions.del (OrderDual.toDual m.timestamp)).entries,
          OrderDual.toDual p.writeTimestamp < e.1 := by
        intro e he
        rw [hdel] at he
        exact OrderDual.toDual_lt_toDual.mpr (lt_of_lt_of_le (hbelow e he) hle)
      rw [Store.entries_put_of_lt hlt, hdel]
    · -- It is overwritten where it is.
      rename_i hmoved
      have heq : p.writeTimestamp = m.timestamp := by
        rw [hp.writeTimestamp]
        exact max_eq_right (not_lt.mp hmoved)
      rw [heq]
      exact Store.entries_put_head hhist w

/-- A transactional write is never below the transaction's write timestamp. -/
theorem Prepared.forward (hp : Prepared sz range k next ks found timestamp txn.writeTimestamp opts p)
    (htxn : opts.txn = some txn) : txn.writeTimestamp ≤ p.writeTimestamp := by
  cases hp with
  | fresh value hnone => exact le_refl _
  | tooOld value replaced hf ht => exact le_max_left _ _
  | above value replaced hf ht habove => exact le_refl _
  | overwrites hf ht htxn' hid hlater hp =>
    rw [htxn] at htxn'
    cases htxn'
    rw [hp.writeTimestamp]
    exact le_max_left _ _

theorem writeVersion_eq {ms : MVCCStats} {r : PutResult} (h : writeVersion sz k ks found p opts ms = .ok r) :
    r = putResultOf k ks found p opts ms (putMetadata sz p (found.bind (·.metadata.txn)).isSome opts)
      (if opts.txn.isSome then sz.metadata (putMetadata sz p (found.bind (·.metadata.txn)).isSome opts) else 0) := by
  unfold writeVersion at h
  cases htxn : opts.txn with
  | none =>
    simp only [putMetadata, htxn, Option.map_none, Except.ok.injEq] at h
    rw [← h]
    simp [putMetadata, htxn]
  | some txn =>
    simp only [putMetadata, htxn, Option.map_some] at h
    split at h
    · cases h
    simp only [Except.ok.injEq] at h
    rw [← h]
    simp [putMetadata, htxn]

/-- A key without an intent where a put finds none of its transaction. -/
theorem PutTarget.metadata_of_no_txn (h : PutTarget sz range k next ks opts p) (htxn : opts.txn = none) :
    ks.metadata = none := by
  cases h with
  | versions hm => exact hm
  | intent _ _ _ htxn' =>
    rw [htxn] at htxn'
    cases htxn'

structure Written (sz : Sizes) (range : Option RangeKeyStack) (k : Bytes) (ks : KeyState) (opts : WriteOptions)
    (ms : MVCCStats) (p : Pending) (r : PutResult) : Prop where
  onTop : OnTop range ks p
  result : r = putResultOf k ks (mvccGetMetadata sz range k ks) p opts ms
    (putMetadata sz p ((mvccGetMetadata sz range k ks).bind (·.metadata.txn)).isSome opts)
    (if opts.txn.isSome then
      sz.metadata (putMetadata sz p ((mvccGetMetadata sz range k ks).bind (·.metadata.txn)).isSome opts) else 0)
  history : r.state.history = (p.writeTimestamp, versionValue p.value p.writeTimestamp opts) :: ks.committed
  metadata : r.state.metadata = opts.txn.map fun _ =>
    putMetadata sz p ((mvccGetMetadata sz range k ks).bind (·.metadata.txn)).isSome opts

section
variable {timestamp : Timestamp} {opts : WriteOptions} {ms : MVCCStats} {p : Pending} {r : PutResult}

theorem le_writeTimestamp (hread : ∀ txn, opts.txn = some txn → txn.readTimestamp = timestamp) :
    timestamp ≤ (opts.txn.map (·.writeTimestamp)).getD timestamp := by
  cases htxn : opts.txn with
  | none => exact le_refl _
  | some txn => exact hread txn htxn ▸ txn.read_le_write

theorem PutTarget.written (h : PutTarget sz range k next ks opts p)
    (hr : writeVersion sz k ks (mvccGetMetadata sz range k ks) p opts ms = .ok r) :
    Written sz range k ks opts ms p r := by
  have htop := h.onTop
  have hr := writeVersion_eq hr
  refine ⟨htop, hr, ?_, ?_⟩
  · rw [hr]
    exact htop.entries _
  rw [hr]
  cases htxn : opts.txn with
  | none => simp [putResultOf, putMetadata, htxn, h.metadata_of_no_txn htxn]
  | some txn => simp [putResultOf, putMetadata, htxn]

theorem Written.sound (h : Written sz range k ks opts ms p r) (hs : ks.Sound range) : r.state.Sound range where
  positive e he := by
    rw [h.history] at he
    rcases List.mem_cons.mp he with rfl | he
    · exact h.onTop.positive
    · exact hs.positive e (ks.committed_subset e he)
  intent m hm _ := by
    rw [h.metadata] at hm
    obtain ⟨txn, htxn, rfl⟩ := Option.map_eq_some_iff.mp hm
    exact ⟨txn.metaAt p.writeTimestamp, _, _, by simp [putMetadata, htxn], h.history, h.onTop.range⟩
  inline m hm hne := by
    rw [h.metadata] at hm
    obtain ⟨_, _, rfl⟩ := Option.map_eq_some_iff.mp hm
    exact absurd rfl hne

/-! Puts that are not refused. -/

theorem mvccGet_of_readVersion {o : ScanOptions} {inconsistent : Bool} (tv : Option (Timestamp × MVCCValue))
    (h : getOutcome o (fun ts => readVersion o range k (ks.atOrBelow ts)) k inconsistent ks.metadata =
      readVersion o range k tv) : ∃ v, mvccGet range k o inconsistent ks = .ok v := by
  have hok := readVersion_ok o range k tv
  unfold mvccGet
  rw [h]
  cases hread : readVersion o range k tv with
  | skip => exact ⟨_, rfl⟩
  | emit kv => exact ⟨_, rfl⟩
  | conflict m => simp [hread, Outcome.conflicts] at hok
  | fail err => simp [hread, Outcome.failed] at hok

variable (range k) in
theorem mvccGet_implicit (hm : ks.metadata = none) (o : ScanOptions) : ∃ v, mvccGet range k o false ks = .ok v := by
  refine mvccGet_of_readVersion (ks.atOrBelow o.ts) ?_
  rw [hm, getOutcome]

theorem mvccGetCommitted_intent {m : MVCCMetadata} {t : TxnMeta} (hm : ks.metadata = some m) (hraw : m.rawBytes = [])
    (ht : m.txn = some t) (ts : Timestamp) : ∃ v, mvccGetCommitted range k ts ks = .ok v := by
  by_cases hle : m.timestamp ≤ ts
  · refine mvccGet_of_readVersion (ks.atOrBelow (m.timestamp - 1)) ?_
    simp [getOutcome, hm, hraw, ht, getOptions, hle]
  · refine mvccGet_of_readVersion (ks.atOrBelow ts) ?_
    simp [getOutcome, metadataOutcome, hm, hraw, ht, getOptions, hle]

/-- An intent that a transaction may overwrite: its own, of an earlier epoch or sequence. -/
def Overwritable (txn : Transaction) (ks : KeyState) : Prop :=
  ∀ m, ks.metadata = some m → m.rawBytes = [] ∧ ∃ t, m.txn = some t ∧ t.id = txn.id ∧
    (t.epoch < txn.epoch ∨ t.epoch = txn.epoch ∧ t.sequence < txn.sequence)

/-- The seek for the version under an intent that a write moves ends on the metadata of the
    next key, and the write fails. -/
def SeekFails (txn : Transaction) (next : NextKey) (ks : KeyState) : Prop :=
  next.state.metadata ≠ none ∧ ∃ m, ks.metadata = some m ∧ m.timestamp = 1 ∧ 1 < txn.writeTimestamp

variable (range k) in
theorem prevOfMoved_ok_iff {m : MVCCMetadata} {txn : Transaction} (hm : ks.metadata = some m) :
    (∃ prev, prevOfMoved range k next ks m txn = .ok prev) ↔ ¬ SeekFails txn next ks := by
  unfold prevOfMoved seekPrev SeekFails
  by_cases hmoved : m.timestamp < txn.writeTimestamp
  · by_cases hone : m.timestamp = 1
    · rw [hone] at hmoved
      cases hnext : next.state.metadata <;> simp [hm, hone, hmoved, putErrorf]
    · simp [hm, hone, hmoved]
  · have hnot : ¬ (m.timestamp = 1 ∧ 1 < txn.writeTimestamp) := fun h => hmoved (h.1 ▸ h.2)
    simp [hm, hmoved, hnot]

variable (sz k) in
theorem overwriteIntent_succeeds {m : MVCCMetadata} {t : TxnMeta} (txn : Transaction) (value : Bytes)
    (hs : ks.Sound range) (hm : ks.metadata = some m) (hraw : m.rawBytes = []) (ht : m.txn = some t)
    (hseek : ¬ SeekFails txn next ks) :
    ∃ p, overwriteIntent sz range k next ks m t txn value none = .ok p ∧ p.value = value := by
  obtain ⟨_, v, older, _, hhist, _⟩ := hs.intent m hm hraw
  have hversion : ks.version m.timestamp = some v := KeyState.version_eq_some_iff.mpr (by simp [hhist])
  obtain ⟨found, hex⟩ : ∃ r, exValOfIntent k ks m t txn = .ok r := by
    unfold exValOfIntent
    rw [hversion]
    split
    · split <;> exact ⟨_, rfl⟩
    · exact ⟨_, rfl⟩
  obtain ⟨exVal, hexVal⟩ : ∃ r, existingValue range k ks txn.readTimestamp found.1 = .ok r := by
    unfold existingValue
    split
    · exact ⟨_, rfl⟩
    · exact mvccGetCommitted_intent hm hraw ht txn.readTimestamp
  obtain ⟨prev, hprev⟩ := (prevOfMoved_ok_iff range k hm).mpr hseek
  refine ⟨pendingOverwrite sz ks m t txn value exVal found.2 prev, ?_, rfl⟩
  simp [overwriteIntent, hex, hexVal, applyValueFn, hprev]

variable (range k) in
theorem putOverVersion_succeeds (m : MVCCMetadata) (readTimestamp writeTimestamp : Timestamp) (value : Bytes)
    (txn : Option Transaction) (hm : ks.metadata = none) : ∃ p,
    putOverVersion range k ks m readTimestamp writeTimestamp value none txn = .ok p ∧ p.value = value := by
  unfold putOverVersion
  split
  · simp only
    obtain ⟨exVal, hget⟩ := mvccGet_implicit range k hm
      (getOptions k (if txn.isNone then max writeTimestamp (m.timestamp + 1) else readTimestamp) true none)
    rw [hget]
    exact ⟨_, rfl, rfl⟩
  · exact ⟨_, rfl, rfl⟩

variable (sz k) in
theorem preparePut_succeeds {txn : Transaction} (value : Bytes) (readTimestamp writeTimestamp : Timestamp)
    (hs : ks.Sound range) (hvalid : ∀ s, range = some s → s.Valid) (htxn : opts.txn = some txn)
    (hintent : Overwritable txn ks) (hseek : ¬ SeekFails txn next ks) : ∃ p,
    preparePut sz range k next ks (mvccGetMetadata sz range k ks) readTimestamp writeTimestamp value none opts =
      .ok (some p) ∧ p.value = value := by
  cases hm : ks.metadata with
  | none =>
    rcases mvccGetMetadata_implicit sz k hm hvalid with ⟨hnone, _⟩ | ⟨f, hf, ht, _⟩
    · rw [hnone]
      exact ⟨_, rfl, rfl⟩
    obtain ⟨p, hp, hvalue⟩ := putOverVersion_succeeds range k f.metadata readTimestamp writeTimestamp value opts.txn hm
    refine ⟨p, ?_, hvalue⟩
    simp only [hf, preparePut, ht, hp]
    rfl
  | some m =>
    obtain ⟨hraw, t, ht, hid, hlater⟩ := hintent m hm
    obtain ⟨p, hp, hvalue⟩ := overwriteIntent_succeeds sz k txn value hs hm hraw ht hseek
    refine ⟨p, ?_, hvalue⟩
    have hepoch : ¬ txn.epoch < t.epoch := by omega
    have hreplay : ¬ (txn.epoch = t.epoch ∧ txn.sequence ≤ t.sequence) := by
      rintro ⟨heq, hle⟩
      rcases hlater with hlt | ⟨_, hlt⟩
      · omega
      · exact absurd hle (not_le.mpr hlt)
    rw [mvccGetMetadata_explicit hm]
    simp only [preparePut, ht, htxn, hid, ne_eq, not_true_eq_false, if_false, hepoch, hreplay, hp]
    rfl

/-- A transaction is not refused a plain write to a key without an intent or with an earlier
    one of its own, unless the seek below that intent fails. -/
theorem mvccPutInternal_succeeds {txn : Transaction} {value : Bytes} (hs : ks.Sound range)
    (hvalid : ∀ s, range = some s → s.Valid) (hk : k ≠ []) (htxn : opts.txn = some txn)
    (hts : txn.readTimestamp ≠ 0) (hintent : Overwritable txn ks) (hseek : ¬ SeekFails txn next ks) :
    ∃ r, mvccPutInternal sz range k next ks txn.readTimestamp value none opts ms = .ok r ∧
      (r.state.history.head?.map (·.2.rawBytes)).getD [] = value := by
  have hfound : ∀ f, mvccGetMetadata sz range k ks = some f → f.metadata.isInline = false := by
    intro f hf
    cases hm : ks.metadata with
    | none =>
      rcases mvccGetMetadata_implicit sz k hm hvalid with ⟨hnone, _⟩ | ⟨f', hf', _, hraw, _⟩
      · rw [hnone] at hf
        cases hf
      rw [hf'] at hf
      cases hf
      simp [MVCCMetadata.isInline, hraw]
    | some m =>
      rw [mvccGetMetadata_explicit hm] at hf
      cases hf
      simp [MVCCMetadata.isInline, (hintent m hm).1]
  obtain ⟨p, hprepare, hvalue⟩ := preparePut_succeeds sz k value txn.readTimestamp txn.writeTimestamp hs hvalid htxn
    hintent hseek
  have hp := preparePut_spec hprepare
  have htop := (hp.target hs hvalid hfound hts txn.read_le_write).onTop
  have hmixed : (mvccGetMetadata sz range k ks).any (fun f => false != f.metadata.isInline) = false := by
    cases hf : mvccGetMetadata sz range k ks with
    | none => rfl
    | some f => simp [hfound f hf]
  obtain ⟨r, hr⟩ : ∃ r, writeVersion sz k ks (mvccGetMetadata sz range k ks) p opts ms = .ok r := by
    have hforward : max txn.writeTimestamp p.writeTimestamp = p.writeTimestamp := max_eq_right (hp.forward htxn)
    simp only [writeVersion, putMetadata, htxn, Option.map_some, Transaction.metaAt, hforward, ne_eq,
      not_true_eq_false, if_false]
    exact ⟨_, rfl⟩
  refine ⟨r, ?_, ?_⟩
  · simp only [mvccPutInternal, hk, if_false, htxn, Option.isNone_some, Bool.false_eq_true, and_false, hmixed, hts,
      decide_false, Option.any_some, ne_eq, not_true_eq_false, Option.map_some, Option.getD_some, hprepare, hr]
  have hhist : r.state.history = (p.writeTimestamp, versionValue p.value p.writeTimestamp opts) :: ks.committed := by
    rw [writeVersion_eq hr]
    exact htop.entries _
  rw [hhist]
  simp only [List.head?_cons, Option.map_some, versionValue]
  split <;> exact hvalue

end

end

/-! Engines. -/

namespace Engine
variable {e : Engine} {k : Bytes} {ks : KeyState}

@[simp] theorem setKey_ranges (e : Engine) (k : Bytes) (ks : KeyState) : (e.setKey k ks).ranges = e.ranges := rfl

theorem get_setKey (e : Engine) (k k' : Bytes) (ks : KeyState) : (e.setKey k ks).keys.get k' =
    if k' = k then (if ks.metadata = none ∧ ks.history = [] then none else some ks) else e.keys.get k' := by
  unfold setKey
  by_cases hempty : ks.metadata = none ∧ ks.history = []
  · simp only [hempty, and_self, if_true, Store.get_del]
    split <;> rfl
  · simp only [hempty, if_false, Store.get_put]
    split <;> rfl

theorem keyState_setKey (e : Engine) (k : Bytes) (ks : KeyState) : (e.setKey k ks).keyState k = ks := by
  rw [keyState, get_setKey, if_pos rfl]
  split
  · rename_i hempty
    obtain ⟨metadata, versions, hasc⟩ := ks
    obtain ⟨rfl, hhist⟩ := hempty
    subst hhist
    rfl
  · rfl

theorem keyState_setKey_of_ne (e : Engine) {k k' : Bytes} (hne : k' ≠ k) (ks : KeyState) :
    (e.setKey k ks).keyState k' = e.keyState k' := by
  rw [keyState, get_setKey, if_neg hne, keyState]

theorem Consistent.sound_keyState (he : e.Consistent) (k : Bytes) : (e.keyState k).Sound (e.ranges.at? k) := by
  unfold keyState
  cases hks : e.keys.get k with
  | some ks => exact (he.key k ks hks).toSound
  | none => exact ⟨fun _ h => absurd h List.not_mem_nil, by simp, by simp⟩

theorem Consistent.setKey (he : e.Consistent) (hk : k ≠ []) (hs : ks.Sound (e.ranges.at? k)) :
    (e.setKey k ks).Consistent := by
  have hget : ∀ k' ks', (e.setKey k ks).keys.get k' = some ks' → e.keys.get k' = some ks' ∨
      k' = k ∧ ks' = ks ∧ ¬ (ks.metadata = none ∧ ks.history = []) := by
    intro k' ks' h
    rw [get_setKey] at h
    split at h
    · rename_i hk'
      split at h
      · cases h
      rename_i hne
      cases h
      exact .inr ⟨hk', rfl, hne⟩
    · exact .inl h
  refine ⟨fun k' ks' h => ?_, fun k' ks' h => ?_⟩
  · rcases hget k' ks' h with h | ⟨rfl, _⟩
    · exact he.nonempty k' ks' h
    · exact hk
  rcases hget k' ks' h with h | ⟨rfl, rfl, hne⟩
  · exact he.key k' ks' h
  · exact ⟨hs, fun hm hh => hne ⟨hm, hh⟩⟩

theorem valid_range (e : Engine) {k : Bytes} {s : RangeKeyStack} (h : e.ranges.at? k = some s) : s.Valid :=
  e.ranges.valid s (e.ranges.at?_eq_some_iff.mp h).1

/-- The iterator of a get sees one key. -/
theorem key_of_mem_stops {p : MVCCKey} (h : p ∈ (e.source k (k ++ [0])).stops) : p.key = k := by
  have hb : inBounds k (k ++ [0]) p.key = true := by
    rcases (mem_sourceStops p).mp h with hp | ⟨_, s, hs, _⟩
    · exact (source_isPoint hp).1
    · exact (sourceRangeAt_eq_some_iff.mp hs).choose_spec.2.2.2
  obtain ⟨hle, hlt⟩ := inBounds_iff.mp hb
  exact le_antisymm (lt_append_zero_iff.mp hlt) hle

theorem getOutcome_source (he : e.Consistent) (o : ScanOptions) (inconsistent : Bool) :
    getOutcome o (readAt o (e.source k (k ++ [0])) k) k inconsistent
        (((e.source k (k ++ [0])).point ⟨k, 0⟩).bind Record.metadata?) =
      getOutcome o (fun ts => readVersion o (e.ranges.at? k) k ((e.keyState k).atOrBelow ts)) k inconsistent
        (e.keyState k).metadata := by
  have hb : inBounds k (k ++ [0]) k = true := inBounds_iff.mpr ⟨le_rfl, lt_append_zero_iff.mpr le_rfl⟩
  rw [funext (readAt_source hb rfl (he.sound_keyState k).positive), source_point_key hb rfl]
  cases (e.keyState k).metadata with
  | none | some m => simp [Record.metadata?]

/-- A read that ignores intents does not conflict. -/
theorem getOutcome_inconsistent {o : ScanOptions} {range : Option RangeKeyStack} {m : MVCCMetadata} :
    getOutcome o (fun ts => readVersion o range k (ks.atOrBelow ts)) k true ks.metadata ≠ .conflict m := by
  have hread : ∀ ts, readVersion o range k (ks.atOrBelow ts) ≠ .conflict m := fun ts h => by
    have hok := readVersion_ok o range k (ks.atOrBelow ts)
    simp [h, Outcome.conflicts] at hok
  cases ks.metadata with
  | none => exact hread _
  | some m' =>
    simp only [getOutcome, metadataOutcome, ownIntentOutcome]
    grind

/-- The first pair that a get adds is its result. -/
theorem add_get {ts : Timestamp} {tombstones : Bool} {txn : Option Transaction} {kv : KV} {out : Out}
    (hkvs : out.kvs = []) (hreason : out.resumeReason = none) : (add (getOptions k ts tombstones txn) kv out).1 =
      if kv.value = [] ∧ tombstones = false then out else { out with kvs := [kv], resumeReason := some .keyLimit } := by
  cases tombstones <;> by_cases hv : kv.value = [] <;>
    simp [add, exceed, putResult, getOptions, ScanOptions.wholeRows, hkvs, hreason, hv]

/-- The scanner of a get returns what the records of the key give. -/
theorem mvccGet_eq (he : e.Consistent) (ts : Timestamp) (tombstones : Bool) (txn : Option Transaction)
    (inconsistent : Bool) (parent : Cursor MVCCKey) (changed : Bool) {iters : Nat} (hiters : iters ≤ 10) :
    getResult inconsistent (get (getOptions k ts tombstones txn) (e.source k (k ++ [0])) inconsistent
        (.init parent changed iters)) =
      mvccGet (e.ranges.at? k) k (getOptions k ts tombstones txn) inconsistent (e.keyState k) := by
  have hb : inBounds k (k ++ [0]) k = true := inBounds_iff.mpr ⟨le_rfl, lt_append_zero_iff.mpr le_rfl⟩
  have hsaved : ((e.source k (k ++ [0])).rangeAt k).bind (·.firstAtOrBelow ts) =
      (e.ranges.at? k).bind (·.firstAtOrBelow ts) := by
    rw [source_rangeAt hb]
    cases e.ranges.at? k <;> rfl
  have hstops : ∀ p ∈ (e.source k (k ++ [0])).stops, p.key = k := fun p hp => key_of_mem_stops hp
  obtain ⟨intents, hintents, hget⟩ := get_eq (o := getOptions k ts tombstones txn) inconsistent rfl hstops
    parent changed hiters
  have ho : (getOptions k ts tombstones txn).start = k ∧ (getOptions k ts tombstones txn).ts = ts ∧
      (getOptions k ts tombstones txn).tombstones = tombstones ∧ (getOptions k ts tombstones txn).maxIntents = 0 :=
    ⟨rfl, rfl, rfl, rfl⟩
  rw [hget, mvccGet]
  simp only [ho, getOutcome_source he, hsaved]
  generalize (e.ranges.at? k).bind (·.firstAtOrBelow ts) = saved
  have hout : (if inconsistent then none else intents.head?) = none := by
    cases inconsistent with
    | true => rfl
    | false => simp [hintents rfl]
  cases hoc : getOutcome (getOptions k ts tombstones txn)
      (fun t => readVersion (getOptions k ts tombstones txn) (e.ranges.at? k) k ((e.keyState k).atOrBelow t)) k
      inconsistent (e.keyState k).metadata with
  | skip =>
    cases tombstones <;> cases saved <;>
      simp [applyOutcome, addSaved, getResult, add_get, syntheticKV, Out.empty, hout, ho]
  | emit kv =>
    rw [applyOutcome, add_get rfl rfl]
    cases tombstones <;> cases saved <;> by_cases hv : kv.value = [] <;>
      simp [addSaved, getResult, Out.empty, hout, hv]
  | conflict m =>
    cases inconsistent with
    | true => exact absurd hoc getOutcome_inconsistent
    | false =>
      cases tombstones <;> cases saved <;>
        simp [applyOutcome, addIntent, addSaved, getResult, add_get, Out.empty, hintents, ho]
  | fail err =>
    cases tombstones <;> cases saved <;> simp [applyOutcome, addSaved, getResult]

end Engine

end Ratel.Storage
