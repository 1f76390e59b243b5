import Ratel.Storage.OwnWrites
import Ratel.Storage.Resolve

/- What resolving an intent does. The metadata of an intent is kept in step with its
   provisional value, and its history is in the order of the sequence numbers
   (`KeyState.WellFormed`). So rolling sequence numbers back uncovers the highest write that
   still counts, and a resolution ends in one of three ways (`Resolution`): the intent is
   removed, it is left alone, or that write is put on top of the committed versions, as a
   version of its own or as the provisional value of the intent. -/
namespace Ratel.Storage

open Encoding Keys Lib List KeyState

/-! Intents in step with their values. -/

/-- The metadata of an intent describes its provisional value. -/
structure IntentOk (sz : Sizes) (m : MVCCMetadata) (t : TxnMeta) (v : MVCCValue) : Prop where
  txn : m.txn = some t
  versioned : m.rawBytes = []
  timestamp : t.writeTimestamp = m.timestamp
  keyBytes : m.keyBytes = versionTimestampSize
  valBytes : m.valBytes = encodedMVCCValueSize sz v
  deleted : m.deleted = v.isTombstone
  sorted : m.intentHistory.Pairwise fun a b => a.sequence < b.sequence
  earlier : ∀ w ∈ m.intentHistory, w.sequence < t.sequence

structure KeyState.WellFormed (sz : Sizes) (range : Option RangeKeyStack) (ks : KeyState) : Prop
    extends ks.Sound range where
  described : ∀ m, ks.metadata = some m → m.rawBytes = [] → ∃ t v,
    ks.history = (m.timestamp, v) :: ks.committed ∧ IntentOk sz m t v
  plain : ∀ m, ks.metadata = some m → m.rawBytes ≠ [] → m = { MVCCMetadata.reset with rawBytes := m.rawBytes }

/-- An engine as puts and resolutions leave it. -/
structure Engine.WellFormed (sz : Sizes) (e : Engine) : Prop extends e.Consistent where
  keyState : ∀ k, (e.keyState k).WellFormed sz (e.ranges.at? k)

section
variable {sz : Sizes} {range : Option RangeKeyStack} {k : Bytes} {ks : KeyState} {m : MVCCMetadata} {t : TxnMeta}
  {v : MVCCValue}

/-- An intent on top of a key's versions and above the range tombstones over it. -/
structure KeyState.HasIntent (sz : Sizes) (range : Option RangeKeyStack) (ks : KeyState) (m : MVCCMetadata) (t : TxnMeta)
    (v : MVCCValue) : Prop extends IntentOk sz m t v where
  metadata : ks.metadata = some m
  history : ks.history = (m.timestamp, v) :: ks.committed
  range : ∀ s, range = some s → s.newest < m.timestamp

theorem KeyState.WellFormed.hasIntent (hwf : ks.WellFormed sz range) (hm : ks.metadata = some m)
    (hraw : m.rawBytes = []) : ∃ t v, ks.HasIntent sz range m t v := by
  obtain ⟨t, v, hhist, hok⟩ := hwf.described m hm hraw
  obtain ⟨_, _, _, _, _, hrange⟩ := hwf.intent m hm hraw
  exact ⟨t, v, hok, hm, hhist, hrange⟩

theorem KeyState.wellFormed_of_no_metadata (hm : ks.metadata = none) (hpos : ∀ e ∈ ks.history, 0 < e.1) :
    ks.WellFormed sz range :=
  ⟨⟨hpos, by simp [hm], by simp [hm]⟩, by simp [hm], by simp [hm]⟩

/-- A key with an intent on top. -/
theorem KeyState.wellFormed_of_intent (hm : ks.metadata = some m) {older : List (Timestamp × MVCCValue)}
    (hhist : ks.history = (m.timestamp, v) :: older) (hok : IntentOk sz m t v) (hpos : ∀ e ∈ ks.history, 0 < e.1)
    (hrange : ∀ s, range = some s → s.newest < m.timestamp) : ks.WellFormed sz range where
  positive := hpos
  intent m' hm' _ := by
    cases hm.symm.trans hm'
    exact ⟨t, v, older, hok.txn, hhist, hrange⟩
  inline m' hm' hne := by
    cases hm.symm.trans hm'
    exact absurd hok.versioned hne
  described m' hm' _ := by
    cases hm.symm.trans hm'
    exact ⟨t, v, by simp [committed, hm, hhist], hok⟩
  plain m' hm' hne := by
    cases hm.symm.trans hm'
    exact absurd hok.versioned hne

/-! Puts. -/

theorem HistoryKept.ordered {txn : Transaction} {history : List SequencedIntent}
    (h : HistoryKept ks m t txn history) (hok : IntentOk sz m t v)
    (hlater : t.epoch < txn.epoch ∨ t.epoch = txn.epoch ∧ t.sequence < txn.sequence) :
    (history.Pairwise fun a b => a.sequence < b.sequence) ∧ ∀ w ∈ history, w.sequence < txn.sequence := by
  have hsame : txn.epoch = t.epoch → t.sequence < txn.sequence := by
    intro heq
    rcases hlater with hlt | ⟨_, hlt⟩
    · omega
    · exact hlt
  cases h with
  | otherEpoch _ | dropped _ _ _ => exact ⟨.nil, by simp⟩
  | kept heq _ => exact ⟨hok.sorted, fun w hw => (hok.earlier w hw).trans (hsame heq)⟩
  | added heq _ _ =>
    exact ⟨pairwise_append.mpr ⟨hok.sorted, pairwise_singleton _ _, fun a ha =>
        forall_mem_singleton.mpr (hok.earlier a ha)⟩,
      forall_mem_append.mpr ⟨fun w hw => (hok.earlier w hw).trans (hsame heq), forall_mem_singleton.mpr (hsame heq)⟩⟩

variable {next : NextKey} {timestamp : Timestamp} {opts : WriteOptions} {ms : MVCCStats} {r : PutResult}

theorem PutTarget.ordered {txn : Transaction} {p : Pending} (hwf : ks.WellFormed sz range)
    (hp : PutTarget sz range k next ks opts p) (htxn : opts.txn = some txn) :
    (p.intentHistory.Pairwise fun a b => a.sequence < b.sequence) ∧ ∀ w ∈ p.intentHistory, w.sequence < txn.sequence := by
  cases hp with
  | versions _ _ _ _ hnil => simp [hnil]
  | intent hm hraw ht htxn' hlater _ _ _ hp =>
    rw [htxn] at htxn'
    cases htxn'
    obtain ⟨t', v', _, hok⟩ := hwf.described _ hm hraw
    cases ht.symm.trans hok.txn
    exact hp.history.ordered hok hlater

theorem Written.wellFormed {p : Pending} (hwf : ks.WellFormed sz range) (hp : PutTarget sz range k next ks opts p)
    (hforward : ∀ txn, opts.txn = some txn → txn.writeTimestamp ≤ p.writeTimestamp)
    (h : Written sz range k ks opts ms p r) : r.state.WellFormed sz range := by
  have hsound := h.sound hwf.toSound
  cases htxn : opts.txn with
  | none => exact wellFormed_of_no_metadata (by rw [h.metadata, htxn]; rfl) hsound.positive
  | some txn =>
    have hm : r.state.metadata = some
        (putMetadata sz p ((mvccGetMetadata sz range k ks).bind (·.metadata.txn)).isSome opts) := by
      rw [h.metadata, htxn]
      rfl
    obtain ⟨hsorted, hearlier⟩ := hp.ordered hwf htxn
    refine wellFormed_of_intent hm h.history (t := txn.metaAt p.writeTimestamp) ?_ hsound.positive h.onTop.range
    exact ⟨by simp [putMetadata, htxn], rfl, max_eq_right (hforward txn htxn), rfl, rfl, rfl, hsorted, hearlier⟩

/-- What an inline put leaves: an inline value, or nothing. -/
theorem putInline_spec {found : Option FoundMetadata} {value : Bytes} {valueFn : Option ValueFn}
    (h : putInline sz range k ks found value valueFn opts ms = .ok r) :
    ∃ value : Bytes, r.state = ⟨if value = [] then none else some { MVCCMetadata.reset with rawBytes := value }, ks.versions⟩ ∧
      r.stats = updateStatsForInline ms ((found.map (·.keyBytes)).getD 0 : Nat) ((found.map (·.valBytes)).getD 0 : Nat)
        (if value = [] then 0 else encodedMVCCKeyPrefixLength k)
        (if value = [] then 0 else sz.metadata { MVCCMetadata.reset with rawBytes := value }) := by
  unfold putInline at h
  split at h
  · cases h
  cases hvalue : maybeGetValue range k value found.isSome 0 valueFn ks with
  | error err =>
    rw [hvalue] at h
    cases h
  | ok value' =>
    rw [hvalue] at h
    refine ⟨value', ?_⟩
    by_cases hempty : value' = []
    · subst hempty
      cases h
      simp
    have hr : r = ⟨{ ks with metadata := some { MVCCMetadata.reset with rawBytes := value' } }, found.isSome, false,
        updateStatsForInline ms ((found.map (·.keyBytes)).getD 0 : Nat) ((found.map (·.valBytes)).getD 0 : Nat)
          (encodedMVCCKeyPrefixLength k) (sz.metadata { MVCCMetadata.reset with rawBytes := value' })⟩ := by
      simpa [hempty, bind, Except.bind, pure, Except.pure] using h.symm
    rw [hr]
    simp [hempty]

theorem KeyState.WellFormed.found_inline (hwf : ks.WellFormed sz range) (hvalid : ∀ s, range = some s → s.Valid)
    (hfound : ∀ f, mvccGetMetadata sz range k ks = some f → f.metadata.isInline = true) :
    ks.history = [] ∧ (ks.metadata = none → mvccGetMetadata sz range k ks = none) ∧
      ∀ m, ks.metadata = some m → m.rawBytes ≠ [] := by
  cases hm : ks.metadata with
  | none =>
    rcases mvccGetMetadata_implicit sz k hm hvalid with ⟨hnone, hhist, _⟩ | ⟨f, hf, _, hraw, _⟩
    · exact ⟨hhist, fun _ => hnone, by simp⟩
    · have := hfound f hf
      simp [MVCCMetadata.isInline, hraw] at this
  | some m =>
    have hraw : m.rawBytes ≠ [] := by
      have := hfound _ (mvccGetMetadata_explicit hm)
      simpa [MVCCMetadata.isInline] using this
    refine ⟨hwf.inline m hm hraw, by simp, fun m' hm' => ?_⟩
    cases hm'
    exact hraw

theorem mvccPutInternal_wellFormed {value : Bytes} {valueFn : Option ValueFn} (hwf : ks.WellFormed sz range)
    (hvalid : ∀ s, range = some s → s.Valid)
    (h : mvccPutInternal sz range k next ks timestamp value valueFn opts ms = .ok r) :
    r.state.WellFormed sz range := by
  cases mvccPutInternal_cases h with
  | replay => exact hwf
  | inline hts hfound hput =>
    obtain ⟨hhist, _, _⟩ := hwf.found_inline hvalid hfound
    obtain ⟨value', hstate, _⟩ := putInline_spec hput
    have hhist' : r.state.history = [] := by rw [hstate]; exact hhist
    by_cases hempty : value' = []
    · exact wellFormed_of_no_metadata (by simp [hstate, hempty]) (by simp [hhist'])
    have hm : r.state.metadata = some { MVCCMetadata.reset with rawBytes := value' } := by simp [hstate, hempty]
    refine ⟨⟨by simp [hhist'], fun m hm' hraw => ?_, fun m _ _ => hhist'⟩, fun m hm' hraw => ?_, fun m hm' _ => ?_⟩
    · cases hm.symm.trans hm'
      exact absurd hraw hempty
    · cases hm.symm.trans hm'
      exact absurd hraw hempty
    · cases hm.symm.trans hm'
      rfl
  | writes hts hfound hread hp hr =>
    have htarget := hp.target hwf.toSound hvalid hfound hts (le_writeTimestamp hread)
    refine (htarget.written hr).wellFormed hwf htarget fun txn htxn => ?_
    simp only [htxn, Option.map_some] at hp
    exact hp.forward htxn

/-! Rolling sequence numbers back. -/

def intentWrites (m : MVCCMetadata) (t : TxnMeta) (v : MVCCValue) : List SequencedIntent :=
  m.intentHistory ++ [⟨t.sequence, v⟩]

def lastLive (ignored : List IgnoredSeqNumRange) (writes : List SequencedIntent) : Option SequencedIntent :=
  writes.reverse.find? fun w => !txnSeqIsIgnored w.sequence ignored

/-- The metadata of an intent whose provisional value is an earlier write again. -/
def restoredMetadata (sz : Sizes) (m : MVCCMetadata) (t : TxnMeta) (w : SequencedIntent)
    (earlier : List SequencedIntent) : MVCCMetadata :=
  { m with
    txn := some { t with sequence := w.sequence }
    intentHistory := earlier
    deleted := w.value.isTombstone
    valBytes := encodedMVCCValueSize sz w.value }

theorem restoreFrom_spec (ignored : List IgnoredSeqNumRange) (m : MVCCMetadata) (t : TxnMeta) :
    ∀ rev : List SequencedIntent,
    (rev.find? (fun w => !txnSeqIsIgnored w.sequence ignored) = none ∧ restoreFrom sz ignored m t rev = .remove) ∨
    ∃ w earlier later, rev.find? (fun w => !txnSeqIsIgnored w.sequence ignored) = some w ∧ rev = later ++ w :: earlier ∧
      restoreFrom sz ignored m t rev = .restored w.value (restoredMetadata sz m t w earlier.reverse)
  | [] => .inl ⟨rfl, rfl⟩
  | w :: rev => by
    cases hw : txnSeqIsIgnored w.sequence ignored with
    | false => exact .inr ⟨w, rev, [], by simp [hw], rfl, by simp [restoreFrom, hw, restoredMetadata]⟩
    | true =>
      rcases restoreFrom_spec ignored m t rev with ⟨hnone, hr⟩ | ⟨w', earlier, later, hsome, hrev, hr⟩
      · exact .inl ⟨by simp [hw, hnone], by simp [restoreFrom, hw, hr]⟩
      · exact .inr ⟨w', earlier, w :: later, by simp [hw, hsome], by simp [hrev], by simp [restoreFrom, hw, hr]⟩

/-- Every way a rollback can end, with the write that is the last to count. -/
inductive Rewritten (sz : Sizes) (ignored : List IgnoredSeqNumRange) (m : MVCCMetadata) (t : TxnMeta) (v : MVCCValue) :
    Rewrite → Prop
  | unchanged (hlive : lastLive ignored (intentWrites m t v) = some ⟨t.sequence, v⟩) :
      Rewritten sz ignored m t v .unchanged
  | remove (hlive : lastLive ignored (intentWrites m t v) = none) : Rewritten sz ignored m t v .remove
  | restored {w : SequencedIntent} {earlier later : List SequencedIntent}
      (hlive : lastLive ignored (intentWrites m t v) = some w) (hhist : m.intentHistory = earlier ++ w :: later) :
      Rewritten sz ignored m t v (.restored w.value (restoredMetadata sz m t w earlier))

variable (sz v) in
theorem mvccMaybeRewriteIntentHistory_spec (ignored : List IgnoredSeqNumRange) (m : MVCCMetadata) (t : TxnMeta) :
    Rewritten sz ignored m t v (mvccMaybeRewriteIntentHistory sz ignored m t) := by
  unfold mvccMaybeRewriteIntentHistory
  cases ht : txnSeqIsIgnored t.sequence ignored with
  | false => exact .unchanged (by simp [lastLive, intentWrites, ht])
  | true =>
    have hlast : lastLive ignored (intentWrites m t v) =
        m.intentHistory.reverse.find? fun w => !txnSeqIsIgnored w.sequence ignored := by
      simp [lastLive, intentWrites, ht]
    simp only [not_true_eq_false, if_false]
    rcases restoreFrom_spec ignored m t m.intentHistory.reverse with ⟨hnone, hr⟩ | ⟨w, earlier, later, hsome, hrev, hr⟩
    · rw [hr]
      exact .remove (hlast.trans hnone)
    rw [hr]
    have hhist : m.intentHistory = earlier.reverse ++ w :: later.reverse := by
      rw [← reverse_reverse m.intentHistory, hrev]
      simp
    exact .restored (hlast.trans hsome) hhist

/-- The metadata after a rollback describes the restored value. -/
theorem IntentOk.restored (hok : IntentOk sz m t v) {w : SequencedIntent} {earlier later : List SequencedIntent}
    (hhist : m.intentHistory = earlier ++ w :: later) :
    IntentOk sz (restoredMetadata sz m t w earlier) { t with sequence := w.sequence } w.value := by
  have hsorted := hok.sorted
  rw [hhist] at hsorted
  obtain ⟨hearlier, _, hlt⟩ := pairwise_append.mp hsorted
  exact ⟨rfl, hok.versioned, hok.timestamp, hok.keyBytes, rfl, rfl, hearlier, fun x hx => hlt x hx w mem_cons_self⟩

/-! Updating an intent. -/

theorem movedValue_rawBytes (v : MVCCValue) (oldTS newTS clock : Timestamp) (writeLocalTimestamps : Bool) :
    (movedValue v oldTS newTS clock writeLocalTimestamps).rawBytes = v.rawBytes := by
  unfold movedValue
  simp only
  split <;> rfl

theorem IntentOk.moved (hok : IntentOk sz m t v) (newTS : Timestamp) (v' : MVCCValue) :
    IntentOk sz (movedMetadata sz m newTS v') { t with writeTimestamp := newTS } v' :=
  ⟨by simp [movedMetadata, hok.txn], hok.versioned, rfl, rfl, rfl, rfl, hok.sorted, hok.earlier⟩

/-- An intent that was committed or stays, with a value on top of the committed versions. -/
structure Updated (sz : Sizes) (range : Option RangeKeyStack) (k : Bytes) (ks : KeyState) (orig : MVCCMetadata)
    (newTS : Timestamp) (commit : Bool) (ms : MVCCStats) (new : MVCCMetadata) (t : TxnMeta) (v : MVCCValue)
    (r : ResolveResult) : Prop where
  ok : IntentOk sz new t v
  timestamp : new.timestamp = newTS
  history : r.state.history = (newTS, v) :: ks.committed
  metadata : r.state.metadata = if commit then none else some new
  stats : r.stats = ms.add (updateStatsOnResolve
    (if orig.timestamp < newTS then prevVersion range ks orig.timestamp else none).isSome
    (((if orig.timestamp < newTS then prevVersion range ks orig.timestamp else none).map
      (encodedMVCCValueSize sz)).getD 0 : Nat)
    (encodedMVCCKeyPrefixLength k) (sz.metadata orig) (encodedMVCCKeyPrefixLength k)
    (if commit then 0 else sz.metadata new) orig new commit)

variable (sz k) in
theorem finishUpdate_spec (versions : Store Timestampᵒᵈ MVCCValue) (orig : MVCCMetadata) {new : MVCCMetadata}
    (prev : Option MVCCValue) (commit : Bool) (ms : MVCCStats) (hok : IntentOk sz new t v) :
    ∃ r new', finishUpdate sz k versions orig new prev commit ms = .ok r ∧ IntentOk sz new' t v ∧
      new'.timestamp = new.timestamp ∧ new'.intentHistory = new.intentHistory ∧ r.state.versions = versions ∧
      r.state.metadata = (if commit then none else some new') ∧
      r.stats = ms.add (updateStatsOnResolve prev.isSome ((prev.map (encodedMVCCValueSize sz)).getD 0 : Nat)
        (encodedMVCCKeyPrefixLength k) (sz.metadata orig) (encodedMVCCKeyPrefixLength k)
        (if commit then 0 else sz.metadata new') orig new' commit) := by
  unfold finishUpdate
  cases commit with
  | true => exact ⟨_, new, rfl, hok, rfl, rfl, rfl, rfl, rfl⟩
  | false =>
    have hsync : (new.txn.any fun t => decide (new.timestamp ≠ t.writeTimestamp)) = false := by
      simp [hok.txn, hok.timestamp]
    simp only [Bool.false_eq_true, if_false, hsync]
    refine ⟨_, { new with txnDidNotUpdateMeta := false }, rfl, ?_, rfl, rfl, rfl, rfl, rfl⟩
    exact ⟨hok.txn, hok.versioned, hok.timestamp, hok.keyBytes, hok.valBytes, hok.deleted, hok.sorted, hok.earlier⟩

variable (range k) in
/-- The value that is written, in the terms of the one the intent holds or is rolled back to. -/
theorem updateIntent_spec {orig new : MVCCMetadata} (rolledBack : Option MVCCValue) {newTS : Timestamp} (commit : Bool)
    (clock : Timestamp) (writeLocalTimestamps : Bool) (ms : MVCCStats)
    (hhist : ks.history = (orig.timestamp, v) :: ks.committed) (hok : IntentOk sz new t (rolledBack.getD v))
    (hsame : new.timestamp = orig.timestamp) (hle : orig.timestamp ≤ newTS) :
    ∃ r new' t' v', updateIntent sz range k ks orig new rolledBack newTS (decide (orig.timestamp < newTS)) commit clock
        writeLocalTimestamps ms = .ok r ∧ Updated sz range k ks orig newTS commit ms new' t' v' r ∧
      v'.rawBytes = (rolledBack.getD v).rawBytes ∧ t'.id = t.id ∧ t'.epoch = t.epoch ∧ t'.sequence = t.sequence ∧
      new'.intentHistory = new.intentHistory := by
  have hversions : (restoredVersions ks orig.timestamp rolledBack).entries =
      (OrderDual.toDual orig.timestamp, rolledBack.getD v) :: ks.committed := by
    cases rolledBack with
    | some w => exact Store.entries_put_head hhist w
    | none => exact hhist
  have hbelow : ∀ e ∈ ks.committed, e.1 < orig.timestamp := by
    have hdesc := ks.history_descending
    rw [hhist] at hdesc
    exact (pairwise_cons.mp hdesc).1
  unfold updateIntent
  simp only [if_neg (not_lt.mpr hle)]
  by_cases hchanged : orig.timestamp < newTS
  · -- The value is written at the new timestamp and cleared at the old one.
    have hversion : ks.version orig.timestamp = some v := KeyState.version_eq_some_iff.mpr (by simp [hhist])
    simp only [hchanged, decide_true, if_true, hversion]
    set v' := movedValue (rolledBack.getD v) orig.timestamp newTS clock writeLocalTimestamps
    obtain ⟨r, new', hr, hok', hts, hhistory, hstate, hmeta, hstats⟩ := finishUpdate_spec sz k
      (((restoredVersions ks orig.timestamp rolledBack).put (OrderDual.toDual newTS) v').del
        (OrderDual.toDual orig.timestamp))
      orig (prevVersion range ks orig.timestamp) commit ms (hok.moved newTS v')
    refine ⟨r, new', _, v', hr, ⟨hok', hts, ?_, hmeta, ?_⟩, movedValue_rawBytes _ _ _ _ _, rfl, rfl, rfl, hhistory⟩
    · have hne : OrderDual.toDual newTS ≠ OrderDual.toDual orig.timestamp := fun h => hchanged.ne' (OrderDual.toDual_inj.mp h)
      have hdel := Store.entries_del_head hversions
      have hlt : ∀ e ∈ ((restoredVersions ks orig.timestamp rolledBack).del (OrderDual.toDual orig.timestamp)).entries,
          OrderDual.toDual newTS < e.1 := by
        intro e he
        rw [hdel] at he
        exact OrderDual.toDual_lt_toDual.mpr ((hbelow e he).trans hchanged)
      rw [history, hstate, Store.del_put_of_ne _ hne, Store.entries_put_of_lt hlt, hdel]
      rfl
    · simpa only [hchanged, if_true] using hstats
  · -- The value stays where it is, or is written over.
    have heq : orig.timestamp = newTS := le_antisymm hle (not_lt.mp hchanged)
    simp only [hchanged, decide_false, Bool.false_eq_true, if_false]
    obtain ⟨r, new', hr, hok', hts, hhistory, hstate, hmeta, hstats⟩ := finishUpdate_spec sz k
      (restoredVersions ks orig.timestamp rolledBack) orig none commit ms hok
    refine ⟨r, new', t, rolledBack.getD v, hr, ⟨hok', hts.trans (hsame.trans heq), ?_, hmeta, ?_⟩, rfl, rfl, rfl, rfl,
      hhistory⟩
    · rw [history, hstate, hversions, heq]
      rfl
    · simpa only [hchanged, if_false] using hstats

/-! Resolving. -/

/-- The write of an intent that a lock update leaves, if it leaves one. Sequence numbers of
    another epoch say nothing about the intent's. -/
def liveWrite (update : LockUpdate) (m : MVCCMetadata) (t : TxnMeta) (v : MVCCValue) : Option SequencedIntent :=
  if t.epoch = update.txn.epoch then lastLive update.ignoredSeqNums (intentWrites m t v) else some ⟨t.sequence, v⟩

/-- Whether a lock update lets an intent live on, as a version or as an intent. -/
def LockUpdate.Keeps (update : LockUpdate) (m : MVCCMetadata) (t : TxnMeta) : Prop :=
  (verdict m t update).commit = true ∨ (verdict m t update).inProgress = true

/-- The three ways a resolution by the intent's own transaction ends. -/
inductive Resolution (sz : Sizes) (range : Option RangeKeyStack) (k : Bytes) (ks : KeyState) (m : MVCCMetadata)
    (t : TxnMeta) (v : MVCCValue) (update : LockUpdate) (ms : MVCCStats) : ResolveResult → Prop
  | removed (hwhy : update.Keeps m t → liveWrite update m t v = none) :
      Resolution sz range k ks m t v update ms (removeIntent sz range k ks m ms)
  | untouched (hprogress : (verdict m t update).inProgress = true) (hstays : update.txn.writeTimestamp ≤ m.timestamp)
      (hlive : liveWrite update m t v = some ⟨t.sequence, v⟩) : Resolution sz range k ks m t v update ms ⟨false, ks, ms⟩
  | updated {w : SequencedIntent} {new : MVCCMetadata} {t' : TxnMeta} {v' : MVCCValue} {r : ResolveResult}
      (hkeeps : update.Keeps m t) (hlive : liveWrite update m t v = some w) (hvalue : v'.rawBytes = w.value.rawBytes)
      (hid : t'.id = t.id) (hepoch : t'.epoch = t.epoch)
      (h : Updated sz range k ks m (max update.txn.writeTimestamp m.timestamp) (verdict m t update).commit ms new t' v'
        r) : Resolution sz range k ks m t v update ms r

theorem rewrite_spec (sz : Sizes) (m : MVCCMetadata) (t : TxnMeta) (v : MVCCValue) (update : LockUpdate) {rw : Rewrite}
    (h : rewrite sz m t update = rw) :
    (rw = .unchanged ∧ (update.Keeps m t → liveWrite update m t v = some ⟨t.sequence, v⟩)) ∨
    (update.Keeps m t ∧ rw = .remove ∧ liveWrite update m t v = none) ∨
    ∃ w earlier later, update.Keeps m t ∧ liveWrite update m t v = some w ∧
      m.intentHistory = earlier ++ w :: later ∧ rw = .restored w.value (restoredMetadata sz m t w earlier) := by
  subst h
  unfold rewrite
  simp only
  split
  · rename_i htried
    obtain ⟨_, hkeeps, hepochs⟩ := htried
    have hlive : liveWrite update m t v = lastLive update.ignoredSeqNums (intentWrites m t v) := by
      have hepochs : t.epoch = update.txn.epoch := by simpa [verdict] using hepochs
      rw [liveWrite, if_pos hepochs]
    rw [hlive]
    have hspec := mvccMaybeRewriteIntentHistory_spec sz v update.ignoredSeqNums m t
    generalize mvccMaybeRewriteIntentHistory sz update.ignoredSeqNums m t = rw at hspec ⊢
    cases hspec with
    | unchanged h => exact .inl ⟨rfl, fun _ => h⟩
    | remove h => exact .inr (.inl ⟨hkeeps, rfl, h⟩)
    | restored h hhist => exact .inr (.inr ⟨_, _, _, hkeeps, h, hhist, rfl⟩)
  · rename_i htried
    refine .inl ⟨rfl, fun hkeeps => ?_⟩
    unfold liveWrite
    split
    · rename_i hepochs
      have hnil : update.ignoredSeqNums = [] := by
        by_contra hne
        exact htried ⟨hne, hkeeps, by simpa [verdict] using hepochs⟩
      simp [hnil, lastLive, intentWrites, txnSeqIsIgnored, txnSeqIsIgnored.go]
    · rfl

/-- A resolution by the intent's own transaction never fails. -/
theorem resolveOwn_spec (update : LockUpdate) (writeLocalTimestamps : Bool) (ms : MVCCStats)
    (hi : ks.HasIntent sz range m t v) :
    ∃ r, resolveOwn sz range k ks m t update writeLocalTimestamps ms = .ok r ∧
      Resolution sz range k ks m t v update ms r := by
  unfold resolveOwn
  simp only
  generalize hrw : rewrite sz m t update = rw
  have hchanged : (verdict m t update).timestampChanged =
      decide (m.timestamp < max update.txn.writeTimestamp m.timestamp) := by
    simp [verdict]
  rcases rewrite_spec sz m t v update hrw with ⟨rfl, hlive⟩ | ⟨hkeeps, rfl, hlive⟩ |
    ⟨w, earlier, later, hkeeps, hlive, hhistory, rfl⟩
  · by_cases hprogress : (verdict m t update).inProgress = true ∧ ¬ (verdict m t update).pushed = true
    · rw [if_pos hprogress]
      refine ⟨_, rfl, .untouched hprogress.1 ?_ (hlive (.inr hprogress.1))⟩
      simp only [verdict, Bool.and_eq_true, decide_eq_true_eq, not_and, not_lt] at hprogress
      exact hprogress.2 hprogress.1
    rw [if_neg hprogress]
    by_cases hupdates : (verdict m t update).commit = true ∨ (verdict m t update).pushed = true
    · rw [if_pos hupdates]
      have hkeeps : update.Keeps m t := by
        rcases hupdates with h | h
        · exact .inl h
        · simp only [verdict, Bool.and_eq_true] at h
          exact .inr (by simpa [verdict] using h.1)
      have hle : m.timestamp ≤ update.txn.writeTimestamp := by
        rcases hupdates with h | h
        · simp only [verdict, Bool.and_eq_true, decide_eq_true_eq] at h
          exact h.2
        · simp only [verdict, Bool.and_eq_true, decide_eq_true_eq] at h
          exact h.2.le
      obtain ⟨r, new, t', v', hr, hupdated, hvalue, hid, hepoch, _⟩ := updateIntent_spec range k none
        (verdict m t update).commit update.clockWhilePending writeLocalTimestamps ms hi.history hi.toIntentOk rfl
        (hle.trans (le_max_left _ m.timestamp))
      refine ⟨r, ?_, .updated hkeeps (hlive hkeeps) hvalue hid hepoch hupdated⟩
      rw [hchanged, ← hr, max_eq_left hle]
    · rw [if_neg hupdates]
      refine ⟨_, rfl, .removed fun hkeeps => ?_⟩
      rcases hkeeps with h | h
      · exact absurd (.inl h) hupdates
      · exact absurd ⟨h, fun hpushed => hupdates (.inr hpushed)⟩ hprogress
  · exact ⟨_, rfl, .removed fun _ => hlive⟩
  · obtain ⟨r, new, t', v', hr, hupdated, hvalue, hid, hepoch, _⟩ := updateIntent_spec range k (some w.value)
      (verdict m t update).commit update.clockWhilePending writeLocalTimestamps ms hi.history
      (hi.restored hhistory) rfl (le_max_right update.txn.writeTimestamp m.timestamp)
    refine ⟨r, ?_, .updated hkeeps hlive hvalue hid hepoch hupdated⟩
    rw [← hr, hchanged]

theorem removeIntent_history (k : Bytes) (ms : MVCCStats) (hi : ks.HasIntent sz range m t v) :
    (removeIntent sz range k ks m ms).state.history = ks.committed := Store.entries_del_head hi.history

theorem Resolution.wellFormed {update : LockUpdate} {r : ResolveResult} (hwf : ks.WellFormed sz range)
    (hi : ks.HasIntent sz range m t v)
    (h : Resolution sz range k ks m t v update ms r) : r.state.WellFormed sz range := by
  have hpos : ∀ e ∈ ks.committed, 0 < e.1 := fun e he => hwf.positive e (ks.committed_subset e he)
  have hmpos : 0 < m.timestamp := hwf.positive (m.timestamp, v) (by simp [hi.history])
  cases h with
  | removed hwhy =>
    refine wellFormed_of_no_metadata rfl ?_
    rw [removeIntent_history k ms hi]
    exact hpos
  | untouched => exact hwf
  | updated hkeeps hlive hvalue hid hepoch h =>
    have hle := le_max_right update.txn.writeTimestamp m.timestamp
    have hpos' : ∀ e ∈ r.state.history, 0 < e.1 := by
      rw [h.history]
      exact forall_mem_cons.mpr ⟨lt_of_lt_of_le hmpos hle, hpos⟩
    have hmeta := h.metadata
    split at hmeta
    · exact wellFormed_of_no_metadata hmeta hpos'
    refine wellFormed_of_intent hmeta (h.timestamp ▸ h.history) h.ok hpos' fun s hs => ?_
    rw [h.timestamp]
    exact lt_of_lt_of_le (hi.range s hs) hle

/-- A lock update meets no intent of its transaction, or resolves it. -/
theorem mvccResolveWriteIntent_spec (update : LockUpdate) (writeLocalTimestamps : Bool) (ms : MVCCStats)
    (hwf : ks.WellFormed sz range) :
    ((∀ m t, ks.metadata = some m → m.txn = some t → t.id ≠ update.txn.id) ∧
      mvccResolveWriteIntent sz range k ks update writeLocalTimestamps ms = .ok ⟨false, ks, ms⟩) ∨
    ∃ m t v r, t.id = update.txn.id ∧ ks.HasIntent sz range m t v ∧
      mvccResolveWriteIntent sz range k ks update writeLocalTimestamps ms = .ok r ∧
      Resolution sz range k ks m t v update ms r := by
  unfold mvccResolveWriteIntent
  cases hm : ks.metadata with
  | none => exact .inl ⟨by simp, rfl⟩
  | some m =>
    simp only
    cases ht : m.txn with
    | none =>
      refine .inl ⟨fun m' t hm' ht' => ?_, rfl⟩
      cases hm'
      rw [ht] at ht'
      cases ht'
    | some t =>
      simp only
      by_cases hid : update.txn.id = t.id
      · rw [if_neg (not_not.mpr hid)]
        have hraw : m.rawBytes = [] := by
          by_contra hne
          rw [hwf.plain m hm hne] at ht
          cases ht
        obtain ⟨t', v, hi⟩ := hwf.hasIntent hm hraw
        cases ht.symm.trans hi.txn
        obtain ⟨r, hr, hresolution⟩ := resolveOwn_spec update writeLocalTimestamps ms hi
        exact .inr ⟨m, t, v, r, hid.symm, hi, hr, hresolution⟩
      · rw [if_pos hid]
        refine .inl ⟨fun m' t' hm' ht' => ?_, rfl⟩
        cases hm'
        cases ht.symm.trans ht'
        exact fun h => hid h.symm

end

/-! Whole runs. -/

section
variable {sz : Sizes} {e : Engine}

theorem Engine.Consistent.setKey_keyState (he : e.Consistent) (k : Bytes) : e.setKey k (e.keyState k) = e := by
  have hkeys : (e.setKey k (e.keyState k)).keys = e.keys := by
    ext1 k'
    rw [Engine.get_setKey]
    split
    · rename_i hk
      subst hk
      cases hget : e.keys.get k' with
      | none =>
        have hks : e.keyState k' = ⟨none, .empty⟩ := by simp [Engine.keyState, hget]
        rw [hks, if_pos ⟨rfl, rfl⟩]
      | some ks =>
        have hne := (he.key k' ks hget).inhabited
        have hks : e.keyState k' = ks := by simp [Engine.keyState, hget]
        rw [hks, if_neg fun h => hne h.1 h.2]
    · rfl
  simp only [Engine.setKey] at hkeys ⊢
  rw [hkeys]

variable {k : Bytes} {ks : KeyState} {m : MVCCMetadata} {st : Tracked} {ignored : List IgnoredSeqNumRange}
    {t : TxnMeta} {v : MVCCValue}

theorem Engine.WellFormed.setKey (he : e.WellFormed sz) (hk : k ≠ [])
    (hwf : ks.WellFormed sz (e.ranges.at? k)) : (e.setKey k ks).WellFormed sz where
  toConsistent := he.toConsistent.setKey hk hwf.toSound
  keyState k' := by
    by_cases hk' : k' = k
    · subst hk'
      rw [Engine.keyState_setKey]
      exact hwf
    · rw [Engine.keyState_setKey_of_ne e hk']
      exact he.keyState k'

theorem Engine.WellFormed.key_ne_nil (he : e.WellFormed sz) (hm : (e.keyState k).metadata = some m) : k ≠ [] := by
  cases hget : e.keys.get k with
  | none => simp [Engine.keyState, hget] at hm
  | some ks => exact he.nonempty k ks hget

/-- What a call can do to an engine and its statistics. -/
inductive Tracked.Step (sz : Sizes) (st : Tracked) : Op → Tracked → Prop
  | none (op : Op) : Step sz st op st
  | put {k : Bytes} {timestamp : Timestamp} {value : Bytes} {valueFn : Option ValueFn} {opts : WriteOptions}
      {r : PutResult} (hk : k ≠ []) (hput : mvccPutInternal sz (st.engine.ranges.at? k) k (st.engine.nextKey k)
        (st.engine.keyState k) timestamp value valueFn opts st.stats = .ok r) :
      Step sz st (.put k timestamp value valueFn opts) ⟨st.engine.setKey k r.state, r.stats⟩
  | resolve {update : LockUpdate} {writeLocalTimestamps : Bool} {m : MVCCMetadata} {t : TxnMeta} {v : MVCCValue}
      {r : ResolveResult} (hi : (st.engine.keyState update.key).HasIntent sz (st.engine.ranges.at? update.key) m t v)
      (h : Resolution sz (st.engine.ranges.at? update.key) update.key (st.engine.keyState update.key) m t v update
        st.stats r) :
      Step sz st (.resolve update writeLocalTimestamps) ⟨st.engine.setKey update.key r.state, r.stats⟩

/-- A lock update that meets no intent of its transaction changes nothing. -/
theorem Tracked.apply_resolve_of_other (hst : st.engine.WellFormed sz) {update : LockUpdate}
    (writeLocalTimestamps : Bool) (hother : ∀ m t, (st.engine.keyState update.key).metadata = some m →
      m.txn = some t → t.id ≠ update.txn.id) : st.apply sz (.resolve update writeLocalTimestamps) = st := by
  have hspec := mvccResolveWriteIntent_spec (k := update.key) update writeLocalTimestamps st.stats
    (hst.keyState update.key)
  rcases hspec with h | h
  · simp only [Tracked.apply, h.2, hst.setKey_keyState]
  · obtain ⟨m, t, _, _, hid, hi, _⟩ := h
    exact absurd hid (hother m t hi.metadata hi.txn)

theorem Tracked.apply_step (hst : st.engine.WellFormed sz) (op : Op) :
    st.Step sz op (st.apply sz op) := by
  cases op with
  | put k timestamp value valueFn opts =>
    simp only [Tracked.apply]
    split
    · exact .none _
    rename_i r hput
    refine .put (fun hk => ?_) hput
    simp [mvccPutInternal, putErrorf, hk] at hput
  | resolve update writeLocalTimestamps =>
    have hspec := mvccResolveWriteIntent_spec (k := update.key) update writeLocalTimestamps st.stats
      (hst.keyState update.key)
    rcases hspec with h | h
    · rw [st.apply_resolve_of_other hst writeLocalTimestamps h.1]
      exact .none _
    obtain ⟨m, t, v, r, hid, hi, hr, hresolution⟩ := h
    simp only [Tracked.apply, hr]
    exact .resolve hi hresolution

theorem Tracked.Step.wellFormed {st' : Tracked} {op : Op} (hst : st.engine.WellFormed sz) (h : st.Step sz op st') :
    st'.engine.WellFormed sz := by
  cases h with
  | none => exact hst
  | @put k _ _ _ _ _ hk hput =>
    exact hst.setKey hk (mvccPutInternal_wellFormed (hst.keyState k) (fun _ => st.engine.valid_range) hput)
  | @resolve update _ _ _ _ _ hi h =>
    exact hst.setKey (hst.key_ne_nil hi.metadata) (h.wellFormed (hst.keyState update.key) hi)

theorem Tracked.run_wellFormed (hst : st.engine.WellFormed sz) (ops : List Op) :
    (st.run sz ops).engine.WellFormed sz := by
  induction ops generalizing st with
  | nil => exact hst
  | cons op ops ih => exact ih ((st.apply_step hst op).wellFormed hst)

/-! The writes an intent holds. -/

/-- A write of an intent that counts, and that none that counts comes after. -/
def HighestLive (ignored : List IgnoredSeqNumRange) (writes : List SequencedIntent) (w : SequencedIntent) : Prop :=
  w ∈ writes ∧ txnSeqIsIgnored w.sequence ignored = false ∧
    ∀ w' ∈ writes, txnSeqIsIgnored w'.sequence ignored = false → w'.sequence ≤ w.sequence

/-- All writes of an intent are rolled back. -/
def AllIgnored (ignored : List IgnoredSeqNumRange) (writes : List SequencedIntent) : Prop :=
  ∀ w ∈ writes, txnSeqIsIgnored w.sequence ignored = true

theorem lastLive_eq_none_iff {writes : List SequencedIntent} :
    lastLive ignored writes = none ↔ AllIgnored ignored writes := by
  simp [lastLive, AllIgnored]

theorem lastLive_of_highest
    {w : SequencedIntent} (hok : IntentOk sz m t v) (h : HighestLive ignored (intentWrites m t v) w) :
    lastLive ignored (intentWrites m t v) = some w := by
  obtain ⟨hmem, hlive, hhighest⟩ := h
  have hsorted : (intentWrites m t v).Pairwise fun a b => a.sequence < b.sequence :=
    pairwise_append.mpr ⟨hok.sorted, pairwise_singleton _ _, fun a ha => forall_mem_singleton.mpr (hok.earlier a ha)⟩
  exact find?_reverse_of_highest hsorted hmem (by simp [hlive]) fun w' hw' h' => hhighest w' hw' (by simpa using h')

/-- The intent that the writes of an epoch leave holds those of its log that count. -/
theorem Logged.live_intentWrites {id epoch : Nat} {start : KeyState} {log : List (TxnSeq × Bytes)}
    (h : Logged id epoch ignored start ks log) (hlog : log ≠ []) (hm : ks.metadata = some m) (ht : m.txn = some t)
    (hv : ks.version m.timestamp = some v) :
    live ignored ((intentWrites m t v).map SequencedIntent.pair) = live ignored log := by
  cases h with
  | start => exact absurd rfl hlog
  | @wrote _ past last m' t' hcommitted h =>
    cases hm.symm.trans h.metadata
    cases ht.symm.trans h.txn
    obtain ⟨v', hhist, hbytes⟩ := h.newest
    have hv' : ks.version m.timestamp = some v' := KeyState.version_eq_some_iff.mpr (by simp [hhist])
    cases hv.symm.trans hv'
    have hlast : SequencedIntent.pair ⟨t.sequence, v⟩ = last := by
      rw [SequencedIntent.pair, h.sequence, hbytes]
    rw [intentWrites, map_append, map_singleton, hlast, live_append, live_append, h.past]

/-- What a lock update of the intent's own transaction leaves of the key: `gone` when the
    intent is removed, and what it keeps otherwise. -/
structure Resolves (update : LockUpdate) (ks ks' : KeyState) (m : MVCCMetadata) (t : TxnMeta) (v : MVCCValue) :
    Prop where
  /-- A commit leaves the highest write that counts, at the timestamp of the update. -/
  commits : update.status = .committed → t.epoch = update.txn.epoch → m.timestamp ≤ update.txn.writeTimestamp →
    (∀ w, HighestLive update.ignoredSeqNums (intentWrites m t v) w → ks'.metadata = none ∧
      ∃ v', v'.rawBytes = w.value.rawBytes ∧ ks'.history = (update.txn.writeTimestamp, v') :: ks.committed) ∧
    (AllIgnored update.ignoredSeqNums (intentWrites m t v) → ks'.metadata = none ∧ ks'.history = ks.committed)
  /-- Any other finalized update removes the intent. -/
  aborts : update.status.isFinalized = true →
    ¬ (update.status = .committed ∧ t.epoch = update.txn.epoch ∧ m.timestamp ≤ update.txn.writeTimestamp) →
    ks'.metadata = none ∧ ks'.history = ks.committed
  /-- So does one that is not finalized but of a newer epoch, or that rolls back all writes. -/
  drops : update.status.isFinalized = false → t.epoch < update.txn.epoch ∨ t.epoch = update.txn.epoch ∧
      AllIgnored update.ignoredSeqNums (intentWrites m t v) → ks'.metadata = none ∧ ks'.history = ks.committed
  /-- The others keep the intent, and move it only forward. -/
  keeps : update.status.isFinalized = false → update.txn.epoch < t.epoch ∨ t.epoch = update.txn.epoch ∧
      ¬ AllIgnored update.ignoredSeqNums (intentWrites m t v) → ∃ m' t' v', ks'.metadata = some m' ∧
    m'.txn = some t' ∧ t'.id = t.id ∧ t'.epoch = t.epoch ∧
    m'.timestamp = max update.txn.writeTimestamp m.timestamp ∧ ks'.history = (m'.timestamp, v') :: ks.committed ∧
    (t.epoch ≠ update.txn.epoch → v'.rawBytes = v.rawBytes) ∧
    (t.epoch = update.txn.epoch → ∀ w, HighestLive update.ignoredSeqNums (intentWrites m t v) w →
      v'.rawBytes = w.value.rawBytes)

section
variable {update : LockUpdate} {w : SequencedIntent}

theorem verdict_commit_iff : (verdict m t update).commit = true ↔
    update.status = .committed ∧ t.epoch = update.txn.epoch ∧ m.timestamp ≤ update.txn.writeTimestamp := by
  simp [verdict, and_assoc]

theorem verdict_inProgress_iff : (verdict m t update).inProgress = true ↔
    update.status.isFinalized = false ∧ update.txn.epoch ≤ t.epoch := by
  simp [verdict]

theorem liveWrite_of_highest (hok : IntentOk sz m t v) (hepoch : t.epoch = update.txn.epoch)
    (hw : HighestLive update.ignoredSeqNums (intentWrites m t v) w) : liveWrite update m t v = some w := by
  rw [liveWrite, if_pos hepoch, lastLive_of_highest hok hw]

theorem liveWrite_eq_none_iff (hepoch : t.epoch = update.txn.epoch) :
    liveWrite update m t v = none ↔ AllIgnored update.ignoredSeqNums (intentWrites m t v) := by
  rw [liveWrite, if_pos hepoch, lastLive_eq_none_iff]

end

theorem Resolution.resolves {range : Option RangeKeyStack}
    {update : LockUpdate} {ms : MVCCStats} {r : ResolveResult} (hi : ks.HasIntent sz range m t v)
    (h : Resolution sz range k ks m t v update ms r) : Resolves update ks r.state m t v := by
  have hother : t.epoch ≠ update.txn.epoch → liveWrite update m t v = some ⟨t.sequence, v⟩ := by
    intro hepoch
    rw [liveWrite, if_neg hepoch]
  have hfinal : update.status = .committed → update.status.isFinalized = true := by
    intro hstatus
    rw [hstatus]
    rfl
  cases h with
  | removed hwhy =>
    have hhistory := removeIntent_history k ms hi
    refine ⟨fun hstatus hepoch hts => ⟨fun w hw => ?_, fun _ => ⟨rfl, hhistory⟩⟩, fun _ _ => ⟨rfl, hhistory⟩,
      fun _ _ => ⟨rfl, hhistory⟩, fun hstatus hepoch => ?_⟩
    · have hnone := hwhy (.inl (verdict_commit_iff.mpr ⟨hstatus, hepoch, hts⟩))
      rw [liveWrite_of_highest hi.toIntentOk hepoch hw] at hnone
      cases hnone
    have hle : update.txn.epoch ≤ t.epoch := by omega
    have hnone := hwhy (.inr (verdict_inProgress_iff.mpr ⟨hstatus, hle⟩))
    rcases hepoch with hlt | h
    · rw [hother hlt.ne'] at hnone
      cases hnone
    · exact absurd ((liveWrite_eq_none_iff h.1).mp hnone) h.2
  | untouched hprogress hstays hlive =>
    obtain ⟨hstatus, hle⟩ := verdict_inProgress_iff.mp hprogress
    refine ⟨fun hcommitted => ?_, fun hfinalized => ?_, fun _ hdrop => ?_, fun _ _ => ?_⟩
    · rw [hfinal hcommitted] at hstatus
      cases hstatus
    · rw [hfinalized] at hstatus
      cases hstatus
    · rcases hdrop with hlt | h
      · omega
      · rw [(liveWrite_eq_none_iff h.1).mpr h.2] at hlive
        cases hlive
    · refine ⟨m, t, v, hi.metadata, hi.txn, rfl, rfl, (max_eq_right hstays).symm, hi.history, fun _ => rfl,
        fun hepoch w hw => ?_⟩
      rw [liveWrite_of_highest hi.toIntentOk hepoch hw] at hlive
      cases hlive
      rfl
  | @updated w new t' v' r hkeeps hlive hvalue hid hepoch' h =>
    refine ⟨fun hstatus hepoch hts => ⟨fun w' hw' => ?_, fun hignored => ?_⟩, fun hfinalized hnot => ?_,
      fun hstatus hdrop => ?_, fun hstatus hkept => ?_⟩
    · rw [liveWrite_of_highest hi.toIntentOk hepoch hw'] at hlive
      cases hlive
      have hmeta := h.metadata
      rw [verdict_commit_iff.mpr ⟨hstatus, hepoch, hts⟩, if_pos rfl] at hmeta
      exact ⟨hmeta, v', hvalue, by rw [h.history, max_eq_left hts]⟩
    · rw [(liveWrite_eq_none_iff hepoch).mpr hignored] at hlive
      cases hlive
    · rcases hkeeps with hc | hp
      · exact absurd (verdict_commit_iff.mp hc) hnot
      · rw [(verdict_inProgress_iff.mp hp).1] at hfinalized
        cases hfinalized
    · rcases hkeeps with hc | hp
      · rw [hfinal (verdict_commit_iff.mp hc).1] at hstatus
        cases hstatus
      have hle := (verdict_inProgress_iff.mp hp).2
      rcases hdrop with hlt | hd
      · omega
      · rw [(liveWrite_eq_none_iff hd.1).mpr hd.2] at hlive
        cases hlive
    · have hnot : (verdict m t update).commit = false := by
        rw [Bool.eq_false_iff]
        intro hc
        rw [hfinal (verdict_commit_iff.mp hc).1] at hstatus
        cases hstatus
      have hmeta := h.metadata
      rw [hnot] at hmeta
      refine ⟨new, t', v', hmeta, h.ok.txn, hid, hepoch', h.timestamp, h.timestamp ▸ h.history, fun hne => ?_,
        fun heq w' hw' => ?_⟩
      · rw [hother hne] at hlive
        cases hlive
        exact hvalue
      rw [liveWrite_of_highest hi.toIntentOk heq hw'] at hlive
      cases hlive
      exact hvalue

end

/-! Resolving an intent, after any puts and resolutions. -/

/-- Resolving a lock of any key, after any run of puts and resolutions. The range tombstones
    and the other keys stay; so does everything if the update is of another transaction than
    the key's intent. Otherwise the committed versions stay, and what becomes of the intent
    is said by `Resolves`. The writes that it speaks of are those the intent holds; when one
    epoch wrote the key, with sequence numbers rolled back that the update rolls back too,
    these are the writes of the epoch, as far as they count. -/
theorem resolve_intent (sz : Sizes) (st : Tracked) (hst : st.engine.WellFormed sz) (ops : List Op) (update : LockUpdate)
    (writeLocalTimestamps : Bool) :
    let before := st.run sz ops
    let after := before.apply sz (.resolve update writeLocalTimestamps)
    let ks := before.engine.keyState update.key
    (after.engine.ranges = before.engine.ranges ∧
      ∀ k, k ≠ update.key → after.engine.keyState k = before.engine.keyState k) ∧
    ((∀ m t, ks.metadata = some m → m.txn = some t → t.id ≠ update.txn.id) → after = before) ∧
    (∀ m t, ks.metadata = some m → m.txn = some t → t.id = update.txn.id →
      ∃ v, ks.history = (m.timestamp, v) :: ks.committed ∧
        Resolves update ks (after.engine.keyState update.key) m t v) ∧
    (∀ id epoch writes, Startable id epoch ks → Epoch id epoch writes →
      (∀ w ∈ writes, Grows w.txn.ignoredSeqNums update.ignoredSeqNums) →
      let wrote := Session.run sz update.key ⟨before.engine, []⟩ writes
      ∀ m t v, wrote.log ≠ [] → (wrote.engine.keyState update.key).metadata = some m → m.txn = some t →
        (wrote.engine.keyState update.key).version m.timestamp = some v →
        live update.ignoredSeqNums ((intentWrites m t v).map SequencedIntent.pair) =
          live update.ignoredSeqNums wrote.log) := by
  intro before after ks
  have hwf : before.engine.WellFormed sz := st.run_wellFormed hst ops
  have hother : (∀ m t, ks.metadata = some m → m.txn = some t → t.id ≠ update.txn.id) → after = before :=
    before.apply_resolve_of_other hwf writeLocalTimestamps
  have hstep : before.Step sz (.resolve update writeLocalTimestamps) after := before.apply_step hwf _
  refine ⟨?_, hother, ?_, ?_⟩
  · generalize after = st' at hstep
    cases hstep with
    | none => exact ⟨rfl, fun _ _ => rfl⟩
    | resolve => exact ⟨rfl, fun k hk => Engine.keyState_setKey_of_ne before.engine hk _⟩
  · intro m t hm ht hid
    have hspec := mvccResolveWriteIntent_spec (k := update.key) update writeLocalTimestamps before.stats
      (hwf.keyState update.key)
    rcases hspec with h | h
    · exact absurd hid (h.1 m t hm ht)
    obtain ⟨m', t', v, r, _, hi, hr, hresolution⟩ := h
    cases hm.symm.trans hi.metadata
    cases ht.symm.trans hi.txn
    have hafter : after.engine = before.engine.setKey update.key r.state := by
      simp only [after, Tracked.apply, hr]
    refine ⟨v, hi.history, ?_⟩
    rw [hafter, Engine.keyState_setKey]
    exact hresolution.resolves hi
  · intro id epoch writes hstart hwrites hgrows wrote m t v hlog hm ht hv
    have hinit : Session.Ok update.key id epoch ks before.engine.ranges [] ⟨before.engine, []⟩ :=
      ⟨hwf.toConsistent, rfl, .start, .nil⟩
    have hok := hinit.run sz hstart hwrites (Grows.nil _) hgrows fun w _ => ⟨Grows.nil _, by simp⟩
    exact hok.logged.live_intentWrites hlog hm ht hv

theorem threeKeys_wellFormed (sz : Sizes) : threeKeys.WellFormed sz := by
  refine ⟨threeKeys_consistent, fun k => ?_⟩
  cases hget : threeKeys.keys.get k with
  | none =>
    rw [Engine.keyState, hget]
    exact wellFormed_of_no_metadata rfl fun _ h => absurd h not_mem_nil
  | some ks =>
    have hc := threeKeys_consistent.key k ks hget
    have hks : threeKeys.keyState k = ks := by simp [Engine.keyState, hget]
    rw [hks]
    refine ⟨hc.toSound, fun m => ?_, fun m => ?_⟩
    all_goals refine threeKeys_get hget ⟨?_, ?_, ?_⟩ <;> intro hm hraw <;> cases hm
    · exact ⟨_, ⟨0, [5]⟩, rfl, rfl, rfl, rfl, rfl, rfl, rfl, .nil, by simp⟩
    · exact absurd rfl hraw

/-- The intent of `threeKeys` as its transaction commits it, at a later timestamp. -/
def commitAt8 : LockUpdate := ⟨[0x63], ⟨7, 0, 1, 8, []⟩, .committed, [], 0⟩

theorem resolve_intent_commit : ∃ v' : MVCCValue, v'.rawBytes = [5] ∧
    (((⟨threeKeys, .zero⟩ : Tracked).apply ⟨fun _ => 0, fun _ => 0⟩ (.resolve commitAt8 false)).engine.keyState
      [0x63]).history = [(8, v'), (2, ⟨0, [3]⟩)] := by
  obtain ⟨_, _, hresolves, _⟩ := resolve_intent ⟨fun _ => 0, fun _ => 0⟩ ⟨threeKeys, .zero⟩ (threeKeys_wellFormed _) []
    commitAt8 false
  obtain ⟨v, hhist, hresolves⟩ := hresolves _ _ rfl rfl rfl
  cases hhist
  obtain ⟨hcommit, _⟩ := hresolves.commits rfl rfl (by decide)
  obtain ⟨_, v', hvalue, hhistory⟩ := hcommit ⟨1, ⟨0, [5]⟩⟩ ⟨by simp [intentWrites], rfl, by simp [intentWrites]⟩
  exact ⟨v', hvalue, hhistory⟩

/-- Not every update of a pending transaction keeps its intent: one of a newer epoch does not. -/
theorem pending_update_removes : ¬ ∀ (sz : Sizes) (st : Tracked), st.engine.WellFormed sz →
    ∀ (update : LockUpdate) (writeLocalTimestamps : Bool) (m : MVCCMetadata) (t : TxnMeta),
    (st.engine.keyState update.key).metadata = some m → m.txn = some t → t.id = update.txn.id →
    update.status = .pending →
    ((st.apply sz (.resolve update writeLocalTimestamps)).engine.keyState update.key).metadata.isSome = true := by
  intro h
  have := h ⟨fun _ => 0, fun _ => 0⟩ ⟨threeKeys, .zero⟩ (threeKeys_wellFormed _)
    ⟨[0x63], ⟨7, 1, 1, 5, []⟩, .pending, [], 0⟩ false _ _ rfl rfl rfl rfl
  revert this
  decide +kernel

end Ratel.Storage
