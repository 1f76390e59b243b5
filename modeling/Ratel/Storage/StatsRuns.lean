import Ratel.Storage.ComputeStats

/- The statistics kept along a run of puts and resolutions are those of the contents, but
   for the age of garbage. Each call adds to the statistics, at time zero, what its key is
   worth afterwards less what it was worth before: the version that was the newest is taken
   away, or becomes garbage at the timestamp of the new one, unless a range tombstone covers
   it already; and the version under an intent that moves is garbage from a later time on.
   Only a put that moves an intent from the first timestamp may look at the value of the
   next key instead: the age that it takes away (`missedAge`) is missing for good. -/
namespace Ratel.Storage

open Encoding Keys Lib Counters List MVCCMetadata

section
variable {sz : Sizes} {range : Option RangeKeyStack} {k : Bytes} {next : NextKey} {ks : KeyState}

/-! Range tombstones over a version. -/

variable {t T newTS : Timestamp} {v : MVCCValue} {m : MVCCMetadata} {txn : TxnMeta} {ms : MVCCStats}

/-- The range tombstone that covers a version is at or above it and not above the newest. -/
theorem firstAtOrAbove_bounds {s : RangeKeyStack} (hs : s.Valid) {r : RangeKeyVersion}
    (h : s.firstAtOrAbove t = some r) : t ≤ r.timestamp ∧ r.timestamp ≤ s.newest := by
  have hmem := mem_of_getLast? h
  have hle := mem_takeWhile_imp hmem
  exact ⟨by simpa using hle, RangeKeyStack.le_newest hs ((takeWhile_sublist _).subset hmem)⟩

/-- The version under an intent, as a read below the intent finds it. -/
theorem KeyState.HasIntent.below (hi : ks.HasIntent sz range m txn v) (hs : ks.Sound range) :
    ks.atOrBelow (m.timestamp - 1) = ks.committed.head? := by
  have hdesc := ks.history_descending
  rw [hi.history] at hdesc
  have hbelow := (pairwise_cons.mp hdesc).1
  have hpos : 0 < m.timestamp := hs.positive (m.timestamp, v) (by simp [hi.history])
  unfold KeyState.atOrBelow
  rw [hi.history, find?_cons_of_neg (by simpa using Nat.sub_one_lt hpos.ne')]
  cases hc : ks.committed with
  | nil => rfl
  | cons e rest =>
    have hlt := hbelow e (by simp [hc])
    rw [find?_cons_of_pos (by simpa using Nat.le_sub_one_of_lt hlt), head?_cons]

/-! What a key is worth. -/

theorem keyStats_empty (hm : ks.metadata = none) (hh : ks.history = []) : keyStats sz range k ks = 0 := by
  simp [keyStats, hm, hh]

theorem keyStats_intent {older : List (Timestamp × MVCCValue)}
    (hm : ks.metadata = some m) (hraw : m.rawBytes = []) (hhist : ks.history = (m.timestamp, v) :: older) :
    keyStats sz range k ks = top m.death (encodedMVCCKeyPrefixLength k) (sz.metadata m) m.keyBytes m.valBytes +
      m.intentStats + olderStats sz range m.timestamp.wallTime older := by
  simp [keyStats, hm, hraw, hhist]

theorem keyStats_version {older : List (Timestamp × MVCCValue)}
    (hm : ks.metadata = none) (hhist : ks.history = (t, v) :: older) :
    keyStats sz range k ks = top (firstDeath range t v) (encodedMVCCKeyPrefixLength k) 0 versionTimestampSize
      (encodedMVCCValueSize sz v) + olderStats sz range t.wallTime older := by
  simp [keyStats, hm, hhist]

/-- A version on top of all range tombstones dies by its own hand only. -/
theorem firstDeath_onTop (hdeleted : m.deleted = v.isTombstone)
    (hrange : ∀ s, range = some s → s.newest < m.timestamp) : firstDeath range m.timestamp v = m.death := by
  rw [firstDeath, death, hdeleted, coverTimestamp_of_newest_lt hrange]
  simp

/-! The age that is missed. -/

/-- The age of garbage that a put takes away by mistake, given the metadata before and
    after: an intent moves from the first timestamp, and the value on top of the next key
    is taken for the version under it. -/
def missedAge (sz : Sizes) (next : NextKey) (before after : Option MVCCMetadata) : Int :=
  match before, after with
  | some m, some new =>
    if m.timestamp = 1 then
      match liveValue next.range next.state.history.head? with
      | some v => (versionTimestampSize + encodedMVCCValueSize sz v) * seconds new.timestamp.wallTime
      | none => 0
    else 0
  | _, _ => 0

/-- An intent moves from the first timestamp, to the first second or a later one, and the next
    key has a live value on top. -/
def Misread (next : NextKey) (before after : Option MVCCMetadata) : Prop :=
  (∃ m, before = some m ∧ m.timestamp = 1) ∧ (∃ new, after = some new ∧ 0 < seconds new.timestamp.wallTime) ∧
    (liveValue next.range next.state.history.head?).isSome

theorem seconds_wallTime_nonneg (t : Timestamp) : 0 ≤ seconds t.wallTime := Int.tdiv_nonneg (by positivity) (by decide)

theorem missedAge_nonneg (sz : Sizes) (next : NextKey) (before after : Option MVCCMetadata) :
    0 ≤ missedAge sz next before after := by
  unfold missedAge versionTimestampSize
  split
  · split
    · split
      · exact mul_nonneg (by positivity) (seconds_wallTime_nonneg _)
      · rfl
    · rfl
  · rfl

theorem missedAge_ne_zero_iff (sz : Sizes) (next : NextKey) (before after : Option MVCCMetadata) :
    missedAge sz next before after ≠ 0 ↔ Misread next before after := by
  unfold missedAge Misread versionTimestampSize
  split
  · rename_i m new
    have hsec := seconds_wallTime_nonneg new.timestamp
    by_cases hone : m.timestamp = 1
    · cases liveValue next.range next.state.history.head? with
      | none => simp [hone]
      | some v =>
        have hsize : (12 + (encodedMVCCValueSize sz v : Int)) ≠ 0 := by positivity
        simp [hone, hsize, hsec.lt_iff_ne']
    · simp [hone]
  · rename_i hnone
    refine iff_of_false (fun h => h rfl) ?_
    rintro ⟨⟨m, hm, _⟩, ⟨new, hnew, _⟩, _⟩
    exact hnone m new hm hnew

theorem missedAge_of_eq {new : MVCCMetadata} (h : new.timestamp = m.timestamp) :
    missedAge sz next (some m) (some new) = 0 := by
  by_contra hne
  obtain ⟨⟨m', hm', hone⟩, ⟨new', hnew', hsec⟩, _⟩ := (missedAge_ne_zero_iff ..).mp hne
  cases hm'
  cases hnew'
  rw [h, hone] at hsec
  exact absurd hsec (by decide)

theorem missedAge_self (metadata : Option MVCCMetadata) : missedAge sz next metadata metadata = 0 := by
  cases metadata with
  | none => rfl
  | some m => exact missedAge_of_eq rfl

theorem missedAge_inline {before : Option MVCCMetadata} (value : Bytes) :
    missedAge sz next before (if value = [] then none else some { reset with rawBytes := value }) = 0 := by
  by_contra hne
  obtain ⟨_, ⟨new, hnew, hsec⟩, _⟩ := (missedAge_ne_zero_iff ..).mp hne
  split at hnew
  · cases hnew
  cases hnew
  have hzero : ¬ 0 < seconds (reset.timestamp.wallTime : Nat) := by decide
  exact hzero hsec

/-! The version that was the newest. -/

variable (hvalid : ∀ s, range = some s → s.Valid)
include hvalid

/-- No range tombstone above a version that was live, and one below the next version if it
    was covered. -/
theorem cover_cases (ht : 0 < t) (hT : ∀ s, range = some s → s.newest < T) :
    (coverTimestamp range t = 0 ∧ range.bind (·.firstAtOrAbove t) = none ∧ ∀ s ∈ range, s.newest < t) ∨
    ∃ r, range.bind (·.firstAtOrAbove t) = some r ∧ coverTimestamp range t = r.timestamp ∧ r.timestamp ≠ 0 ∧
      r.timestamp.wallTime ≤ T.wallTime ∧ ¬ ∀ s ∈ range, s.newest < t := by
  cases range with
  | none => exact .inl ⟨rfl, rfl, by simp⟩
  | some s =>
    cases hf : s.firstAtOrAbove t with
    | none =>
      refine .inl ⟨by simp [coverTimestamp, hf], by simp [hf], fun s' hs' => ?_⟩
      cases hs'
      exact RangeKeyStack.newest_lt_of_firstAtOrAbove (hvalid s rfl).nonempty hf
    | some r =>
      obtain ⟨hle, hnewest⟩ := firstAtOrAbove_bounds (hvalid s rfl) hf
      refine .inr ⟨r, by simp [hf], by simp [coverTimestamp, hf], (lt_of_lt_of_le ht hle).ne', ?_, fun h => ?_⟩
      · exact Nat.div_le_div_right (hnewest.trans (hT s rfl).le)
      · exact absurd (h s rfl) (not_lt.mpr (hle.trans hnewest))

/-- A newest version that is shadowed at a time: it is garbage since then if it was live. -/
theorem chunk_olderDeath (ht : 0 < t) (hT : ∀ s, range = some s → s.newest < T) (key val : Int) :
    chunk (some (olderDeath t v T.wallTime (coverTimestamp range t))) key val = chunk (firstDeath range t v) key val -
        if (firstDeath range t v).isSome then 0 else chunk none key val - chunk (some T.wallTime) key val := by
  unfold olderDeath firstDeath
  by_cases hv : v.isTombstone = true
  · simp [hv]
  rcases cover_cases hvalid ht hT with ⟨hcover, _⟩ | ⟨r, _, hcover, hne, hle, _⟩
  · simp [hv, hcover]
  simp only [hv, if_false, hcover, ne_eq, hne, not_false_eq_true, true_and, if_true, Option.isSome_some, sub_zero,
    Bool.false_eq_true]
  split
  · rfl
  · have heq : r.timestamp.wallTime = T.wallTime := by omega
    rw [heq]

/-- The versions under an intent, when it moves. -/
theorem olderStats_moved (hs : ks.Sound range) (hi : ks.HasIntent sz range m txn v) (hle : m.timestamp ≤ newTS) :
    olderStats sz range newTS.wallTime ks.committed = olderStats sz range m.timestamp.wallTime ks.committed +
      movedUnder (if m.timestamp < newTS then prevVersion range ks m.timestamp else none).isSome
        (((if m.timestamp < newTS then prevVersion range ks m.timestamp else none).map
          (encodedMVCCValueSize sz)).getD 0 : Nat) m.timestamp.wallTime newTS.wallTime := by
  by_cases hmoved : m.timestamp < newTS
  · simp only [hmoved, if_true]
    have hread := hi.below hs
    cases hc : ks.committed with
    | nil => simp [olderStats, prevVersion, liveValue, hread, hc, movedUnder]
    | cons e rest =>
      obtain ⟨t, w⟩ := e
      have ht : 0 < t := hs.positive (t, w) (ks.committed_subset _ (by simp [hc]))
      have hnew : ∀ s, range = some s → s.newest < newTS := fun s h => (hi.range s h).trans hmoved
      simp only [olderStats, prevVersion, liveValue, hread, hc, head?_cons]
      rw [chunk_olderDeath hvalid ht hnew, chunk_olderDeath hvalid ht hi.range]
      unfold firstDeath
      by_cases hw : w.isTombstone = true
      · simp [hw, movedUnder]
      rcases cover_cases hvalid ht hi.range with ⟨hcover, _, hall⟩ | ⟨r, _, hcover, hne, _, hall⟩
      · have hprev : ((∀ s ∈ range, s.newest < t) ∧ ¬ w.isTombstone = true) := ⟨hall, hw⟩
        rw [if_pos hprev]
        simp only [hw, hcover, if_true, if_false, ne_eq, not_true_eq_false, Option.isSome_none, Option.isSome_some,
          Bool.false_eq_true, movedUnder, Option.map_some, Option.getD_some]
        abel
      · have hprev : ¬ ((∀ s ∈ range, s.newest < t) ∧ ¬ w.isTombstone = true) := fun h => hall h.1
        rw [if_neg hprev]
        simp only [hw, hcover, hne, if_true, if_false, ne_eq, not_false_eq_true, Option.isSome_none,
          Option.isSome_some, Bool.false_eq_true, movedUnder, sub_zero, add_zero]
  · have heq : m.timestamp = newTS := le_antisymm hle (not_lt.mp hmoved)
    rw [heq]
    simp [movedUnder]

/-- A newest version that becomes an older one, or an older one that becomes the newest. -/
theorem shadowed_stats (ht : 0 < t) (hT : ∀ s, range = some s → s.newest < T) (rest : List (Timestamp × MVCCValue)) :
    top (firstDeath range t v) (encodedMVCCKeyPrefixLength k) 0 versionTimestampSize (encodedMVCCValueSize sz v) +
        olderStats sz range t.wallTime rest =
      keyOf (firstDeath range t v) + chunk (firstDeath range t v) (encodedMVCCKeyPrefixLength k) 0 +
        (if (firstDeath range t v).isSome then 0 else
          chunk none versionTimestampSize (encodedMVCCValueSize sz v) -
            chunk (some T.wallTime) versionTimestampSize (encodedMVCCValueSize sz v)) +
        olderStats sz range T.wallTime ((t, v) :: rest) := by
  rw [olderStats, chunk_olderDeath hvalid ht hT, top]
  abel

/-! Puts. -/

/-- What a put counts as the metadata of the version that was the newest. -/
def origOf (found : Option FoundMetadata) : Option MVCCMetadata :=
  found.bind fun f => if f.realKeyChanged = 0 then none else some { f.metadata with timestamp := f.realKeyChanged }

variable (sz k) in
/-- The metadata found for a key with versions and without an intent: of the newest version
    itself, or of the range tombstone that covers it. -/
theorem found_version (hm : ks.metadata = none) {rest : List (Timestamp × MVCCValue)} (hh : ks.history = (t, v) :: rest)
    (ht : 0 < t) :
    ∃ f orig, mvccGetMetadata sz range k ks = some f ∧ f.keyBytes = encodedMVCCKeyPrefixLength k ∧ f.valBytes = 0 ∧
      origOf (some f) = some orig ∧ orig.txn = none ∧ orig.death = firstDeath range t v ∧
      (orig.deleted = false → orig.keyBytes = versionTimestampSize ∧ orig.valBytes = encodedMVCCValueSize sz v) := by
  simp only [mvccGetMetadata, hm, hh, head?_cons]
  have hlive : coverTimestamp range t = 0 → (death { reset with
        keyBytes := versionTimestampSize, valBytes := encodedMVCCValueSize sz v, deleted := v.isTombstone,
        timestamp := t }) = firstDeath range t v := by
    intro hcover
    rw [firstDeath, hcover]
    simp [death]
  cases range with
  | none => exact ⟨_, _, rfl, rfl, rfl, by simp [origOf, ht.ne'], rfl, hlive rfl, fun _ => ⟨rfl, rfl⟩⟩
  | some s =>
    simp only
    cases hf : s.firstAtOrAbove t with
    | none =>
      exact ⟨_, _, rfl, rfl, rfl, by simp [origOf, ht.ne'], rfl, hlive (by simp [coverTimestamp, hf]), fun _ => ⟨rfl, rfl⟩⟩
    | some rkv =>
      obtain ⟨hle, _⟩ := firstAtOrAbove_bounds (hvalid s rfl) hf
      have hne : rkv.timestamp ≠ 0 := (lt_of_lt_of_le ht hle).ne'
      have hreal : (if v.isTombstone then t else rkv.timestamp) ≠ 0 := by
        split
        · exact ht.ne'
        · exact hne
      refine ⟨_, _, rfl, rfl, rfl, if_neg hreal, rfl, ?_, by simp⟩
      rw [firstDeath]
      cases hv : v.isTombstone <;> simp [death, coverTimestamp, hf, hne]

/-- A put over a key without an intent takes away what the key was worth, less what its
    versions are worth under the new one. -/
theorem replaced_version (hs : ks.Sound range) (hm : ks.metadata = none) (hT : ∀ s, range = some s → s.newest < newTS) :
    superseded false 0 (((mvccGetMetadata sz range k ks).map (·.keyBytes)).getD 0 : Nat)
        (((mvccGetMetadata sz range k ks).map (·.valBytes)).getD 0 : Nat) newTS.wallTime
        (origOf (mvccGetMetadata sz range k ks)) =
      olderStats sz range newTS.wallTime ks.history - keyStats sz range k ks := by
  cases hh : ks.history with
  | nil =>
    have hnone : origOf (mvccGetMetadata sz range k ks) = none := by
      simp only [mvccGetMetadata, hm, hh, head?_nil]
      cases range <;> rfl
    rw [hnone, keyStats_empty hm hh]
    simp [olderStats, superseded]
  | cons e rest =>
    obtain ⟨t, v⟩ := e
    have ht : 0 < t := hs.positive (t, v) (by simp [hh])
    rw [keyStats_version hm hh, shadowed_stats hvalid ht hT]
    obtain ⟨f, orig, hf, hkey, hval, horig, htxn, hdeath, hlive⟩ := found_version sz k hvalid hm hh ht
    simp only [hf, horig, Option.map_some, Option.getD_some, hkey, hval]
    rw [superseded, replaced, htxn, ← hdeath]
    simp only [Option.isSome_none, Bool.false_eq_true, if_false, movedUnder, Nat.cast_zero]
    cases hd : orig.deleted with
    | true =>
      have hsome : orig.death.isSome = true := by simp [death, hd]
      simp only [hsome, if_true]
      abel
    | false =>
      have hnone : orig.death.isSome = false := by simp [death, hd]
      obtain ⟨hkb, hvb⟩ := hlive hd
      simp only [hnone, hkb, hvb, Bool.false_eq_true, if_false]
      abel

omit hvalid in
/-- Where the version that a put looks at is not the one under the intent, its age is
    missing. -/
theorem movedUnder_prevOfMoved (hs : ks.Sound range) {txn : Transaction} {prev : Option MVCCValue}
    (hprev : prevOfMoved range k next ks m txn = .ok prev) {new : MVCCMetadata}
    (hnew : new.timestamp = max txn.writeTimestamp m.timestamp) :
    movedUnder prev.isSome ((prev.map (encodedMVCCValueSize sz)).getD 0 : Nat) m.timestamp.wallTime
        new.timestamp.wallTime + gcAge (missedAge sz next (some m) (some new)) =
      movedUnder (if m.timestamp < new.timestamp then prevVersion range ks m.timestamp else none).isSome
        (((if m.timestamp < new.timestamp then prevVersion range ks m.timestamp else none).map
          (encodedMVCCValueSize sz)).getD 0 : Nat) m.timestamp.wallTime new.timestamp.wallTime := by
  unfold prevOfMoved seekPrev at hprev
  by_cases hmoved : m.timestamp < txn.writeTimestamp
  · have hlt : m.timestamp < new.timestamp := hnew ▸ hmoved.trans_le (le_max_left _ _)
    rw [if_pos hmoved] at hprev
    rw [if_pos hlt]
    by_cases hone : m.timestamp = 1
    · -- Nothing is below the first timestamp.
      have hnone : prevVersion range ks m.timestamp = none := by
        have hread : ks.atOrBelow 0 = none :=
          find?_eq_none.mpr fun e he => by simpa using (hs.positive e he).ne'
        rw [prevVersion, hone]
        exact congrArg (liveValue range) hread
      have hfound : prev = liveValue next.range next.state.history.head? := by
        rw [if_pos hone] at hprev
        split at hprev
        · cases hprev
        · exact (Except.ok.inj hprev).symm
      have hzero : seconds (m.timestamp.wallTime : Nat) = 0 := by rw [hone]; rfl
      rw [hnone, hfound, missedAge, if_pos hone]
      cases liveValue next.range next.state.history.head? with
      | none => simp [movedUnder]
      | some v => simp [movedUnder, chunk_some_sub_eq_gcAge, hzero]
    · rw [if_neg hone] at hprev
      cases hprev
      rw [missedAge, if_neg hone, gcAge_zero, add_zero]
  · have heq : new.timestamp = m.timestamp := hnew.trans (max_eq_right (not_lt.mp hmoved))
    rw [if_neg hmoved] at hprev
    cases hprev
    rw [heq, if_neg (lt_irrefl _), missedAge_of_eq heq, gcAge_zero, add_zero]

/-- What a put adds: what the key is worth afterwards, less what it was worth before, and
    less what is missed. -/
theorem Written.stats {opts : WriteOptions} {p : Pending} {r : PutResult} (hwf : ks.WellFormed sz range)
    (hp : PutTarget sz range k next ks opts p)
    (h : Written sz range k ks opts ms p r) :
    r.stats.atZero + gcAge (missedAge sz next ks.metadata r.state.metadata) =
      ms.atZero + (keyStats sz range k r.state - keyStats sz range k ks) := by
  set new := putMetadata sz p ((mvccGetMetadata sz range k ks).bind (·.metadata.txn)).isSome opts with hnew
  set v := versionValue p.value p.writeTimestamp opts with hv
  have hrange : ∀ s, range = some s → s.newest < new.timestamp := h.onTop.range
  -- What the key is worth with the new version on top.
  have hafter : keyStats sz range k r.state =
      top new.death (encodedMVCCKeyPrefixLength k) (if opts.txn.isSome then sz.metadata new else 0 : Nat) new.keyBytes
        new.valBytes + new.intentStats + olderStats sz range new.timestamp.wallTime ks.committed := by
    cases htxn : opts.txn with
    | none =>
      rw [keyStats_version (by rw [h.metadata, htxn]; rfl) h.history]
      have hdeath : firstDeath range p.writeTimestamp v = new.death := firstDeath_onTop (m := new) rfl hrange
      have hintent : new.intentStats = 0 := by simp [intentStats, hnew, putMetadata, htxn]
      rw [hdeath, hintent]
      simp [hnew, putMetadata]
    | some txn =>
      rw [keyStats_intent (by rw [h.metadata, htxn]; rfl) rfl h.history]
      simp [hnew]
  have hresult : r.stats = ms.add (updateStatsOnPut p.prevIsValue p.prevValSize
      (((mvccGetMetadata sz range k ks).map (·.keyBytes)).getD 0 : Nat)
      (((mvccGetMetadata sz range k ks).map (·.valBytes)).getD 0 : Nat) (encodedMVCCKeyPrefixLength k)
      (if opts.txn.isSome then sz.metadata new else 0 : Nat) (origOf (mvccGetMetadata sz range k ks)) new) := by
    rw [h.result]
    rfl
  rw [hresult, atZero_add, atZero_updateStatsOnPut, hafter]
  -- What is taken away.
  have hbefore : superseded p.prevIsValue p.prevValSize (((mvccGetMetadata sz range k ks).map (·.keyBytes)).getD 0 : Nat)
      (((mvccGetMetadata sz range k ks).map (·.valBytes)).getD 0 : Nat) new.timestamp.wallTime
      (origOf (mvccGetMetadata sz range k ks)) + gcAge (missedAge sz next ks.metadata r.state.metadata) =
        olderStats sz range new.timestamp.wallTime ks.committed - keyStats sz range k ks := by
    cases hp with
    | versions hm _ _ hprev =>
      rw [hprev.1, hprev.2, KeyState.committed_of_no_metadata hm, hm]
      exact (add_zero _).trans (replaced_version hvalid hwf.toSound hm hrange)
    | @intent m t txn v' hm hraw ht htxn hlater hpos _ _ hp =>
      obtain ⟨t', _, hi⟩ := hwf.hasIntent hm hraw
      have hnewTS : new.timestamp = max txn.writeTimestamp m.timestamp := hp.writeTimestamp
      have horig : origOf (mvccGetMetadata sz range k ks) = some m := by
        rw [mvccGetMetadata_explicit hm, origOf, Option.bind_some, if_neg hpos.ne']
      have hmeta : r.state.metadata = some new := by rw [h.metadata, htxn]; rfl
      obtain ⟨prev, hprev, hisValue, hvalSize⟩ := hp.prev
      rw [horig, mvccGetMetadata_explicit hm, keyStats_intent hm hraw hi.history,
        olderStats_moved hvalid hwf.toSound hi (hnewTS ▸ le_max_right _ _), superseded, replaced, ht,
        hm, hmeta, ← movedUnder_prevOfMoved hwf.toSound hprev hnewTS, hisValue, hvalSize]
      simp only [Option.map_some, Option.getD_some, Option.isSome_some, if_true]
      abel
  rw [eq_sub_of_add_eq hbefore]
  abel

theorem keyStats_inline (hwf : ks.WellFormed sz range)
    (hfound : ∀ f, mvccGetMetadata sz range k ks = some f → f.metadata.isInline = true) :
    keyStats sz range k ks = inlineStats (((mvccGetMetadata sz range k ks).map (·.keyBytes)).getD 0 : Nat)
      (((mvccGetMetadata sz range k ks).map (·.valBytes)).getD 0 : Nat) := by
  obtain ⟨hhist, hnone, hraw⟩ := hwf.found_inline hvalid hfound
  cases hm : ks.metadata with
  | none =>
    rw [keyStats_empty hm hhist, hnone hm]
    rfl
  | some m =>
    rw [mvccGetMetadata_explicit hm]
    simp [keyStats, hm, hraw m hm]

theorem mvccPutInternal_stats {timestamp : Timestamp} {value : Bytes} {valueFn : Option ValueFn} {opts : WriteOptions}
    {r : PutResult} (hwf : ks.WellFormed sz range)
    (h : mvccPutInternal sz range k next ks timestamp value valueFn opts ms = .ok r) :
    r.stats.atZero + gcAge (missedAge sz next ks.metadata r.state.metadata) =
      ms.atZero + (keyStats sz range k r.state - keyStats sz range k ks) := by
  cases mvccPutInternal_cases h with
  | replay => simp [missedAge_self]
  | inline hts hfound hput =>
    obtain ⟨value', hstate, hstats⟩ := putInline_spec hput
    obtain ⟨hhist, _, _⟩ := hwf.found_inline hvalid hfound
    have hmissed : missedAge sz next ks.metadata r.state.metadata = 0 := by
      rw [hstate]
      exact missedAge_inline value'
    rw [hmissed, gcAge_zero, add_zero, hstats, atZero_updateStatsForInline, ← keyStats_inline hvalid hwf hfound, hstate]
    have hafter : keyStats sz range k
        ⟨if value' = [] then none else some { reset with rawBytes := value' }, ks.versions⟩ =
        inlineStats (if value' = [] then 0 else encodedMVCCKeyPrefixLength k)
          (if value' = [] then 0 else sz.metadata { reset with rawBytes := value' }) := by
      by_cases hempty : value' = []
      · simp only [hempty, if_true]
        exact keyStats_empty rfl hhist
      · simp [keyStats, hempty]
    rw [hafter]
    abel
  | writes hts hfound hread hp hr =>
    have htarget := hp.target hwf.toSound hvalid hfound hts (le_writeTimestamp hread)
    exact (htarget.written hr).stats hvalid hwf htarget

/-! Resolutions. -/

/-- Removing an intent: the version under it counts as the newest again. -/
theorem restoredVersion_stats (hs : ks.Sound range) (hi : ks.HasIntent sz range m txn v) {ks' : KeyState}
    (hm' : ks'.metadata = none) (hh' : ks'.history = ks.committed) :
    (match restoredVersion sz range ks m with
      | none => 0
      | some (restored, ts) => restoredStats (encodedMVCCKeyPrefixLength k) 0 restored ts.wallTime m.timestamp.wallTime) +
      olderStats sz range m.timestamp.wallTime ks.committed = keyStats sz range k ks' := by
  have hread := hi.below hs
  cases hc : ks.committed with
  | nil =>
    have hnone : restoredVersion sz range ks m = none := by
      simp [restoredVersion, hread, hc]
    rw [hnone, keyStats_empty hm' (hh'.trans hc)]
    simp [olderStats]
  | cons e rest =>
    obtain ⟨t, w⟩ := e
    have ht : 0 < t := hs.positive (t, w) (ks.committed_subset _ (by simp [hc]))
    have htm : t < m.timestamp := by
      have hdesc := ks.history_descending
      rw [hi.history, hc] at hdesc
      exact (pairwise_cons.mp hdesc).1 (t, w) mem_cons_self
    have hne : m.timestamp - 1 ≠ 0 := (Nat.lt_of_lt_of_le ht (Nat.le_sub_one_of_lt htm)).ne'
    rw [keyStats_version hm' (hh'.trans hc), shadowed_stats hvalid ht hi.range]
    simp only [restoredVersion, if_neg hne, hread, hc, head?_cons]
    unfold firstDeath
    by_cases hw : w.isTombstone = true
    · cases hf : range.bind (·.firstAtOrAbove t) <;> simp [hw, restoredStats]
    rcases cover_cases hvalid ht hi.range with h | h
    · obtain ⟨hcover, hf, _⟩ := h
      simp [hw, hf, hcover, restoredStats]
    · obtain ⟨r, hf, hcover, hne, _⟩ := h
      simp [hw, hf, hcover, hne, restoredStats]

theorem removeIntent_stats (ms : MVCCStats) (hs : ks.Sound range) (hi : ks.HasIntent sz range m txn v) :
    (removeIntent sz range k ks m ms).stats.atZero =
      ms.atZero + (keyStats sz range k (removeIntent sz range k ks m ms).state - keyStats sz range k ks) := by
  rw [← restoredVersion_stats hvalid hs hi rfl (removeIntent_history k ms hi),
    keyStats_intent hi.metadata hi.versioned hi.history]
  simp only [removeIntent, atZero_add]
  cases restoredVersion sz range ks m with
  | none | some _ =>
    simp only [atZero_updateStatsOnClear]
    abel

theorem Updated.stats_eq {v₀ : MVCCValue} {commit : Bool} {new : MVCCMetadata} {t : TxnMeta} {r : ResolveResult}
    (hs : ks.Sound range) (hi : ks.HasIntent sz range m txn v₀) (hle : m.timestamp ≤ newTS)
    (h : Updated sz range k ks m newTS commit ms new t v r) :
    r.stats.atZero = ms.atZero + (keyStats sz range k r.state - keyStats sz range k ks) := by
  have hrange' : ∀ s, range = some s → s.newest < new.timestamp := fun s hs =>
    lt_of_lt_of_le (hi.range s hs) (h.timestamp ▸ hle)
  have hafter : keyStats sz range k r.state =
      top new.death (encodedMVCCKeyPrefixLength k) (if commit then 0 else sz.metadata new : Nat) new.keyBytes
        new.valBytes + (if commit then 0 else intentSince new.timestamp.wallTime (new.keyBytes + new.valBytes)) +
        olderStats sz range newTS.wallTime ks.committed := by
    have hmeta := h.metadata
    cases commit with
    | true =>
      rw [keyStats_version hmeta h.history, ← h.timestamp, firstDeath_onTop h.ok.deleted hrange', h.ok.keyBytes,
        h.ok.valBytes]
      simp
    | false =>
      rw [keyStats_intent hmeta h.ok.versioned (h.timestamp ▸ h.history), intentStats, h.ok.txn, h.timestamp]
      simp
  rw [h.stats, atZero_add, atZero_updateStatsOnResolve, hafter, keyStats_intent hi.metadata hi.versioned hi.history,
    olderStats_moved hvalid hs hi hle, intentStats, hi.txn, h.timestamp]
  simp only [Option.isSome_some, if_true]
  push_cast
  abel

theorem Resolution.stats {update : LockUpdate} {r : ResolveResult} (hs : ks.Sound range)
    (hi : ks.HasIntent sz range m txn v) (h : Resolution sz range k ks m txn v update ms r) :
    r.stats.atZero = ms.atZero + (keyStats sz range k r.state - keyStats sz range k ks) := by
  cases h with
  | removed => exact removeIntent_stats hvalid ms hs hi
  | untouched => simp
  | updated _ _ _ _ _ h => exact h.stats_eq hvalid hs hi (le_max_right _ _)

end

/-! Whole runs. -/

section
variable {sz : Sizes}

theorem Engine.term_keyStats (e : Engine) (k : Bytes) :
    e.keys.term (fun k ks => keyStats sz (e.ranges.at? k) k ks) k = keyStats sz (e.ranges.at? k) k (e.keyState k) := by
  unfold Store.term Engine.keyState
  cases e.keys.get k with
  | none => exact (keyStats_empty rfl rfl).symm
  | some ks => rfl

/-- Writing a key changes what the contents are worth by what the key is worth. -/
theorem engineStats_setKey (e : Engine) (k : Bytes) (ks : KeyState) : engineStats sz (e.setKey k ks) =
    engineStats sz e + (keyStats sz (e.ranges.at? k) k ks - keyStats sz (e.ranges.at? k) k (e.keyState k)) := by
  simp only [engineStats]
  rw [← e.term_keyStats k]
  unfold Engine.setKey
  by_cases hempty : ks.metadata = none ∧ ks.history = []
  · simp only [hempty, and_self, if_true]
    rw [Store.sum_del, keyStats_empty hempty.1 hempty.2]
    abel
  simp only [hempty, if_false]
  rw [Store.sum_put]
  abel

/-- The statistics are those of the contents. -/
def Tracked.Exact (sz : Sizes) (st : Tracked) : Prop := st.stats.atZero = worth 0 (engineStats sz st.engine)

variable {st : Tracked}

theorem Tracked.exact_iff (hst : st.engine.WellFormed sz) :
    st.Exact sz ↔ ∀ now, computeStats sz now st.engine = .ok (st.stats.ageTo now) := by
  constructor
  · intro h now
    rw [computeStats_eq hst, ← ageTo_atZero, h, ← ageTo_of_worth rfl]
    simp [worth, gcBytes, total]
  intro h
  have hzero := h 0
  rw [computeStats_eq hst] at hzero
  exact (Except.ok.inj hzero).symm

/-- With age of garbage added to the statistics. -/
def Tracked.credit (st : Tracked) (age : Int) : Tracked :=
  ⟨st.engine, { st.stats with gcBytesAge := st.stats.gcBytesAge + age }⟩

/-- What a call adds to the statistics is worth what it adds to the contents. -/
theorem Tracked.Exact.setKey (h : st.Exact sz) {k : Bytes} {ks : KeyState} {ms : MVCCStats}
    (hms : ms.atZero = st.stats.atZero + (keyStats sz (st.engine.ranges.at? k) k ks -
      keyStats sz (st.engine.ranges.at? k) k (st.engine.keyState k))) :
    (⟨st.engine.setKey k ks, ms⟩ : Tracked).Exact sz := by
  have hworth : ∀ a : MVCCStats, worth 0 a.atZero = a.atZero := fun a => by simp [worth, atZero, ageTo]
  have hold : st.stats.atZero = worth 0 (engineStats sz st.engine) := h
  show ms.atZero = worth 0 (engineStats sz (st.engine.setKey k ks))
  rw [engineStats_setKey, worth_add, ← hold, ← hworth st.stats, ← worth_add, ← hms, hworth]

variable (sz) in
/-- The age of garbage that a call misses. -/
def Tracked.missedAge (st st' : Tracked) : Op → Int
  | .put k _ _ _ _ => Storage.missedAge sz (st.engine.nextKey k) (st.engine.keyState k).metadata
      (st'.engine.keyState k).metadata
  | .resolve _ _ => 0

/-- A put moves an intent from the first timestamp, to the first second or a later one, while
    the next key has a live value on top. -/
def Tracked.Misreads (st st' : Tracked) : Op → Prop
  | .put k _ _ _ _ => Misread (st.engine.nextKey k) (st.engine.keyState k).metadata (st'.engine.keyState k).metadata
  | .resolve _ _ => False

theorem Tracked.missedAge_nonneg (st st' : Tracked) (op : Op) : 0 ≤ st.missedAge sz st' op := by
  cases op with
  | put => exact Storage.missedAge_nonneg ..
  | resolve => exact le_rfl

theorem Tracked.missedAge_eq_zero_iff (st st' : Tracked) (op : Op) :
    st.missedAge sz st' op = 0 ↔ ¬ st.Misreads st' op := by
  cases op with
  | put => exact (not_iff_comm.mp (missedAge_ne_zero_iff ..)).symm
  | resolve => simp [missedAge, Misreads]

/-- Statistics that lack some age lack, after a call, what it misses too. -/
theorem Tracked.Step.exact {st' : Tracked} {op : Op} {age : Int} (hst : st.engine.WellFormed sz)
    (hexact : (st.credit age).Exact sz) (h : st.Step sz op st') :
    (st'.credit (age + st.missedAge sz st' op)).Exact sz := by
  cases h with
  | none =>
    have hnone : st.missedAge sz st op = 0 := by
      cases op with
      | put => exact missedAge_self _
      | resolve => rfl
    rwa [hnone, add_zero]
  | @put k _ _ _ _ _ hk hput =>
    have hstats := mvccPutInternal_stats (fun _ => st.engine.valid_range) (hst.keyState k) hput
    refine hexact.setKey ?_
    simp only [missedAge, Engine.keyState_setKey, credit, atZero_add_gcBytesAge, gcAge_add]
    rw [add_comm (gcAge age), ← add_assoc, hstats]
    abel
  | @resolve update _ _ _ _ _ hi h =>
    have hstats := h.stats (fun _ => st.engine.valid_range) (hst.keyState update.key).toSound hi
    refine hexact.setKey ?_
    simp only [missedAge, credit, atZero_add_gcBytesAge, add_zero]
    rw [hstats]
    abel

variable (sz) in
/-- The age of garbage that the calls of a run miss. -/
def Tracked.missedAges (st : Tracked) : List Op → Int
  | [] => 0
  | op :: ops => st.missedAge sz (st.apply sz op) op + (st.apply sz op).missedAges ops

theorem Tracked.missedAges_nonneg (st : Tracked) (ops : List Op) : 0 ≤ st.missedAges sz ops := by
  induction ops generalizing st with
  | nil => exact le_rfl
  | cons op ops ih => exact add_nonneg (st.missedAge_nonneg _ op) (ih _)

/-- What one call misses is never made up for by another. -/
theorem Tracked.missedAges_eq_zero_iff (st : Tracked) (ops : List Op) : st.missedAges sz ops = 0 ↔
    ∀ before op after, ops = before ++ op :: after →
      ¬ (st.run sz before).Misreads ((st.run sz before).apply sz op) op := by
  induction ops generalizing st with
  | nil => simp [missedAges]
  | cons op ops ih =>
    rw [missedAges, add_eq_zero_iff_of_nonneg (st.missedAge_nonneg _ op) (missedAges_nonneg _ ops),
      missedAge_eq_zero_iff, ih]
    refine ⟨fun h before op' after heq => ?_, fun h => ⟨h [] op ops rfl, fun before op' after heq => ?_⟩⟩
    · cases before with
      | nil =>
        cases heq
        exact h.1
      | cons _ before =>
        cases heq
        exact h.2 before op' after rfl
    · exact h (op :: before) op' after (by rw [heq, cons_append])

theorem Tracked.Exact.run {age : Int} (hst : st.engine.WellFormed sz) (hexact : (st.credit age).Exact sz)
    (ops : List Op) : ((st.run sz ops).credit (age + st.missedAges sz ops)).Exact sz := by
  induction ops generalizing st age with
  | nil => rwa [missedAges, add_zero]
  | cons op ops ih =>
    have hstep := st.apply_step hst op
    rw [missedAges, ← add_assoc]
    exact ih (hstep.wellFormed hst) (hstep.exact hst hexact)

end

theorem wellFormed_of_no_keys (sz : Sizes) (ranges : RangeKeys) : Engine.WellFormed sz ⟨.empty, ranges⟩ := by
  refine ⟨⟨fun k ks h => ?_, fun k ks h => ?_⟩, fun k => ?_⟩
  · cases h
  · cases h
  · exact KeyState.wellFormed_of_no_metadata rfl fun _ h => absurd h not_mem_nil

/-- From no keys at all, and statistics of the range tombstones over them, the statistics
    that puts and resolutions keep are at any time those that `ComputeStats` comes to, but
    for the age of garbage that was missed. So they are those of `ComputeStats` unless a put
    moved an intent from the first timestamp, to the first second or a later one, while the
    next key had a live value on top. Without range tombstones they start at zero. -/
theorem run_stats_exact (sz : Sizes) (ranges : RangeKeys) (ms : MVCCStats)
    (hms : ranges = .empty ∧ ms = .zero ∨ ∀ now, computeStats sz now ⟨.empty, ranges⟩ = .ok (ms.ageTo now))
    (ops : List Op) (now : Int) :
    let st : Tracked := ⟨⟨.empty, ranges⟩, ms⟩
    let kept := (st.run sz ops).stats.ageTo now
    computeStats sz now (st.run sz ops).engine =
        .ok { kept with gcBytesAge := kept.gcBytesAge + st.missedAges sz ops } ∧
      (computeStats sz now (st.run sz ops).engine = .ok kept ↔ ∀ before op after, ops = before ++ op :: after →
        ¬ (st.run sz before).Misreads ((st.run sz before).apply sz op) op) := by
  intro st kept
  have hst : st.engine.WellFormed sz := wellFormed_of_no_keys sz ranges
  have hexact : (st.credit 0).Exact sz := by
    rcases hms with h | h
    · obtain ⟨rfl, rfl⟩ := h
      rfl
    have hwf : (st.credit 0).engine.WellFormed sz := hst
    refine (Tracked.exact_iff hwf).mpr fun now => ?_
    simpa [Tracked.credit] using h now
  have hwf : ((st.run sz ops).credit (0 + st.missedAges sz ops)).engine.WellFormed sz :=
    Tracked.run_wellFormed hst ops
  have hrun := (Tracked.exact_iff hwf).mp (hexact.run hst ops) now
  simp only [Tracked.credit, ageTo_add_gcBytesAge, zero_add] at hrun
  refine ⟨hrun, ?_⟩
  rw [← st.missedAges_eq_zero_iff ops, hrun, Except.ok.injEq, Counters.ext_iff]
  simp [kept]

/-- From no keys at all, puts and resolutions keep an intent's metadata true of the newest version, and
    every intent above the range tombstones over it. -/
theorem run_from_no_keys_wellFormed (sz : Sizes) (ranges : RangeKeys) (ms : MVCCStats) (ops : List Op) :
    ((⟨⟨.empty, ranges⟩, ms⟩ : Tracked).run sz ops).engine.WellFormed sz :=
  Tracked.run_wellFormed (wellFormed_of_no_keys sz ranges) ops

def atSecond (n : Nat) : Timestamp := n * 1000000000 * 2 ^ 31

/-- A value, an intent above it, and the commit of the intent at a later timestamp. -/
def shadowingRun : List Op :=
  let txn : Transaction := ⟨⟨7, 0, 1, atSecond 2, []⟩, atSecond 2, [], le_rfl⟩
  [.put [0x61] (atSecond 1) [1, 2, 3] none ⟨none, 0, false, false⟩,
    .put [0x61] (atSecond 2) [4] none ⟨some txn, 0, false, false⟩,
    .resolve ⟨[0x61], ⟨7, 0, 1, atSecond 3, []⟩, .committed, [], 0⟩ false]

/-- The value is garbage for seven seconds at second ten, with the bytes of its version. -/
theorem run_stats_exact_shadowing : ∃ ms : MVCCStats, computeStats ⟨fun _ => 0, fun _ => 5⟩ 10000000000
      ((⟨⟨.empty, .empty⟩, .zero⟩ : Tracked).run ⟨fun _ => 0, fun _ => 5⟩ shadowingRun).engine = .ok ms ∧
    ms.valCount = 2 ∧ ms.gcBytesAge = 7 * 15 ∧ ms.intentCount = 0 := by
  refine ⟨_, (run_stats_exact _ .empty .zero (.inl ⟨rfl, rfl⟩) shadowingRun 10000000000).1, ?_⟩
  decide +kernel

/-- An intent at the first timestamp, a value of three bytes on the next key, and the intent
    moved to second five. -/
def misreadingRun : List Op :=
  let txn (seq : TxnSeq) (ts : Timestamp) (h : 1 ≤ ts) : Transaction := ⟨⟨7, 0, seq, ts, []⟩, 1, [], h⟩
  [.put [0x61] 1 [1] none ⟨some (txn 1 1 le_rfl), 0, false, false⟩,
    .put [0x61, 0] (atSecond 1) [1, 2, 3] none ⟨none, 0, false, false⟩,
    .put [0x61] 1 [2] none ⟨some (txn 2 (atSecond 5) (by decide)), 0, false, false⟩]

/-- The statistics count a negative age of garbage where there is no garbage. -/
theorem misreadingRun_stats :
    let st := (⟨⟨.empty, .empty⟩, .zero⟩ : Tracked).run ⟨fun _ => 0, fun _ => 5⟩ misreadingRun
    ∃ ms, computeStats ⟨fun _ => 0, fun _ => 5⟩ 10000000000 st.engine = .ok ms ∧ ms.gcBytesAge = 0 ∧
      (st.stats.ageTo 10000000000).gcBytesAge = -75 := by
  exact ⟨_, rfl, by decide +kernel⟩

end Ratel.Storage
