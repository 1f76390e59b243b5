import Ratel.Storage.StatsAlgebra
import Ratel.Storage.ResolveSpec

/- `ComputeStats`: the loop that counts the contents of an engine, from one stop of the
   iterator to the next, and what it comes to. The loop carries the metadata of the key it
   is in, the time at which the next older version became garbage, and the range
   tombstones over the key; the outcome is the sum of what each key and each fragment of
   range tombstones is worth (`computeStats_eq`). -/
namespace Ratel.Storage

open Encoding Keys Lib Counters List

/-! The stops of the iterator. -/

/-- What an iterator shows at a stop besides range keys. -/
inductive StopRecord
  | metadata (m : MVCCMetadata)
  | version (timestamp : Timestamp) (value : MVCCValue)

structure Stop where
  key : Bytes
  range : Option RangeKeyStack
  point : Option StopRecord

/-- The stops at a key: a bare one where a fragment begins, unless the metadata record is
    there, and then the records of the key. -/
def keyStops (range : Option RangeKeyStack) (k : Bytes) (ks : KeyState) : List Stop :=
  (if (range.any fun s => decide (s.key = k)) ∧ ks.metadata = none then [⟨k, range, none⟩] else []) ++
  (match ks.metadata with
    | some m => [⟨k, range, some (.metadata m)⟩]
    | none => []) ++
  ks.history.map fun e => ⟨k, range, some (.version e.1 e.2)⟩

def addStart (st : Store Bytes KeyState) (s : RangeKeyStack) : Store Bytes KeyState :=
  match st.get s.key with
  | some _ => st
  | none => st.put s.key ⟨none, .empty⟩

/-- The keys where an iterator stops: those with records, and where fragments begin. -/
def Engine.stopKeys (e : Engine) : Store Bytes KeyState := e.ranges.fragments.foldl addStart e.keys

def Engine.stops (e : Engine) : List Stop :=
  e.stopKeys.entries.flatMap fun p => keyStops (e.ranges.at? p.1) p.1 p.2

/-! The loop. -/

/-- `EncodedMVCCTimestampSuffixLength`: nothing for the empty timestamp, and otherwise the
    wall time, a logical part that is not zero, and the length. -/
def encodedMVCCTimestampSuffixLength (ts : Timestamp) : Int :=
  if ts = 0 then 0 else if ts % 2 ^ 31 = 0 then 9 else 13

/-- The variables of the loop, and the range keys of the last stop. -/
structure Computing where
  ms : MVCCStats
  metadata : MVCCMetadata
  prevKey : Bytes
  first : Bool
  accrueGCAgeNanos : Int
  rangeTombstones : List RangeKeyVersion
  lastRange : Option RangeKeyStack

def Computing.start : Computing := ⟨zero, .reset, [], false, 0, [], none⟩

section
variable (sz : Sizes) (nowNanos : Int)

def ageNow (nanos : Int) : Int := seconds nowNanos - seconds nanos

/-- Count the versions of a fragment. The first one contributes the bounds. -/
def countRangeKeys (s : RangeKeyStack) : Bool → List RangeKeyVersion → MVCCStats → MVCCStats
  | _, [], ms => ms
  | top, v :: versions, ms =>
    let suffix := encodedMVCCTimestampSuffixLength v.timestamp
    let keyBytes := if top then
        suffix + (encodedMVCCKeyPrefixLength s.key + encodedMVCCKeyPrefixLength s.endKey : Nat) else suffix
    let valBytes : Int := encodedMVCCValueSize sz v.value
    countRangeKeys s false versions { ms with
      rangeKeyCount := if top then ms.rangeKeyCount + 1 else ms.rangeKeyCount
      rangeKeyBytes := ms.rangeKeyBytes + keyBytes
      rangeValCount := ms.rangeValCount + 1
      rangeValBytes := ms.rangeValBytes + valBytes
      gcBytesAge := ms.gcBytesAge + (keyBytes + valBytes) * ageNow nowNanos v.timestamp.wallTime }

/-- Count the metadata of a key, stored or implicit. -/
def countMetadata (ms : MVCCStats) (m : MVCCMetadata) (metaKeySize metaValSize : Int) (nextRangeTombstone : Timestamp) :
    MVCCStats :=
  let totalBytes := metaKeySize + metaValSize
  let ms :=
    if m.deleted then
      { ms with gcBytesAge := ms.gcBytesAge + totalBytes * ageNow nowNanos m.timestamp.wallTime }
    else if nextRangeTombstone ≠ 0 then
      { ms with gcBytesAge := ms.gcBytesAge + totalBytes * ageNow nowNanos nextRangeTombstone.wallTime }
    else { ms with liveBytes := ms.liveBytes + totalBytes, liveCount := ms.liveCount + 1 }
  { ms with
    keyBytes := ms.keyBytes + metaKeySize
    valBytes := ms.valBytes + metaValSize
    keyCount := ms.keyCount + 1
    valCount := if m.isInline then ms.valCount + 1 else ms.valCount }

/-- Count the newest version of a key. -/
def countFirst (ms : MVCCStats) (m : MVCCMetadata) (totalBytes : Int) (nextRangeTombstone : Timestamp) : MVCCStats :=
  let ms :=
    if m.deleted then
      { ms with gcBytesAge := ms.gcBytesAge + totalBytes * ageNow nowNanos m.timestamp.wallTime }
    else if nextRangeTombstone ≠ 0 then
      { ms with gcBytesAge := ms.gcBytesAge + totalBytes * ageNow nowNanos nextRangeTombstone.wallTime }
    else { ms with liveBytes := ms.liveBytes + totalBytes }
  if m.txn.isSome then { ms with
      intentBytes := ms.intentBytes + totalBytes
      intentCount := ms.intentCount + 1
      separatedIntentCount := ms.separatedIntentCount + 1
      intentAge := ms.intentAge + ageNow nowNanos m.timestamp.wallTime }
    else ms

def countOlder (ms : MVCCStats) (t : Timestamp) (v : MVCCValue) (totalBytes accrueGCAgeNanos : Int)
    (nextRangeTombstone : Timestamp) : MVCCStats :=
  if v.isTombstone then { ms with gcBytesAge := ms.gcBytesAge + totalBytes * ageNow nowNanos t.wallTime }
  else if nextRangeTombstone ≠ 0 ∧ (nextRangeTombstone.wallTime : Int) < accrueGCAgeNanos then
    { ms with gcBytesAge := ms.gcBytesAge + totalBytes * ageNow nowNanos nextRangeTombstone.wallTime }
  else { ms with gcBytesAge := ms.gcBytesAge + totalBytes * ageNow nowNanos accrueGCAgeNanos }

/-- The closest range tombstone above a version, zero without one. -/
def nextRangeTombstone (versions : List RangeKeyVersion) (t : Timestamp) : Timestamp :=
  if versions ≠ [] ∧ t ≤ (versions.head?.map (·.timestamp)).getD 0 then
    (((versions.takeWhile fun v => decide (t ≤ v.timestamp)).getLast?).map (·.timestamp)).getD 0
  else 0

def computeVersion (st : Computing) (t : Timestamp) (v : MVCCValue) (next : Timestamp) : Except Err Computing :=
  let valueLen : Int := encodedMVCCValueSize sz v
  let totalBytes := valueLen + versionTimestampSize
  let counted (st : Computing) : Computing := { st with ms := { st.ms with
    keyBytes := st.ms.keyBytes + versionTimestampSize
    valBytes := st.ms.valBytes + valueLen
    valCount := st.ms.valCount + 1 } }
  if st.first then
    let ms := countFirst nowNanos st.ms st.metadata totalBytes next
    if st.metadata.keyBytes ≠ versionTimestampSize then
      errorf "expected mvcc metadata key bytes to equal %d; got %d (meta: %s)"
    else if st.metadata.valBytes ≠ valueLen then
      errorf "expected mvcc metadata val bytes to equal %d; got %d (meta: %s)"
    else .ok (counted { st with
      ms := ms, first := false, accrueGCAgeNanos := st.metadata.timestamp.wallTime })
  else .ok (counted { st with
    ms := countOlder nowNanos st.ms t v totalBytes st.accrueGCAgeNanos next, accrueGCAgeNanos := t.wallTime })

/-- The metadata of a version that has none stored. -/
def implicitMetadata (t : Timestamp) (v : MVCCValue) : MVCCMetadata :=
  { MVCCMetadata.reset with
    keyBytes := versionTimestampSize
    valBytes := encodedMVCCValueSize sz v
    deleted := v.isTombstone
    timestamp := t.wallTime * 2 ^ 31 }

/-- The loop for one record. A version without metadata before it has an implicit one. -/
def computeRecord (st : Computing) (k : Bytes) : StopRecord → Except Err Computing
  | .metadata m => .ok { st with
      ms := countMetadata nowNanos st.ms m (encodedMVCCKeyPrefixLength k) (sz.metadata m) 0
      metadata := m, prevKey := k, first := true }
  | .version t v =>
    let next := nextRangeTombstone st.rangeTombstones t
    if k ≠ st.prevKey then
      computeVersion sz nowNanos { st with
        ms := countMetadata nowNanos st.ms (implicitMetadata sz t v) (encodedMVCCKeyPrefixLength k) 0 next
        metadata := implicitMetadata sz t v, prevKey := k, first := true } t v next
    else computeVersion sz nowNanos { st with prevKey := k } t v next

def computeStop (st : Computing) (stop : Stop) : Except Err Computing :=
  let st := if stop.range = st.lastRange then st
    else match stop.range with
      | some s => { st with
          rangeTombstones := s.versions
          ms := countRangeKeys sz nowNanos s true s.versions st.ms }
      | none => { st with rangeTombstones := [] }
  let st := { st with lastRange := stop.range }
  match stop.point with
  | none => .ok st
  | some r => computeRecord sz nowNanos st stop.key r

/-- `ComputeStats` of all keys of an engine. -/
def computeStats (e : Engine) : Except Err MVCCStats :=
  (e.stops.foldlM (computeStop sz nowNanos) .start).map fun st => { st.ms with lastUpdateNanos := nowNanos }

end

/-! What the contents are worth. -/

/-- A record as it is counted in the loop: at the time now, with the time not yet set. -/
def worth (nowNanos : Int) (ms : MVCCStats) : MVCCStats :=
  { ms with
    lastUpdateNanos := 0
    gcBytesAge := ms.gcBytesAge + ms.gcBytes * seconds nowNanos
    intentAge := ms.intentAge + ms.intentCount * seconds nowNanos }

theorem worth_add (nowNanos : Int) (a b : MVCCStats) : worth nowNanos (a + b) = worth nowNanos a + worth nowNanos b := by
  simp only [Counters.ext_iff, worth, add_def, Counters.zip, gcBytes, total, add_zero, true_and, and_true]
  constructor <;> ring

theorem worth_zero (nowNanos : Int) : worth nowNanos 0 = 0 := by
  simp [worth, zero_def, zero, gcBytes, total]

theorem ageTo_of_worth {ms : MVCCStats} (h : ms.lastUpdateNanos = 0) (nowNanos : Int) :
    { worth nowNanos ms with lastUpdateNanos := nowNanos } = ms.ageTo nowNanos := by
  simp [worth, ageTo, h, gcBytes]

/-- When the version with these metadata died, if a range tombstone may cover it. -/
def deathBelow (m : MVCCMetadata) (next : Timestamp) : Option Int :=
  if m.deleted then some m.timestamp.wallTime else if next ≠ 0 then some next.wallTime else none

section
variable {sz : Sizes} {nowNanos : Int}

theorem countMetadata_eq (ms : MVCCStats) (m : MVCCMetadata) (metaKeySize metaValSize : Int) (next : Timestamp) :
    countMetadata nowNanos ms m metaKeySize metaValSize next = ms + worth nowNanos (keyOf (deathBelow m next) +
      chunk (deathBelow m next) metaKeySize metaValSize + if m.isInline then version else 0) := by
  unfold countMetadata deathBelow
  by_cases hd : m.deleted = true <;> by_cases hn : next = 0 <;> cases m.isInline
  all_goals
    simp [hd, hn, Counters.ext_iff, worth, keyOf, chunk, bytes, liveBytesOf, version, since, ageNow, add_def, Counters.zip,
      zero_def, zero, gcBytes, total]
    try grind

theorem computeVersion_first {st : Computing} {t : Timestamp} {v : MVCCValue} {next : Timestamp} (hfirst : st.first = true)
    (hkey : st.metadata.keyBytes = versionTimestampSize) (hval : st.metadata.valBytes = encodedMVCCValueSize sz v) :
    computeVersion sz nowNanos st t v next = .ok { st with
      ms := st.ms + worth nowNanos (version + chunk (deathBelow st.metadata next) versionTimestampSize
        (encodedMVCCValueSize sz v) + st.metadata.intentStats)
      first := false
      accrueGCAgeNanos := st.metadata.timestamp.wallTime } := by
  simp only [computeVersion, hfirst, if_true, hkey, hval, ne_eq, not_true_eq_false, if_false, Except.ok.injEq,
    Computing.mk.injEq, and_true]
  unfold countFirst deathBelow MVCCMetadata.intentStats
  by_cases hd : st.metadata.deleted = true <;> by_cases hn : next = 0 <;> cases st.metadata.txn
  all_goals
    simp [hd, hn, Counters.ext_iff, worth, chunk, bytes, liveBytesOf, version, intentSince, since, ageNow, add_def,
      Counters.zip, zero_def, zero, gcBytes, total]
    try grind

/-- When an older version became garbage. -/
def olderDeath (t : Timestamp) (v : MVCCValue) (accrueGCAgeNanos : Int) (next : Timestamp) : Int :=
  if v.isTombstone then t.wallTime
  else if next ≠ 0 ∧ (next.wallTime : Int) < accrueGCAgeNanos then next.wallTime else accrueGCAgeNanos

theorem computeVersion_older {st : Computing} {t : Timestamp} {v : MVCCValue} {next : Timestamp}
    (hfirst : st.first = false) : computeVersion sz nowNanos st t v next = .ok { st with
      ms := st.ms + worth nowNanos (version + chunk (some (olderDeath t v st.accrueGCAgeNanos next)) versionTimestampSize
        (encodedMVCCValueSize sz v))
      accrueGCAgeNanos := t.wallTime } := by
  simp only [computeVersion, hfirst, Bool.false_eq_true, if_false, Except.ok.injEq, Computing.mk.injEq]
  unfold countOlder olderDeath
  by_cases hv : v.isTombstone = true <;> by_cases hn : next ≠ 0 ∧ (next.wallTime : Int) < st.accrueGCAgeNanos
  all_goals
    simp only [hv, hn, if_true]
    simp [worth, chunk, bytes, version, since, ageNow, add_def, Counters.zip, zero, gcBytes, total]
    try grind

/-! One key. -/

/-- The lowest range tombstone at or above a version, zero without one. -/
def coverTimestamp (range : Option RangeKeyStack) (t : Timestamp) : Timestamp :=
  ((range.bind (·.firstAtOrAbove t)).map (·.timestamp)).getD 0

def rangeVersions (range : Option RangeKeyStack) : List RangeKeyVersion := (range.map (·.versions)).getD []

theorem nextRangeTombstone_eq (range : Option RangeKeyStack) (t : Timestamp) :
    nextRangeTombstone (rangeVersions range) t = coverTimestamp range t := by
  cases range with
  | none => rfl
  | some s =>
    show nextRangeTombstone s.versions t = ((s.firstAtOrAbove t).map (·.timestamp)).getD 0
    unfold nextRangeTombstone
    split
    · rfl
    rename_i h
    -- Without a version at or above, there is no first one.
    unfold RangeKeyStack.firstAtOrAbove
    cases hv : s.versions with
    | nil => rfl
    | cons v older =>
      have hlt : ¬ t ≤ v.timestamp := by simpa [hv] using h
      simp [hlt]

theorem coverTimestamp_of_newest_lt {range : Option RangeKeyStack} {t : Timestamp}
    (h : ∀ s, range = some s → s.newest < t) : coverTimestamp range t = 0 := by
  cases range with
  | none => rfl
  | some s =>
    cases hf : s.firstAtOrAbove t with
    | none => simp [coverTimestamp, hf]
    | some r => exact absurd (h s rfl) (not_lt.mpr (RangeKeyStack.firstAtOrAbove_le_newest hf))

/-- The older versions of a key, below one that was written at a time. -/
def olderStats (sz : Sizes) (range : Option RangeKeyStack) : Int → List (Timestamp × MVCCValue) → MVCCStats
  | _, [] => 0
  | accrueGCAgeNanos, (t, v) :: rest =>
    version + chunk (some (olderDeath t v accrueGCAgeNanos (coverTimestamp range t))) versionTimestampSize
      (encodedMVCCValueSize sz v) + olderStats sz range t.wallTime rest

/-- When a newest version died: at its own timestamp if it is a tombstone, or at the range
    tombstone that covers it. -/
def firstDeath (range : Option RangeKeyStack) (t : Timestamp) (v : MVCCValue) : Option Int :=
  if v.isTombstone then some t.wallTime
  else if coverTimestamp range t ≠ 0 then some (coverTimestamp range t).wallTime else none

def keyStats (sz : Sizes) (range : Option RangeKeyStack) (k : Bytes) (ks : KeyState) : MVCCStats :=
  match ks.metadata with
  | some m =>
    if m.rawBytes ≠ [] then inlineStats (encodedMVCCKeyPrefixLength k) (sz.metadata m)
    else top m.death (encodedMVCCKeyPrefixLength k) (sz.metadata m) m.keyBytes m.valBytes + m.intentStats +
      olderStats sz range m.timestamp.wallTime ks.history.tail
  | none =>
    match ks.history with
    | [] => 0
    | (t, v) :: rest => top (firstDeath range t v) (encodedMVCCKeyPrefixLength k) 0 versionTimestampSize
        (encodedMVCCValueSize sz v) + olderStats sz range t.wallTime rest

/-- The loop is at a key, after the records that come before its older versions. -/
structure InKey (range : Option RangeKeyStack) (k : Bytes) (st : Computing) : Prop where
  prevKey : st.prevKey = k
  first : st.first = false
  lastRange : st.lastRange = range
  tombstones : st.rangeTombstones = rangeVersions range

section
variable {range : Option RangeKeyStack} {k : Bytes}

variable {st : Computing}

theorem computeStop_same (h : st.lastRange = range) (r : StopRecord) :
    computeStop sz nowNanos st ⟨k, range, some r⟩ = computeRecord sz nowNanos st k r := by
  simp only [computeStop, h, if_true]
  rw [← h]

theorem computeRecord_older (h : st.prevKey = k) (t : Timestamp) (v : MVCCValue) :
    computeRecord sz nowNanos st k (.version t v) =
      computeVersion sz nowNanos st t v (nextRangeTombstone st.rangeTombstones t) := by
  subst h
  simp [computeRecord]

variable (sz nowNanos range k) in
/-- The older versions of a key, one after the other. -/
theorem older_loop : ∀ (l : List (Timestamp × MVCCValue)) (st : Computing), InKey range k st →
    ∃ st', (l.map fun e => (⟨k, range, some (.version e.1 e.2)⟩ : Stop)).foldlM (computeStop sz nowNanos) st = .ok st' ∧
      InKey range k st' ∧ st'.ms = st.ms + worth nowNanos (olderStats sz range st.accrueGCAgeNanos l)
  | [], st, h => ⟨st, rfl, h, by rw [olderStats, worth_zero, add_zero]⟩
  | (t, v) :: l, st, h => by
    let older : Computing := { st with
        ms := st.ms + worth nowNanos (version + chunk (some (olderDeath t v st.accrueGCAgeNanos (coverTimestamp range t)))
          versionTimestampSize (encodedMVCCValueSize sz v))
        accrueGCAgeNanos := t.wallTime }
    have hstep : computeStop sz nowNanos st ⟨k, range, some (.version t v)⟩ = .ok older := by
      rw [computeStop_same h.lastRange, computeRecord_older h.prevKey, computeVersion_older h.first, h.tombstones,
        nextRangeTombstone_eq, ← h.tombstones]
    obtain ⟨st', hfold, hin, hms⟩ := older_loop l older ⟨h.prevKey, h.first, h.lastRange, h.tombstones⟩
    refine ⟨st', ?_, hin, ?_⟩
    · rw [map_cons, foldlM_cons, hstep]
      exact hfold
    rw [hms, olderStats]
    simp only [older, worth_add]
    abel

theorem implicit_wallTime (t : Timestamp) (v : MVCCValue) :
    (implicitMetadata sz t v).timestamp.wallTime = t.wallTime := Nat.mul_div_cancel _ (by norm_num)

theorem implicit_death (t : Timestamp) (v : MVCCValue) :
    deathBelow (implicitMetadata sz t v) (coverTimestamp range t) = firstDeath range t v := by
  rw [deathBelow, implicit_wallTime]
  rfl

variable (nowNanos) in
/-- The records of a key, once the range keys over it are known. -/
theorem records_loop {ks : KeyState} (st : Computing) (hwf : ks.WellFormed sz range)
    (hkey : ks.history ≠ [] → st.prevKey ≠ k) (hrange : st.lastRange = range)
    (htombstones : st.rangeTombstones = rangeVersions range) :
    ∃ st', ((match ks.metadata with
        | some m => [(⟨k, range, some (.metadata m)⟩ : Stop)]
        | none => []) ++ ks.history.map fun e => ⟨k, range, some (.version e.1 e.2)⟩).foldlM
          (computeStop sz nowNanos) st = .ok st' ∧
      (st'.prevKey = st.prevKey ∨ st'.prevKey = k) ∧ st'.lastRange = range ∧ st'.rangeTombstones = rangeVersions range ∧
      st'.ms = st.ms + worth nowNanos (keyStats sz range k ks) := by
  cases hm : ks.metadata with
  | none =>
    simp only [keyStats, hm]
    cases hh : ks.history with
    | nil => exact ⟨st, rfl, .inl rfl, hrange, htombstones, by rw [worth_zero, add_zero]⟩
    | cons e rest =>
      obtain ⟨t, v⟩ := e
      have hkey : st.prevKey ≠ k := hkey (by simp [hh])
      let older : Computing := { st with
          ms := st.ms + worth nowNanos (top (firstDeath range t v) (encodedMVCCKeyPrefixLength k) 0 versionTimestampSize
            (encodedMVCCValueSize sz v))
          metadata := implicitMetadata sz t v, prevKey := k, first := false, accrueGCAgeNanos := t.wallTime }
      have hstep : computeStop sz nowNanos st ⟨k, range, some (.version t v)⟩ = .ok older := by
        rw [computeStop_same hrange]
        simp only [computeRecord, ne_eq, hkey.symm, not_false_eq_true, if_true, htombstones, nextRangeTombstone_eq]
        rw [computeVersion_first rfl rfl rfl]
        simp only [older, htombstones, implicit_death, implicit_wallTime, countMetadata_eq, Except.ok.injEq,
          Computing.mk.injEq, and_true]
        rw [add_assoc, ← worth_add]
        congr 2
        simp only [top, implicitMetadata, MVCCMetadata.isInline, MVCCMetadata.reset, MVCCMetadata.intentStats,
          isEmpty_nil, Bool.not_true, Bool.false_eq_true, if_false, Option.isSome_none]
        abel
      obtain ⟨st', hfold, hin, hms⟩ := older_loop sz nowNanos range k rest older ⟨rfl, rfl, hrange, htombstones⟩
      refine ⟨st', ?_, .inr hin.prevKey, hin.lastRange, hin.tombstones, ?_⟩
      · rw [nil_append, map_cons, foldlM_cons, hstep]
        exact hfold
      rw [hms]
      simp only [older, worth_add]
      abel
  | some m =>
    simp only [keyStats, hm]
    let atKey : Computing := { st with
        ms := countMetadata nowNanos st.ms m (encodedMVCCKeyPrefixLength k) (sz.metadata m) 0
        metadata := m, prevKey := k, first := true }
    have hrange' : atKey.lastRange = range := hrange
    have hstep : computeStop sz nowNanos st ⟨k, range, some (.metadata m)⟩ = .ok atKey := by
      rw [computeStop_same hrange]
      rfl
    have hdeath : deathBelow m 0 = m.death := by
      unfold deathBelow MVCCMetadata.death
      simp
    by_cases hraw : m.rawBytes = []
    · obtain ⟨t, v, hhist, hok⟩ := hwf.described m hm hraw
      obtain ⟨_, _, _, _, _, hnewest⟩ := hwf.intent m hm hraw
      -- No range tombstone is above an intent.
      have hcover := coverTimestamp_of_newest_lt hnewest
      let older : Computing := { st with
          ms := st.ms + worth nowNanos (top m.death (encodedMVCCKeyPrefixLength k) (sz.metadata m) m.keyBytes m.valBytes +
            m.intentStats)
          metadata := m, prevKey := k, first := false, accrueGCAgeNanos := m.timestamp.wallTime }
      have hstep' : computeStop sz nowNanos atKey ⟨k, range, some (.version m.timestamp v)⟩ = .ok older := by
        rw [computeStop_same hrange', computeRecord_older rfl, computeVersion_first rfl hok.keyBytes hok.valBytes]
        simp only [atKey, older, htombstones, nextRangeTombstone_eq, hcover, hdeath, countMetadata_eq,
          Except.ok.injEq, Computing.mk.injEq, and_true]
        rw [add_assoc, ← worth_add]
        congr 2
        simp only [top, MVCCMetadata.isInline, hraw, hok.keyBytes, hok.valBytes, isEmpty_nil, Bool.not_true,
          Bool.false_eq_true, if_false]
        abel
      obtain ⟨st', hfold, hin, hms⟩ := older_loop sz nowNanos range k ks.committed older ⟨rfl, rfl, hrange, htombstones⟩
      refine ⟨st', ?_, .inr hin.prevKey, hin.lastRange, hin.tombstones, ?_⟩
      · rw [hhist, singleton_append, map_cons, foldlM_cons, hstep]
        show List.foldlM _ _ _ = _
        rw [foldlM_cons, hstep']
        exact hfold
      · rw [hms, if_neg (not_not.mpr hraw), hhist, tail_cons]
        simp only [older, worth_add]
        abel
    · have hinline : m.isInline = true := by simpa [MVCCMetadata.isInline] using hraw
      have hsize : (encodedMVCCKeyPrefixLength k : Int) ≠ 0 := by
        unfold encodedMVCCKeyPrefixLength
        omega
      have halive : m.deleted = false := by
        rw [hwf.plain m hm hraw]
        rfl
      rw [hwf.inline m hm hraw]
      refine ⟨atKey, by rw [map_nil, append_nil, foldlM_cons, hstep]; rfl, .inr rfl, hrange, htombstones, ?_⟩
      simp only [atKey, countMetadata_eq, hinline, if_true, hraw, ne_eq, not_false_eq_true, inlineStats, hsize, if_false,
        deathBelow, halive, Bool.false_eq_true, not_true_eq_false]
      rw [add_right_comm]

/-! Range keys. -/

/-- The versions of a fragment, the first one with the bounds. -/
def rangeStatsFrom (sz : Sizes) (s : RangeKeyStack) : Bool → List RangeKeyVersion → MVCCStats
  | _, [] => 0
  | top, v :: versions =>
    { zero with
      rangeKeyCount := if top then 1 else 0
      rangeKeyBytes := encodedMVCCTimestampSuffixLength v.timestamp +
        if top then (encodedMVCCKeyPrefixLength s.key + encodedMVCCKeyPrefixLength s.endKey : Nat) else 0
      rangeValCount := 1
      rangeValBytes := encodedMVCCValueSize sz v.value }.since v.timestamp.wallTime + rangeStatsFrom sz s false versions

def rangeStats (sz : Sizes) (s : RangeKeyStack) : MVCCStats := rangeStatsFrom sz s true s.versions

theorem countRangeKeys_eq (s : RangeKeyStack) : ∀ (versions : List RangeKeyVersion) (top : Bool) (ms : MVCCStats),
    countRangeKeys sz nowNanos s top versions ms = ms + worth nowNanos (rangeStatsFrom sz s top versions)
  | [], _, ms => by rw [countRangeKeys, rangeStatsFrom, worth_zero, add_zero]
  | v :: versions, top, ms => by
    rw [countRangeKeys, countRangeKeys_eq s versions false, rangeStatsFrom, worth_add, ← add_assoc]
    congr 1
    cases top
    all_goals
      simp [Counters.ext_iff, worth, since, ageNow, add_def, Counters.zip, zero, gcBytes, total]
      try grind

variable (sz nowNanos) in
/-- The loop takes notice of the range keys of a stop. -/
def switchRange (st : Computing) (range : Option RangeKeyStack) : Computing :=
  { (if range = st.lastRange then st
    else match range with
      | some s => { st with
          rangeTombstones := s.versions
          ms := countRangeKeys sz nowNanos s true s.versions st.ms }
      | none => { st with rangeTombstones := [] }) with lastRange := range }

theorem switchRange_self (h : st.lastRange = range) : switchRange sz nowNanos st range = st := by
  subst h
  simp [switchRange]

@[simp] theorem switchRange_lastRange (st : Computing) (range : Option RangeKeyStack) :
    (switchRange sz nowNanos st range).lastRange = range := rfl

@[simp] theorem switchRange_prevKey (st : Computing) (range : Option RangeKeyStack) :
    (switchRange sz nowNanos st range).prevKey = st.prevKey := by
  unfold switchRange
  split
  · rfl
  · cases range <;> rfl

theorem switchRange_tombstones (h : st.rangeTombstones = rangeVersions st.lastRange)
    (range : Option RangeKeyStack) : (switchRange sz nowNanos st range).rangeTombstones = rangeVersions range := by
  unfold switchRange
  split
  · rename_i heq
    rw [heq]
    exact h
  · cases range <;> rfl

theorem computeStop_switch (st : Computing) (point : Option StopRecord) :
    computeStop sz nowNanos st ⟨k, range, point⟩ =
      computeStop sz nowNanos (switchRange sz nowNanos st range) ⟨k, range, point⟩ := by
  have hstop : ∀ st : Computing, computeStop sz nowNanos st ⟨k, range, point⟩ = match point with
      | none => .ok (switchRange sz nowNanos st range)
      | some r => computeRecord sz nowNanos (switchRange sz nowNanos st range) k r := fun _ => rfl
  rw [hstop, hstop, switchRange_self (switchRange_lastRange st range)]

variable (nowNanos) in
/-- All stops at a key. -/
theorem keyStops_loop {ks : KeyState} (hwf : ks.WellFormed sz range)
    (hkey : ks.history ≠ [] → st.prevKey ≠ k) (hsync : st.rangeTombstones = rangeVersions st.lastRange)
    (hne : keyStops range k ks ≠ []) :
    ∃ st', (keyStops range k ks).foldlM (computeStop sz nowNanos) st = .ok st' ∧
      (st'.prevKey = st.prevKey ∨ st'.prevKey = k) ∧ st'.lastRange = range ∧ st'.rangeTombstones = rangeVersions range ∧
      st'.ms = (switchRange sz nowNanos st range).ms + worth nowNanos (keyStats sz range k ks) := by
  have hrecords := records_loop nowNanos (switchRange sz nowNanos st range) hwf (by rwa [switchRange_prevKey])
    rfl (switchRange_tombstones hsync range)
  rw [switchRange_prevKey] at hrecords
  -- The first stop, whichever it is, takes notice of the range keys.
  have hswitch : (keyStops range k ks).foldlM (computeStop sz nowNanos) st =
      (keyStops range k ks).foldlM (computeStop sz nowNanos) (switchRange sz nowNanos st range) := by
    have hall : ∀ stop ∈ keyStops range k ks, stop.key = k ∧ stop.range = range := by
      intro stop hstop
      simp only [keyStops, mem_append, mem_map] at hstop
      rcases hstop with (hstop | hstop) | ⟨_, _, rfl⟩
      · split at hstop
        · rw [mem_singleton.mp hstop]
          exact ⟨rfl, rfl⟩
        · cases hstop
      · split at hstop
        · rw [mem_singleton.mp hstop]
          exact ⟨rfl, rfl⟩
        · cases hstop
      · exact ⟨rfl, rfl⟩
    cases hstops : keyStops range k ks with
    | nil => exact absurd hstops hne
    | cons stop stops =>
      obtain ⟨key, range', point⟩ := stop
      obtain ⟨rfl, rfl⟩ := hall ⟨key, range', point⟩ (by simp [hstops])
      rw [foldlM_cons, foldlM_cons, computeStop_switch]
  rw [hswitch, keyStops, append_assoc]
  split
  · rw [singleton_append, foldlM_cons]
    have hbare : computeStop sz nowNanos (switchRange sz nowNanos st range) ⟨k, range, none⟩ =
        .ok (switchRange sz nowNanos st range) := by
      show Except.ok (switchRange sz nowNanos (switchRange sz nowNanos st range) range) = _
      rw [switchRange_self (switchRange_lastRange st range)]
    rw [hbare]
    exact hrecords
  · exact hrecords

end

end

/-! The keys where the iterator stops. -/

section
variable {M : Type*} [AddCommGroup M]

theorem get_addStart (st : Store Bytes KeyState) (s : RangeKeyStack) (k : Bytes) :
    (addStart st s).get k = ((st.get k).or (if s.key = k then some ⟨none, .empty⟩ else none)) := by
  unfold addStart
  cases hs : st.get s.key with
  | some ks =>
    by_cases hk : s.key = k
    · subst hk
      simp [hs]
    · simp [hk]
  | none =>
    simp only [Store.get_put]
    by_cases hk : s.key = k
    · subst hk
      simp [hs]
    · simp [hk, Ne.symm hk]

theorem get_foldl_addStart (k : Bytes) : ∀ (l : List RangeKeyStack) (st : Store Bytes KeyState),
    (l.foldl addStart st).get k = (st.get k).or (if ∃ s ∈ l, s.key = k then some ⟨none, .empty⟩ else none)
  | [], st => by simp
  | s :: l, st => by
    rw [foldl_cons, get_foldl_addStart k l, get_addStart]
    by_cases hk : s.key = k
    · simp [hk]
    · simp [hk]

theorem sum_addStart {f : Bytes → KeyState → M} (hf : ∀ k, f k ⟨none, .empty⟩ = 0) (st : Store Bytes KeyState)
    (s : RangeKeyStack) : (addStart st s).sum f = st.sum f := by
  unfold addStart
  cases hs : st.get s.key with
  | some ks => rfl
  | none =>
    rw [Store.sum_put, Store.term, hs, hf]
    simp

theorem sum_foldl_addStart {f : Bytes → KeyState → M} (hf : ∀ k, f k ⟨none, .empty⟩ = 0) (l : List RangeKeyStack)
    (st : Store Bytes KeyState) : (l.foldl addStart st).sum f = st.sum f := by
  induction l generalizing st with
  | nil => rfl
  | cons s l ih => rw [foldl_cons, ih, sum_addStart hf]

end

section
variable {sz : Sizes} {nowNanos : Int} {e : Engine}

variable {p : Bytes × KeyState} {s : RangeKeyStack}

/-- A stop is at a key with records, or where a fragment begins. -/
theorem Engine.mem_stopKeys : p ∈ e.stopKeys.entries ↔ e.keys.get p.1 = some p.2 ∨
    e.keys.get p.1 = none ∧ (∃ s ∈ e.ranges.fragments, s.key = p.1) ∧ (⟨none, .empty⟩ : KeyState) = p.2 := by
  have hget : p ∈ e.stopKeys.entries ↔ e.stopKeys.get p.1 = some p.2 := e.stopKeys.ascending.find?_eq_some_iff.symm
  rw [hget, Engine.stopKeys, get_foldl_addStart, Option.or_eq_some_iff, Option.ite_none_right_eq_some, Option.some_inj]

theorem Engine.stopKeys_keyState (hp : p ∈ e.stopKeys.entries) : e.keyState p.1 = p.2 := by
  unfold Engine.keyState
  rcases Engine.mem_stopKeys.mp hp with hget | ⟨hget, _, hempty⟩
  · rw [hget]
    rfl
  · rw [hget]
    exact hempty

/-- The first key of a fragment is covered by it and by no other. -/
theorem RangeKeys.at?_start (r : RangeKeys) (hs : s ∈ r.fragments) : r.at? s.key = some s :=
  r.at?_eq_some_iff.mpr ⟨hs, le_refl _, (r.valid s hs).bounds⟩

theorem Engine.mem_stopKeys_of_start (hs : s ∈ e.ranges.fragments) :
    ∃ ks, (s.key, ks) ∈ e.stopKeys.entries := by
  cases hks : e.keys.get s.key with
  | some ks => exact ⟨ks, Engine.mem_stopKeys.mpr (.inl hks)⟩
  | none => exact ⟨_, Engine.mem_stopKeys.mpr (.inr ⟨hks, ⟨s, hs, rfl⟩, rfl⟩)⟩

/-- Every such key has a stop, and is not empty if it has records. -/
theorem Engine.WellFormed.keyStops_ne_nil (he : e.WellFormed sz)
    (hp : p ∈ e.stopKeys.entries) : keyStops (e.ranges.at? p.1) p.1 p.2 ≠ [] := by
  rcases Engine.mem_stopKeys.mp hp with hget | ⟨_, ⟨s, hs, hkey⟩, hempty⟩
  · cases hm : p.2.metadata with
    | some m => simp [keyStops, hm]
    | none =>
      have hne := (he.key p.1 p.2 hget).inhabited hm
      simp [keyStops, hne]
  · have hat := e.ranges.at?_start hs
    rw [hkey] at hat
    rw [← hempty]
    simp [keyStops, hat, hkey]

theorem Engine.WellFormed.stopKey_ne_nil (he : e.WellFormed sz) (hp : p ∈ e.stopKeys.entries)
    (hhist : p.2.history ≠ []) : p.1 ≠ [] := by
  rw [← Engine.stopKeys_keyState hp] at hhist
  cases hget : e.keys.get p.1 with
  | none => exact absurd (by rw [Engine.keyState, hget]; rfl) hhist
  | some ks => exact he.nonempty p.1 ks hget

/-! The whole loop. -/

/-- What the fragments that begin at a key are worth. -/
def startStats (sz : Sizes) (e : Engine) (k : Bytes) : MVCCStats :=
  (e.ranges.fragments.map fun s => if s.key = k then rangeStats sz s else 0).sum

open Classical in
theorem sum_map_unique {α M : Type} [AddCommMonoid M] {p : α → Prop} [DecidablePred p] {g : α → M} {a : α}
    {l : List α} (hl : l.Nodup) (ha : a ∈ l) (hp : p a) (hother : ∀ b ∈ l, p b → b = a) :
    (l.map fun b => if p b then g b else 0).sum = g a := by
  rw [sum_map_eq_nsmul_single a _ fun b hne hb => if_neg fun hpb => hne (hother b hb hpb),
    count_eq_one_of_mem hl ha, one_nsmul, if_pos hp]

theorem startStats_of_start (hs : s ∈ e.ranges.fragments) : startStats sz e s.key = rangeStats sz s := by
  have hnodup : e.ranges.fragments.Nodup := e.ranges.apart.imp_of_mem fun {a b} ha _ hle heq => by
    subst heq
    exact absurd (e.ranges.valid a ha).bounds (not_lt.mpr hle)
  refine sum_map_unique hnodup hs rfl fun b hb hkey => Option.some.inj ?_
  rw [← e.ranges.at?_start hb, hkey, e.ranges.at?_start hs]

theorem startStats_of_none {k : Bytes} (h : ∀ s ∈ e.ranges.fragments, s.key ≠ k) : startStats sz e k = 0 := by
  refine sum_eq_zero fun x hx => ?_
  obtain ⟨s, hs, rfl⟩ := mem_map.mp hx
  rw [if_neg (h s hs)]

/-- What the loop has counted after some of the keys. -/
structure Counted (sz : Sizes) (nowNanos : Int) (e : Engine) (done : List (Bytes × KeyState)) (st : Computing) :
    Prop where
  ms : st.ms = worth nowNanos ((done.map fun p => keyStats sz (e.ranges.at? p.1) p.1 p.2).sum +
    (done.map fun p => startStats sz e p.1).sum)
  prevKey : st.prevKey = [] ∨ ∃ p ∈ done, st.prevKey = p.1
  lastRange : st.lastRange = done.getLast?.bind fun p => e.ranges.at? p.1
  tombstones : st.rangeTombstones = rangeVersions st.lastRange

/-- The range keys change exactly where a fragment begins or none is. -/
theorem Counted.switchRange_ms {done rest : List (Bytes × KeyState)} {st : Computing}
    (h : Counted sz nowNanos e done st) (hall : e.stopKeys.entries = done ++ p :: rest) :
    (switchRange sz nowNanos st (e.ranges.at? p.1)).ms = st.ms + worth nowNanos (startStats sz e p.1) := by
  have hasc := e.stopKeys.ascending
  rw [hall] at hasc
  have hbefore : ∀ q ∈ done, q.1 < p.1 := fun q hq => (pairwise_append.mp hasc).2.2 q hq p (by simp)
  by_cases hstart : ∃ s ∈ e.ranges.fragments, s.key = p.1
  · obtain ⟨s, hs, hkey⟩ := hstart
    have hat := e.ranges.at?_start hs
    have hne : some s ≠ st.lastRange := by
      rw [h.lastRange]
      intro heq
      obtain ⟨q, hq, hatq⟩ := Option.bind_eq_some_iff.mp heq.symm
      have hcovers := (e.ranges.at?_eq_some_iff.mp hatq).2
      have hlt := hbefore q (mem_of_getLast? hq)
      exact absurd hcovers.1 (not_le.mpr (hkey ▸ hlt))
    rw [← hkey, hat, startStats_of_start hs, switchRange, if_neg hne]
    rw [countRangeKeys_eq, rangeStats]
  have hnone : ∀ s ∈ e.ranges.fragments, s.key ≠ p.1 := fun s hs hkey => hstart ⟨s, hs, hkey⟩
  rw [startStats_of_none hnone, worth_zero, add_zero]
  cases hat : e.ranges.at? p.1 with
  | none =>
    unfold switchRange
    split <;> rfl
  | some s =>
    -- The fragment began at an earlier key, so it is that of the last one.
    obtain ⟨hs, hcovers⟩ := e.ranges.at?_eq_some_iff.mp hat
    obtain ⟨ks, hmem⟩ := e.mem_stopKeys_of_start hs
    have hlt : s.key < p.1 := lt_of_le_of_ne hcovers.1 (hnone s hs)
    have hdone : (s.key, ks) ∈ done := by
      rw [hall] at hmem
      rcases mem_append.mp hmem with hmem | hmem
      · exact hmem
      rcases mem_cons.mp hmem with heq | hmem
      · rw [← heq] at hlt
        exact absurd hlt (lt_irrefl _)
      · have := (pairwise_cons.mp (pairwise_append.mp hasc).2.1).1 _ hmem
        exact absurd this (not_lt.mpr hlt.le)
    have hlast : st.lastRange = some s := by
      rw [h.lastRange]
      obtain ⟨init, q, hq⟩ := (eq_nil_or_concat' done).resolve_left (ne_nil_of_mem hdone)
      rw [hq, getLast?_append_cons, getLast?_singleton]
      have hle : s.key ≤ q.1 := by
        rw [hq] at hdone
        rcases mem_append.mp hdone with hd | hd
        · have hpair := (pairwise_append.mp (hq ▸ (pairwise_append.mp hasc).1)).2.2 _ hd q (by simp)
          exact hpair.le
        · rw [← mem_singleton.mp hd]
      exact e.ranges.at?_eq_some_iff.mpr ⟨hs, hle, (hbefore q (by simp [hq])).trans hcovers.2⟩
    rw [switchRange_self hlast]

/-- One key more. -/
theorem Counted.step (he : e.WellFormed sz) {done rest : List (Bytes × KeyState)}
    {st : Computing} (h : Counted sz nowNanos e done st) (hall : e.stopKeys.entries = done ++ p :: rest) :
    ∃ st', (keyStops (e.ranges.at? p.1) p.1 p.2).foldlM (computeStop sz nowNanos) st = .ok st' ∧
      Counted sz nowNanos e (done ++ [p]) st' := by
  have hp : p ∈ e.stopKeys.entries := by simp [hall]
  have hwf : p.2.WellFormed sz (e.ranges.at? p.1) := by
    rw [← Engine.stopKeys_keyState hp]
    exact he.keyState p.1
  have hasc := e.stopKeys.ascending
  rw [hall] at hasc
  have hkey : p.2.history ≠ [] → st.prevKey ≠ p.1 := by
    intro hhist
    rcases h.prevKey with hnil | ⟨q, hq, heq⟩
    · rw [hnil]
      exact (he.stopKey_ne_nil hp hhist).symm
    · rw [heq]
      exact ((pairwise_append.mp hasc).2.2 q hq p (by simp)).ne
  obtain ⟨st', hfold, hprev, hlast, htomb, hms⟩ := keyStops_loop nowNanos hwf hkey h.tombstones (he.keyStops_ne_nil hp)
  refine ⟨st', hfold, ?_, ?_, by simpa using hlast, by rw [htomb, hlast]⟩
  · rw [hms, h.switchRange_ms hall, h.ms, ← worth_add, ← worth_add]
    simp only [map_append, sum_append, map_cons, map_nil, sum_cons, sum_nil]
    refine congrArg (worth nowNanos) ?_
    abel
  rcases hprev with hprev | hprev
  · rw [hprev]
    rcases h.prevKey with hnil | ⟨q, hq, heq⟩
    · exact .inl hnil
    · exact .inr ⟨q, by simp [hq], heq⟩
  · exact .inr ⟨p, by simp, hprev⟩

theorem Counted.run (he : e.WellFormed sz) : ∀ {rest done : List (Bytes × KeyState)} {st : Computing},
    Counted sz nowNanos e done st → e.stopKeys.entries = done ++ rest →
    ∃ st', (rest.flatMap fun p => keyStops (e.ranges.at? p.1) p.1 p.2).foldlM (computeStop sz nowNanos) st = .ok st' ∧
      Counted sz nowNanos e (done ++ rest) st'
  | [], done, st, h, _ => ⟨st, rfl, by rwa [append_nil]⟩
  | p :: rest, done, st, h, hall => by
    obtain ⟨st₁, hfold₁, h₁⟩ := h.step he hall
    obtain ⟨st', hfold, h'⟩ := Counted.run he h₁ (by rw [hall, append_assoc]; rfl)
    refine ⟨st', ?_, by rwa [append_assoc] at h'⟩
    rw [flatMap_cons, foldlM_append, hfold₁]
    exact hfold

variable (sz) in
/-- The contents of an engine: its keys and its range tombstones. -/
def engineStats (e : Engine) : MVCCStats :=
  e.keys.sum (fun k ks => keyStats sz (e.ranges.at? k) k ks) + (e.ranges.fragments.map (rangeStats sz)).sum

/-- Every fragment begins at one of the keys. -/
theorem sum_startStats (sz : Sizes) (e : Engine) :
    (e.stopKeys.entries.map fun p => startStats sz e p.1).sum = (e.ranges.fragments.map (rangeStats sz)).sum := by
  have hswap := Multiset.sum_map_sum_map (.ofList e.stopKeys.entries) (.ofList e.ranges.fragments)
    (f := fun p s => if s.key = p.1 then rangeStats sz s else 0)
  simp only [Multiset.map_coe, Multiset.sum_coe] at hswap
  unfold startStats
  rw [hswap]
  congr 1
  refine map_congr_left fun s hs => ?_
  obtain ⟨ks, hmem⟩ := Engine.mem_stopKeys_of_start hs
  refine sum_map_unique (p := fun p : Bytes × KeyState => s.key = p.1) (g := fun _ => rangeStats sz s)
    e.stopKeys.ascending.nodup hmem rfl fun q hq hkey => ?_
  refine Prod.ext hkey.symm ?_
  rw [← Engine.stopKeys_keyState hmem, ← Engine.stopKeys_keyState hq, hkey]

/-- `ComputeStats` comes to what the contents are worth. -/
theorem computeStats_eq (he : e.WellFormed sz) (nowNanos : Int) : computeStats sz nowNanos e =
    .ok { worth nowNanos (engineStats sz e) with lastUpdateNanos := nowNanos } := by
  have hstart : Counted sz nowNanos e [] .start := ⟨(worth_zero nowNanos).symm, .inl rfl, rfl, rfl⟩
  obtain ⟨st, hfold, h⟩ := hstart.run he rfl
  rw [computeStats, Engine.stops, hfold]
  simp only [Except.map]
  rw [h.ms, nil_append, sum_startStats]
  have hkeys : (e.stopKeys.entries.map fun p => keyStats sz (e.ranges.at? p.1) p.1 p.2).sum =
      e.keys.sum fun k ks => keyStats sz (e.ranges.at? k) k ks :=
    sum_foldl_addStart (f := fun k ks => keyStats sz (e.ranges.at? k) k ks) (fun k => rfl) _ _
  rw [hkeys, engineStats]

end

end Ratel.Storage
