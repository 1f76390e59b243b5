import Ratel.Storage.StatsWrap

/- The statistics as a group. Two fields of a record age, at rates that its other fields
   give, so a record stands for the same quantities at every time; it is compared with
   others by moving it to time zero (`atZero`). There records add up field by field, and
   bytes and intents that are counted from a time on contribute what they are worth at
   time zero (`since`). An update is then the sum of what it counts, and when. -/
namespace Ratel.Storage

namespace Counters

instance : Zero MVCCStats := ⟨zero⟩

instance : Add MVCCStats where
  add a b := { zip (· + ·) a b with lastUpdateNanos := a.lastUpdateNanos + b.lastUpdateNanos }

instance : Neg MVCCStats where
  neg a := { zip (fun x _ => -x) a a with lastUpdateNanos := -a.lastUpdateNanos }

theorem zero_def : (0 : MVCCStats) = zero := rfl

theorem add_def (a b : MVCCStats) : a + b =
    { zip (· + ·) a b with lastUpdateNanos := a.lastUpdateNanos + b.lastUpdateNanos } := rfl

theorem neg_def (a : MVCCStats) :
    -a = { zip (fun x _ => -x) a a with lastUpdateNanos := -a.lastUpdateNanos } := rfl

instance : AddCommGroup MVCCStats where
  add_assoc a b c := by simp [add_def, zip, add_assoc]
  zero_add a := by simp [add_def, zip, zero_def, zero]
  add_zero a := by simp [add_def, zip, zero_def, zero]
  add_comm a b := by simp [add_def, zip, add_comm]
  neg_add_cancel a := by simp [add_def, zip, neg_def, zero_def, zero]
  nsmul := nsmulRec
  zsmul := zsmulRec

/-! Time zero. -/

/-- The record at time zero. -/
def atZero (ms : MVCCStats) : MVCCStats := ms.ageTo 0

/-- Bytes and intents that are counted from a time on, at time zero. -/
def since (nanos : Int) (ms : MVCCStats) : MVCCStats :=
  { ms with
    lastUpdateNanos := 0
    gcBytesAge := - (ms.gcBytes * seconds nanos)
    intentAge := - (ms.intentCount * seconds nanos) }

@[simp] theorem seconds_zero : seconds 0 = 0 := rfl

theorem ageTo_atZero (ms : MVCCStats) (now : Int) : ms.atZero.ageTo now = ms.ageTo now := ms.ageTo_ageTo 0 now

/-- Two records that agree at one time agree at every time. -/
theorem atZero_ageTo (ms : MVCCStats) (now : Int) : (ms.ageTo now).atZero = ms.atZero := ms.ageTo_ageTo now 0

@[simp] theorem atZero_add (a b : MVCCStats) : (a.add b).atZero = a.atZero + b.atZero :=
  combine_ageTo linear_add a b 0

theorem since_add (nanos : Int) (a b : MVCCStats) : (a + b).since nanos = a.since nanos + b.since nanos := by
  simp only [Counters.ext_iff, since, add_def, zip, gcBytes, total, add_zero, true_and, and_true]
  constructor <;> ring

theorem since_neg (nanos : Int) (a : MVCCStats) : (-a).since nanos = -a.since nanos := by
  simp only [Counters.ext_iff, since, neg_def, zip, gcBytes, total, neg_zero, true_and, and_true]
  constructor <;> ring

/-- Nothing in the record has aged yet. -/
def Ageless (d : MVCCStats) : Prop := d.gcBytesAge = 0 ∧ d.intentAge = 0

theorem Ageless.add {a b : MVCCStats} (ha : a.Ageless) (hb : b.Ageless) : (a + b).Ageless :=
  ⟨congrArg₂ (· + ·) ha.1 hb.1, congrArg₂ (· + ·) ha.2 hb.2⟩

theorem Ageless.neg {a : MVCCStats} (ha : a.Ageless) : (-a).Ageless :=
  ⟨congrArg (- ·) ha.1, congrArg (- ·) ha.2⟩

theorem Ageless.sub {a b : MVCCStats} (ha : a.Ageless) (hb : b.Ageless) : (a - b).Ageless :=
  sub_eq_add_neg a b ▸ ha.add hb.neg

/-- Fields that have not aged may be added at any time, and count from then on. -/
theorem atZero_zip_since (ms : MVCCStats) {d : MVCCStats} (h : d.Ageless) :
    (zip (· + ·) ms d).atZero = ms.atZero + d.since ms.lastUpdateNanos := by
  simp only [Counters.ext_iff, atZero, ageTo, zip, add_def, gcBytes, total, since, seconds_zero, h.1, h.2, Int.cast_id,
    add_zero, true_and, and_true]
  constructor <;> ring

/-! What is counted. -/

def bytes (key val : Int) : MVCCStats := { zero with keyBytes := key, valBytes := val }

def liveBytesOf (n : Int) : MVCCStats := { zero with liveBytes := n }

/-- Bytes that are live, or garbage since a time. -/
def chunk (death : Option Int) (key val : Int) : MVCCStats :=
  match death with
  | none => bytes key val + liveBytesOf (key + val)
  | some nanos => (bytes key val).since nanos

def intentSince (nanos : Int) (n : Int) : MVCCStats :=
  { zero with intentBytes := n, intentCount := 1, separatedIntentCount := 1 }.since nanos

/-- A key, which is live if its newest version is. -/
def keyOf (death : Option Int) : MVCCStats :=
  { zero with keyCount := 1, liveCount := if death.isNone then 1 else 0 }

def version : MVCCStats := { zero with valCount := 1 }

/-- A key with its newest version: the bytes of its metadata, and those of the version. -/
def top (death : Option Int) (metaKey metaVal key val : Int) : MVCCStats :=
  keyOf death + version + chunk death metaKey metaVal + chunk death key val

/-- Garbage of a later time. -/
theorem chunk_some_sub (key val t t' : Int) : chunk (some t') key val - chunk (some t) key val =
    (liveBytesOf (key + val)).since t - (liveBytesOf (key + val)).since t' := by
  simp only [sub_eq_add_neg]
  simp [chunk, bytes, liveBytesOf, since, add_def, zip, neg_def, zero, gcBytes, total]
  ring

/-- Age of garbage on its own. -/
def gcAge (n : Int) : MVCCStats := { zero with gcBytesAge := n }

theorem gcAge_add (m n : Int) : gcAge (m + n) = gcAge m + gcAge n := by
  simp [gcAge, add_def, zip, zero]

@[simp] theorem gcAge_zero : gcAge 0 = 0 := rfl

/-- Garbage of a later time has less of an age. -/
theorem chunk_some_sub_eq_gcAge (key val t t' : Int) : chunk (some t') key val - chunk (some t) key val =
    -gcAge ((key + val) * (seconds t' - seconds t)) := by
  simp only [sub_eq_add_neg]
  simp [chunk, bytes, since, gcAge, add_def, zip, neg_def, zero, gcBytes, total]
  ring

theorem ageTo_add_gcBytesAge (ms : MVCCStats) (n now : Int) :
    { ms with gcBytesAge := ms.gcBytesAge + n }.ageTo now =
      { ms.ageTo now with gcBytesAge := (ms.ageTo now).gcBytesAge + n } := by
  simp only [ageTo, gcBytes, total, Counters.ext_iff, true_and, and_true]
  ring

theorem atZero_add_gcBytesAge (ms : MVCCStats) (n : Int) :
    { ms with gcBytesAge := ms.gcBytesAge + n }.atZero = ms.atZero + gcAge n := by
  rw [atZero, ageTo_add_gcBytesAge]
  simp [gcAge, add_def, zip, zero, atZero]

end Counters

open Counters

/-! Updates as sums. -/

/-- When the newest version died, by its metadata. -/
def MVCCMetadata.death (m : MVCCMetadata) : Option Int :=
  if m.deleted then some m.timestamp.wallTime else none

def MVCCMetadata.intentStats (m : MVCCMetadata) : MVCCStats :=
  if m.txn.isSome then intentSince m.timestamp.wallTime (m.keyBytes + m.valBytes) else 0

/-- The version under an intent that moves is garbage from a later time on. -/
def movedUnder (isValue : Bool) (prevSize : Int) (orig nanos : Int) : MVCCStats :=
  if isValue then chunk (some nanos) versionTimestampSize prevSize -
    chunk (some orig) versionTimestampSize prevSize else 0

/-- What a put takes away from the version that was the newest: all of it if it was an
    intent; otherwise it stays as an older version, garbage since the put if it was live. -/
def replaced (orig : MVCCMetadata) (origKey origVal nanos : Int) : MVCCStats :=
  if orig.txn.isSome then top orig.death origKey origVal orig.keyBytes orig.valBytes + orig.intentStats
  else keyOf orig.death + chunk orig.death origKey origVal +
    if orig.deleted then 0 else chunk none orig.keyBytes orig.valBytes - chunk (some nanos) orig.keyBytes orig.valBytes

/-- The bytes, the live bytes and the intent of a newest version and its metadata. -/
def held (m : MVCCMetadata) (metaKey metaVal : Int) (intent : Bool) : MVCCStats :=
  (if m.deleted then 0 else
    { zero with liveBytes := m.keyBytes + m.valBytes + (metaKey + metaVal), liveCount := 1 }) +
  bytes (metaKey + m.keyBytes) (metaVal + m.valBytes) +
  if intent then { zero with intentBytes := m.keyBytes + m.valBytes, intentCount := 1, separatedIntentCount := 1 } else 0

def keyAndVersion : MVCCStats := { zero with keyCount := 1, valCount := 1 }

theorem keyAndVersion_ageless : keyAndVersion.Ageless := ⟨rfl, rfl⟩

theorem since_keyAndVersion (nanos : Int) : keyAndVersion.since nanos = keyAndVersion := by
  simp [since, keyAndVersion, zero, gcBytes, total]

/-- The version under a moving intent, live between two times. -/
def liveUnder (isValue : Bool) (prevSize : Int) : MVCCStats :=
  if isValue then liveBytesOf (versionTimestampSize + prevSize) else 0

/-- What a put takes away at the timestamp of the version that was the newest. -/
def removedAt (orig : MVCCMetadata) (origKey origVal : Int) : MVCCStats :=
  (if orig.txn.isSome then { zero with
      valCount := 1, intentBytes := orig.keyBytes + orig.valBytes, intentCount := 1, separatedIntentCount := 1 } else 0) +
  if orig.deleted then bytes origKey origVal + (if orig.txn.isSome then bytes orig.keyBytes orig.valBytes else 0) else 0

/-- What it takes away at its own timestamp. -/
def shadowedAt (orig : MVCCMetadata) (origKey origVal : Int) : MVCCStats :=
  if orig.deleted then 0 else
    { zero with
      liveBytes := orig.keyBytes + orig.valBytes + (origKey + origVal), liveCount := 1 } +
    bytes origKey origVal + if orig.txn.isSome then bytes orig.keyBytes orig.valBytes else 0

/-- What a put takes away of the version that was the newest, if there was one. -/
def superseded (isValue : Bool) (prevSize origKey origVal nanos : Int)
    (orig : Option MVCCMetadata) : MVCCStats :=
  match orig with
  | some orig => movedUnder isValue prevSize orig.timestamp.wallTime nanos - replaced orig origKey origVal nanos
  | none => 0

/-- The older version that is the newest again, with its metadata. -/
def restoredStats (restoredKey restoredVal : Int) (restored : MVCCMetadata)
    (restoredNanos nanos : Int) : MVCCStats :=
  let death := if restored.deleted then some restoredNanos else none
  keyOf death + chunk death restoredKey restoredVal +
    if restored.deleted then 0
    else chunk none restored.keyBytes restored.valBytes - chunk (some nanos) restored.keyBytes restored.valBytes

section
variable (isValue intent commit : Bool) (prevSize origKey origVal metaKey metaVal : Int)
  (restoredKey restoredVal restoredNanos nanos : Int) (m orig new restored : MVCCMetadata)

theorem since_held : keyAndVersion + (held m metaKey metaVal intent).since m.timestamp.wallTime =
      top m.death metaKey metaVal m.keyBytes m.valBytes +
        if intent then intentSince m.timestamp.wallTime (m.keyBytes + m.valBytes) else 0 := by
  unfold held top MVCCMetadata.death
  cases m.deleted <;> cases intent
  all_goals
    simp [Counters.ext_iff, keyAndVersion, keyOf, version, chunk, bytes, liveBytesOf, intentSince, since, add_def,
      zip, zero_def, zero, gcBytes, total]
    grind

theorem held_ageless : (held m metaKey metaVal intent).Ageless := by
  unfold held
  cases m.deleted <;> cases intent <;> exact ⟨rfl, rfl⟩

theorem liveUnder_ageless : (liveUnder isValue prevSize).Ageless := by
  cases isValue <;> exact ⟨rfl, rfl⟩

theorem movedUnder_eq (origNanos : Int) : movedUnder isValue prevSize origNanos nanos =
      (liveUnder isValue prevSize).since origNanos - (liveUnder isValue prevSize).since nanos := by
  unfold movedUnder liveUnder
  cases isValue with
  | false => simp [since, zero_def, zero, gcBytes, total]
  | true => exact chunk_some_sub _ _ _ _

/-! Puts. -/

theorem removeOrig_eq : removeOrig isValue prevSize origKey origVal orig nanos =
      ((({ zero with keyCount := -1 }.ageTo orig.timestamp.wallTime).zip (· + ·) (liveUnder isValue prevSize -
        removedAt orig origKey origVal)).ageTo nanos).zip (· + ·)
          (-liveUnder isValue prevSize - shadowedAt orig origKey origVal) := by
  unfold removeOrig liveUnder removedAt shadowedAt
  cases orig.deleted <;> cases orig.txn <;> cases isValue
  all_goals
    simp [Counters.ext_iff, zip, ageTo, add_def, neg_def, sub_eq_add_neg, bytes, liveBytesOf, zero_def, zero,
      gcBytes, total]
    try grind

theorem removeOrig_time :
    (removeOrig isValue prevSize origKey origVal orig nanos).lastUpdateNanos = nanos := by
  rw [removeOrig_eq]
  rfl

theorem removedAt_ageless : (removedAt orig origKey origVal).Ageless := by
  unfold removedAt
  cases orig.deleted <;> cases orig.txn <;> exact ⟨rfl, rfl⟩

theorem shadowedAt_ageless : (shadowedAt orig origKey origVal).Ageless := by
  unfold shadowedAt
  cases orig.deleted <;> cases orig.txn <;> exact ⟨rfl, rfl⟩

theorem removedAt_shadowedAt :
    { zero with keyCount := 1 } + (removedAt orig origKey origVal).since orig.timestamp.wallTime +
      (shadowedAt orig origKey origVal).since nanos =
      replaced orig origKey origVal nanos := by
  unfold removedAt shadowedAt replaced top MVCCMetadata.death MVCCMetadata.intentStats
  cases orig.deleted <;> cases orig.txn
  all_goals
    simp [Counters.ext_iff, keyOf, version, chunk, bytes, liveBytesOf, intentSince, since, add_def, zip, neg_def,
      sub_eq_add_neg, zero_def, zero, gcBytes, total]
    try grind

theorem atZero_removeOrig :
    (removeOrig isValue prevSize origKey origVal orig nanos).atZero =
      movedUnder isValue prevSize orig.timestamp.wallTime nanos - replaced orig origKey origVal nanos := by
  have hkey : ({ zero with keyCount := -1 } : MVCCStats).atZero = -{ zero with keyCount := 1 } := rfl
  have hunder := liveUnder_ageless isValue prevSize
  rw [removeOrig_eq, atZero_zip_since _ (hunder.neg.sub (shadowedAt_ageless ..)), atZero_ageTo,
    atZero_zip_since _ (hunder.sub (removedAt_ageless ..)), atZero_ageTo, hkey, movedUnder_eq,
    ← removedAt_shadowedAt]
  simp only [ageTo, sub_eq_add_neg, since_add, since_neg]
  abel

theorem updateStatsOnPut_eq (orig : Option MVCCMetadata) :
    updateStatsOnPut isValue prevSize origKey origVal metaKey metaVal orig new = (match orig with
        | some orig => removeOrig isValue prevSize origKey origVal orig new.timestamp.wallTime
        | none => Counters.zero.ageTo new.timestamp.wallTime).zip (· + ·)
        (keyAndVersion + held new metaKey metaVal new.txn.isSome) := by
  unfold updateStatsOnPut held keyAndVersion
  -- Where the record comes from does not matter here.
  cases orig with
  | some _ | none =>
    cases new.deleted <;> cases new.txn
    all_goals
      simp [Counters.ext_iff, zip, add_def, bytes, zero]
      try grind

/-- A put: the newest version is replaced by the new one. -/
theorem atZero_updateStatsOnPut (orig : Option MVCCMetadata) :
    (updateStatsOnPut isValue prevSize origKey origVal metaKey metaVal orig new).atZero =
      superseded isValue prevSize origKey origVal new.timestamp.wallTime orig +
      (top new.death metaKey metaVal new.keyBytes new.valBytes + new.intentStats) := by
  rw [updateStatsOnPut_eq, atZero_zip_since _ (keyAndVersion_ageless.add (held_ageless ..)), since_add,
    since_keyAndVersion, MVCCMetadata.intentStats, ← since_held]
  cases orig with
  | some orig => rw [atZero_removeOrig, removeOrig_time, superseded]
  | none =>
    simp only [atZero_ageTo]
    rfl

/-! Resolutions. -/

theorem updateStatsOnResolve_eq :
    updateStatsOnResolve isValue prevSize origKey origVal metaKey metaVal orig new commit =
      (((zero.ageTo orig.timestamp.wallTime).zip (· + ·)
        (liveUnder isValue prevSize - held orig origKey origVal true)).ageTo new.timestamp.wallTime).zip (· + ·)
        (-liveUnder isValue prevSize + held new metaKey metaVal !commit) := by
  unfold updateStatsOnResolve liveUnder held
  all_goals
    simp [Counters.ext_iff, zip, ageTo, add_def, neg_def, sub_eq_add_neg, bytes, liveBytesOf, zero_def, zero,
      gcBytes, total]
    try grind

/-- A resolution that keeps the version: an intent is replaced by another, or committed. -/
theorem atZero_updateStatsOnResolve :
    (updateStatsOnResolve isValue prevSize origKey origVal metaKey metaVal orig new commit).atZero =
      movedUnder isValue prevSize orig.timestamp.wallTime new.timestamp.wallTime -
        (top orig.death origKey origVal orig.keyBytes orig.valBytes +
          intentSince orig.timestamp.wallTime (orig.keyBytes + orig.valBytes)) +
        (top new.death metaKey metaVal new.keyBytes new.valBytes +
          if commit then 0 else intentSince new.timestamp.wallTime (new.keyBytes + new.valBytes)) := by
  have horig := since_held true origKey origVal orig
  have hnew := since_held (!commit) metaKey metaVal new
  have hunder := liveUnder_ageless isValue prevSize
  have hif : (if (!commit) = true then intentSince new.timestamp.wallTime (new.keyBytes + new.valBytes) else 0) =
      if commit then 0 else intentSince new.timestamp.wallTime (new.keyBytes + new.valBytes) := by
    cases commit <;> rfl
  rw [hif] at hnew
  simp only [if_true] at horig
  rw [updateStatsOnResolve_eq, atZero_zip_since _ (hunder.neg.add (held_ageless ..)), atZero_ageTo,
    atZero_zip_since _ (hunder.sub (held_ageless ..)), atZero_ageTo, movedUnder_eq, ← horig, ← hnew]
  simp only [ageTo, sub_eq_add_neg, since_add, since_neg, show zero.atZero = 0 from rfl]
  abel

/-! Removals. -/

theorem atZero_restoreVersion :
    (restoreVersion restoredKey restoredVal restored restoredNanos nanos).atZero =
      restoredStats restoredKey restoredVal restored restoredNanos nanos := by
  unfold restoreVersion restoredStats
  cases restored.deleted
  all_goals
    simp [Counters.ext_iff, atZero, ageTo, keyOf, chunk, bytes, liveBytesOf, since, add_def, zip, neg_def,
      sub_eq_add_neg, zero_def, zero, gcBytes, total]
    try grind

theorem restoreVersion_time :
    (restoreVersion restoredKey restoredVal restored restoredNanos nanos).lastUpdateNanos = nanos := by
  unfold restoreVersion
  cases restored.deleted <;> rfl

theorem updateStatsOnClear_eq (restored : Option MVCCMetadata) :
    updateStatsOnClear origKey origVal restoredKey restoredVal orig restored restoredNanos = (match restored with
        | some restored =>
          restoreVersion restoredKey restoredVal restored restoredNanos orig.timestamp.wallTime
        | none => Counters.zero.ageTo orig.timestamp.wallTime).zip (· + ·)
        (-(keyAndVersion + held orig origKey origVal orig.txn.isSome)) := by
  unfold updateStatsOnClear held keyAndVersion
  cases restored with
  | some _ | none =>
    all_goals
      simp [Counters.ext_iff, zip, add_def, neg_def, bytes, zero_def, zero]
      try grind

/-- A removal: an intent goes, and the version below is the newest again. -/
theorem atZero_updateStatsOnClear (restored : Option MVCCMetadata) :
    (updateStatsOnClear origKey origVal restoredKey restoredVal orig restored restoredNanos).atZero =
      (match restored with
        | some restored => restoredStats restoredKey restoredVal restored restoredNanos orig.timestamp.wallTime
        | none => 0) -
      (top orig.death origKey origVal orig.keyBytes orig.valBytes + orig.intentStats) := by
  rw [updateStatsOnClear_eq, atZero_zip_since _ (keyAndVersion_ageless.add (held_ageless ..)).neg, since_neg,
    since_add, since_keyAndVersion, MVCCMetadata.intentStats, ← since_held, sub_eq_add_neg]
  cases restored with
  | some restored => rw [atZero_restoreVersion, restoreVersion_time]
  | none =>
    simp only [atZero_ageTo]
    rfl

/-! Inline values. -/

/-- A key with an inline value, if it has one. -/
def inlineStats (metaKey metaVal : Int) : MVCCStats :=
  if metaKey = 0 then 0 else keyOf none + version + chunk none metaKey metaVal

theorem atZero_updateStatsForInline (ms : MVCCStats) :
    (updateStatsForInline ms origKey origVal metaKey metaVal).atZero =
      ms.atZero - inlineStats origKey origVal + inlineStats metaKey metaVal := by
  unfold updateStatsForInline inlineStats
  by_cases ho : origKey = 0 <;> by_cases hn : metaKey = 0
  all_goals
    simp [Counters.ext_iff, ho, hn, atZero, ageTo, keyOf, version, chunk, bytes, liveBytesOf, add_def, zip, neg_def,
      sub_eq_add_neg, zero_def, zero, gcBytes, total]
    try grind

end

end Ratel.Storage
