import Mathlib.Data.Int.Cast.Basic
import Ratel.Storage.Engine

/- MVCC statistics and how single writes change them: the `updateStats` functions of
   `mvcc.go` for user keys, and the aging of `enginepb/mvcc.go`. Two quantities age:
   bytes that are not live, and intents. Each update function moves an empty record to
   the timestamps at which bytes change their state, backwards where it has to, so that
   the ages come out as if they had been counted from there on. -/
namespace Ratel.Storage

open Encoding

/-- The sizes of encoded records, which the generated code of the protocol buffers
    determines: the header of a value by its local timestamp, and a metadata record. -/
structure Sizes where
  valueHeader : Timestamp → Nat
  metadata : MVCCMetadata → Nat

/-- `MVCCVersionTimestampSize`. -/
def versionTimestampSize : Int := 12

/-- The length of a value, with the prelude and the header if it has one. -/
def encodedMVCCValueSize (sz : Sizes) (v : MVCCValue) : Nat :=
  if v.localTimestamp = 0 then v.rawBytes.length
  else 5 + sz.valueHeader v.localTimestamp + v.rawBytes.length

def encodedMVCCKeyPrefixLength (key : Bytes) : Nat := key.length + 1

/-- `MVCCStats` with counters in a ring: words of 64 bits, which wrap around, or integers. The
    time of the last update is only compared and divided, and the difference of two times in
    seconds does not overflow. -/
structure Counters (R : Type) where
  containsEstimates : R
  lastUpdateNanos : Int
  intentAge : R
  gcBytesAge : R
  liveBytes : R
  liveCount : R
  keyBytes : R
  keyCount : R
  valBytes : R
  valCount : R
  intentBytes : R
  intentCount : R
  separatedIntentCount : R
  rangeKeyCount : R
  rangeKeyBytes : R
  rangeValCount : R
  rangeValBytes : R
  sysBytes : R
  sysCount : R
  abortSpanBytes : R
deriving DecidableEq, Repr

namespace Counters

attribute [ext] Counters

variable {R : Type} [CommRing R]

def zero : Counters R := ⟨0, 0, 0, 0, 0, 0, 0, 0, 0, 0, 0, 0, 0, 0, 0, 0, 0, 0, 0, 0⟩

def total (ms : Counters R) : R := ms.keyBytes + ms.valBytes + ms.rangeKeyBytes + ms.rangeValBytes

def gcBytes (ms : Counters R) : R := ms.total - ms.liveBytes

def seconds (nanos : Int) : Int := nanos.tdiv 1000000000

/-- Seconds are counted whenever a timestamp crosses a whole second. -/
def ageTo (ms : Counters R) (nowNanos : Int) : Counters R :=
  let diffSeconds : R := ((seconds nowNanos - seconds ms.lastUpdateNanos : Int) : R)
  { ms with
    gcBytesAge := ms.gcBytesAge + ms.gcBytes * diffSeconds
    intentAge := ms.intentAge + ms.intentCount * diffSeconds
    lastUpdateNanos := nowNanos }

def forward (ms : Counters R) (nowNanos : Int) : Counters R :=
  if nowNanos ≤ ms.lastUpdateNanos then ms else ms.ageTo nowNanos

/-- Every counter of one record with that of the other. -/
def zip (op : R → R → R) (ms oms : Counters R) : Counters R where
  containsEstimates := op ms.containsEstimates oms.containsEstimates
  lastUpdateNanos := ms.lastUpdateNanos
  intentAge := op ms.intentAge oms.intentAge
  gcBytesAge := op ms.gcBytesAge oms.gcBytesAge
  liveBytes := op ms.liveBytes oms.liveBytes
  liveCount := op ms.liveCount oms.liveCount
  keyBytes := op ms.keyBytes oms.keyBytes
  keyCount := op ms.keyCount oms.keyCount
  valBytes := op ms.valBytes oms.valBytes
  valCount := op ms.valCount oms.valCount
  intentBytes := op ms.intentBytes oms.intentBytes
  intentCount := op ms.intentCount oms.intentCount
  separatedIntentCount := op ms.separatedIntentCount oms.separatedIntentCount
  rangeKeyCount := op ms.rangeKeyCount oms.rangeKeyCount
  rangeKeyBytes := op ms.rangeKeyBytes oms.rangeKeyBytes
  rangeValCount := op ms.rangeValCount oms.rangeValCount
  rangeValBytes := op ms.rangeValBytes oms.rangeValBytes
  sysBytes := op ms.sysBytes oms.sysBytes
  sysCount := op ms.sysCount oms.sysCount
  abortSpanBytes := op ms.abortSpanBytes oms.abortSpanBytes

/-- `Add` and `Subtract`: both records are moved to the later of their times first. -/
def combine (op : R → R → R) (ms oms : Counters R) : Counters R :=
  let ms := ms.forward oms.lastUpdateNanos
  zip op ms (oms.forward ms.lastUpdateNanos)

def add (ms oms : Counters R) : Counters R := combine (· + ·) ms oms

def subtract (ms oms : Counters R) : Counters R := combine (· - ·) ms oms

end Counters

/-- The statistics without overflow. -/
abbrev MVCCStats := Counters Int

/-! Updates. -/

/-- `updateStatsForInline`, for a user key. -/
def updateStatsForInline (ms : MVCCStats) (origMetaKeySize origMetaValSize metaKeySize metaValSize : Int) :
    MVCCStats :=
  let ms := if origMetaKeySize ≠ 0 then { ms with
      liveBytes := ms.liveBytes - (origMetaKeySize + origMetaValSize)
      liveCount := ms.liveCount - 1
      keyBytes := ms.keyBytes - origMetaKeySize
      valBytes := ms.valBytes - origMetaValSize
      keyCount := ms.keyCount - 1
      valCount := ms.valCount - 1 }
    else ms
  if metaKeySize ≠ 0 then { ms with
      liveBytes := ms.liveBytes + (metaKeySize + metaValSize)
      liveCount := ms.liveCount + 1
      keyBytes := ms.keyBytes + metaKeySize
      valBytes := ms.valBytes + metaValSize
      keyCount := ms.keyCount + 1
      valCount := ms.valCount + 1 }
    else ms

/-- The part of `updateStatsOnPut` that removes what the key counted before, and moves
    the record to the new timestamp. -/
def removeOrig (prevIsValue : Bool) (prevValSize origMetaKeySize origMetaValSize : Int) (orig : MVCCMetadata)
    (nanos : Int) : MVCCStats :=
  let ms := { Counters.zero with keyCount := -1 }.ageTo orig.timestamp.wallTime
  let ms := if orig.txn.isSome then { ms with
      valCount := ms.valCount - 1
      intentBytes := ms.intentBytes - (orig.keyBytes + orig.valBytes)
      intentCount := ms.intentCount - 1
      separatedIntentCount := ms.separatedIntentCount - 1 }
    else ms
  -- A deletion has aged from its own timestamp on.
  let ms := if orig.deleted then
      let ms := { ms with keyBytes := ms.keyBytes - origMetaKeySize, valBytes := ms.valBytes - origMetaValSize }
      if orig.txn.isSome then
        { ms with keyBytes := ms.keyBytes - orig.keyBytes, valBytes := ms.valBytes - orig.valBytes }
      else ms
    else ms
  -- The version under a moved intent is live between the two timestamps.
  let ms := if prevIsValue then { ms with liveBytes := ms.liveBytes + (versionTimestampSize + prevValSize) } else ms
  let ms := ms.ageTo nanos
  let ms := if prevIsValue then { ms with liveBytes := ms.liveBytes - (versionTimestampSize + prevValSize) } else ms
  -- A value is shadowed at the new timestamp.
  if !orig.deleted then
    let ms := { ms with
      liveBytes := ms.liveBytes - (orig.keyBytes + orig.valBytes) - (origMetaKeySize + origMetaValSize)
      liveCount := ms.liveCount - 1
      keyBytes := ms.keyBytes - origMetaKeySize
      valBytes := ms.valBytes - origMetaValSize }
    if orig.txn.isSome then
      { ms with keyBytes := ms.keyBytes - orig.keyBytes, valBytes := ms.valBytes - orig.valBytes }
    else ms
  else ms

/-- `updateStatsOnPut`, for a user key. -/
def updateStatsOnPut (prevIsValue : Bool)
    (prevValSize origMetaKeySize origMetaValSize metaKeySize metaValSize : Int) (orig : Option MVCCMetadata)
    (new : MVCCMetadata) : MVCCStats :=
  let ms := match orig with
    | some orig =>
      removeOrig prevIsValue prevValSize origMetaKeySize origMetaValSize orig new.timestamp.wallTime
    | none => Counters.zero.ageTo new.timestamp.wallTime
  let ms := if !new.deleted then { ms with
      liveBytes := ms.liveBytes + (new.keyBytes + new.valBytes + metaKeySize + metaValSize)
      liveCount := ms.liveCount + 1 }
    else ms
  let ms := { ms with
    keyBytes := ms.keyBytes + (new.keyBytes + metaKeySize)
    valBytes := ms.valBytes + (new.valBytes + metaValSize)
    keyCount := ms.keyCount + 1
    valCount := ms.valCount + 1 }
  if new.txn.isSome then { ms with
      intentBytes := ms.intentBytes + (new.keyBytes + new.valBytes)
      intentCount := ms.intentCount + 1
      separatedIntentCount := ms.separatedIntentCount + 1 }
    else ms

/-- `updateStatsOnResolve`, for a user key. -/
def updateStatsOnResolve (prevIsValue : Bool)
    (prevValSize origMetaKeySize origMetaValSize metaKeySize metaValSize : Int) (orig new : MVCCMetadata)
    (commit : Bool) : MVCCStats :=
  let ms := Counters.zero.ageTo orig.timestamp.wallTime
  let ms := { ms with
    keyBytes := ms.keyBytes - (origMetaKeySize + orig.keyBytes)
    valBytes := ms.valBytes - (origMetaValSize + orig.valBytes) }
  let ms := if !orig.deleted then { ms with
      liveBytes := ms.liveBytes - (origMetaKeySize + origMetaValSize) - (orig.keyBytes + orig.valBytes)
      liveCount := ms.liveCount - 1 }
    else ms
  let ms := { ms with
    intentBytes := ms.intentBytes - (orig.keyBytes + orig.valBytes)
    intentCount := ms.intentCount - 1
    separatedIntentCount := ms.separatedIntentCount - 1 }
  let ms := if prevIsValue then { ms with liveBytes := ms.liveBytes + (versionTimestampSize + prevValSize) } else ms
  let ms := ms.ageTo new.timestamp.wallTime
  let ms := if prevIsValue then { ms with liveBytes := ms.liveBytes - (versionTimestampSize + prevValSize) } else ms
  let ms := { ms with
    keyBytes := ms.keyBytes + (metaKeySize + new.keyBytes)
    valBytes := ms.valBytes + (metaValSize + new.valBytes) }
  let ms := if !new.deleted then { ms with
      liveBytes := ms.liveBytes + ((metaKeySize + metaValSize) + (new.keyBytes + new.valBytes))
      liveCount := ms.liveCount + 1 }
    else ms
  if !commit then { ms with
      intentBytes := ms.intentBytes + (new.keyBytes + new.valBytes)
      intentCount := ms.intentCount + 1
      separatedIntentCount := ms.separatedIntentCount + 1 }
    else ms

/-- The part of `updateStatsOnClear` that makes an older version the newest again. -/
def restoreVersion (restoredMetaKeySize restoredMetaValSize : Int) (restored : MVCCMetadata)
    (restoredNanos nanos : Int) : MVCCStats :=
  let ms := Counters.zero.ageTo restoredNanos
  let ms := if restored.deleted then { ms with
      keyBytes := ms.keyBytes + restoredMetaKeySize
      valBytes := ms.valBytes + restoredMetaValSize }
    else ms
  let ms := ms.ageTo nanos
  let ms := { ms with keyCount := ms.keyCount + 1 }
  if !restored.deleted then { ms with
      keyBytes := ms.keyBytes + restoredMetaKeySize
      valBytes := ms.valBytes + restoredMetaValSize
      liveBytes := ms.liveBytes + (restored.keyBytes + restored.valBytes) + (restoredMetaKeySize + restoredMetaValSize)
      liveCount := ms.liveCount + 1 }
    else ms

/-- `updateStatsOnClear`, for a user key. -/
def updateStatsOnClear (origMetaKeySize origMetaValSize restoredMetaKeySize restoredMetaValSize : Int)
    (orig : MVCCMetadata) (restored : Option MVCCMetadata) (restoredNanos : Int) : MVCCStats :=
  let ms := match restored with
    | some restored =>
      restoreVersion restoredMetaKeySize restoredMetaValSize restored restoredNanos orig.timestamp.wallTime
    | none => Counters.zero.ageTo orig.timestamp.wallTime
  let ms := if !orig.deleted then { ms with
      liveBytes := ms.liveBytes - ((orig.keyBytes + orig.valBytes) + (origMetaKeySize + origMetaValSize))
      liveCount := ms.liveCount - 1 }
    else ms
  let ms := { ms with
    keyBytes := ms.keyBytes - (orig.keyBytes + origMetaKeySize)
    valBytes := ms.valBytes - (orig.valBytes + origMetaValSize)
    keyCount := ms.keyCount - 1
    valCount := ms.valCount - 1 }
  if orig.txn.isSome then { ms with
      intentBytes := ms.intentBytes - (orig.keyBytes + orig.valBytes)
      intentCount := ms.intentCount - 1
      separatedIntentCount := ms.separatedIntentCount - 1 }
    else ms

end Ratel.Storage
