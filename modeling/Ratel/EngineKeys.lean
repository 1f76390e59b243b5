import Ratel.Encoding

/- Keys of the storage engine: a user key, a zero byte, and, if the key has a version, the
   version followed by its length plus one. MVCC timestamps are versions of 8, 12 or 13 bytes,
   lock table keys have 17. The comparer reads the version's length off the last byte; a bare
   suffix, a version with its length but no key in front, is one whose separator would stand
   just before it. -/
namespace Ratel.EngineKeys

open Ratel.Lib Ratel.Encoding

/-- `bytes.Compare`. -/
def bytesCompare (a b : Bytes) : Ordering := if a < b then .lt else if b < a then .gt else .eq

structure Timestamp where
  wallTime : Int
  logical : Int
  synthetic : Bool
deriving DecidableEq, Repr

namespace Timestamp

def isEmpty (t : Timestamp) : Bool := decide (t.wallTime = 0) && decide (t.logical = 0) && !t.synthetic

def compare (t s : Timestamp) : Ordering :=
  if s.wallTime < t.wallTime then .gt
  else if t.wallTime < s.wallTime then .lt
  else if s.logical < t.logical then .gt
  else if t.logical < s.logical then .lt
  else .eq

/-- The parts are not negative and fit the source's int64 and int32. -/
structure NonNeg (t : Timestamp) : Prop where
  wall_nonneg : 0 ≤ t.wallTime
  wall_lt : t.wallTime < 2 ^ 63
  logical_nonneg : 0 ≤ t.logical
  logical_lt : t.logical < 2 ^ 31

end Timestamp

structure MVCCKey where
  key : Bytes
  timestamp : Timestamp
deriving DecidableEq, Repr

/-- `MVCCKey.Compare`: timestamps sort in reverse, the empty one first. -/
def MVCCKey.compare (k o : MVCCKey) : Ordering :=
  match bytesCompare k.key o.key with
  | .eq =>
    if k.timestamp.isEmpty ∧ ¬ o.timestamp.isEmpty then .lt
    else if ¬ k.timestamp.isEmpty ∧ o.timestamp.isEmpty then .gt
    else (k.timestamp.compare o.timestamp).swap
  | c => c

/-! Encoding. -/

@[simp] def mvccEncodedTimeSentinelLen : Nat := 1
@[simp] def mvccEncodedTimeWallLen : Nat := 8
@[simp] def mvccEncodedTimeLogicalLen : Nat := 4
@[simp] def mvccEncodedTimeSyntheticLen : Nat := 1
@[simp] def mvccEncodedTimeLengthLen : Nat := 1
@[simp] def engineKeyVersionLockTableLen : Nat := 17

def encodedMVCCKeyLength (k : MVCCKey) : Nat :=
  k.key.length + mvccEncodedTimeSentinelLen +
    if k.timestamp.isEmpty then 0
    else mvccEncodedTimeWallLen + mvccEncodedTimeLengthLen +
      if k.timestamp.logical ≠ 0 ∨ k.timestamp.synthetic then
        mvccEncodedTimeLogicalLen + if k.timestamp.synthetic then mvccEncodedTimeSyntheticLen else 0
      else 0

/-- `encodeMVCCTimestampToBuf`. -/
def encodeMVCCTimestamp (ts : Timestamp) : Bytes :=
  bigEndian 8 (ts.wallTime % 2 ^ 64).toNat ++
    if ts.logical ≠ 0 ∨ ts.synthetic then
      bigEndian 4 (ts.logical % 2 ^ 32).toNat ++ if ts.synthetic then [1] else []
    else []

def encodeMVCCKey (k : MVCCKey) : Bytes :=
  let tsLen : Int := encodedMVCCKeyLength k - (k.key.length + mvccEncodedTimeSentinelLen) - mvccEncodedTimeLengthLen
  k.key ++ [0] ++
    if 0 < tsLen then encodeMVCCTimestamp k.timestamp ++ [UInt8.ofNat (tsLen + mvccEncodedTimeLengthLen).toNat]
    else []

/-- The conversion of a uint64 to an int64. -/
def toInt64 (n : Nat) : Int := if n < 2 ^ 63 then n else n - 2 ^ 64

/-- The conversion of a uint32 to an int32. -/
def toInt32 (n : Nat) : Int := if n < 2 ^ 31 then n else n - 2 ^ 32

def splitMVCCKey (b : Bytes) : Option (Bytes × Bytes) :=
  match b.getLast? with
  | none => none
  | some tsLen =>
    if b.length - 1 < tsLen.toNat then none
    else
      let keyPartEnd := b.length - 1 - tsLen.toNat
      some (b.take keyPartEnd, if 0 < tsLen.toNat then (b.take (b.length - 1)).drop (keyPartEnd + 1) else [])

/-- The switch over the length of an encoded timestamp. -/
def decodeTimestamp (ts : Bytes) : Option Timestamp :=
  let wall := toInt64 (fromBigEndian (ts.take 8))
  let logical := toInt32 (fromBigEndian ((ts.take 12).drop 8))
  match ts.length with
  | 0 => some ⟨0, 0, false⟩
  | 8 => some ⟨wall, 0, false⟩
  | 12 => some ⟨wall, logical, false⟩
  | 13 => some ⟨wall, logical, decide (ts.getD 12 0 ≠ 0)⟩
  | _ => none

/-- `DecodeMVCCKey`, which is `enginepb.DecodeKey`. -/
def decodeMVCCKey (b : Bytes) : Except Err MVCCKey :=
  match splitMVCCKey b with
  | none => errorf "invalid encoded mvcc key: %x" [.bytes b]
  | some (key, ts) =>
    match decodeTimestamp ts with
    | some t => .ok ⟨key, t⟩
    | none => errorf "invalid encoded mvcc key: %x bad timestamp %x" [.bytes b, .bytes ts]

structure EngineKey where
  key : Bytes
  version : Bytes
deriving DecidableEq, Repr

def EngineKey.encode (k : EngineKey) : Bytes :=
  let suffixLen := if k.version.length > 0 then 1 + k.version.length else 0
  k.key ++ (if suffixLen > 0 then 0 :: k.version else []) ++ [UInt8.ofNat suffixLen]

def encodedMVCCTimestampLength (ts : Timestamp) : Nat :=
  let tsLen := encodedMVCCKeyLength ⟨[], ts⟩ - mvccEncodedTimeSentinelLen
  if 0 < tsLen then tsLen - mvccEncodedTimeLengthLen else tsLen

def encodeMVCCTimestampSuffix (ts : Timestamp) : Bytes :=
  let tsLen := encodedMVCCTimestampLength ts
  if tsLen = 0 then [] else encodeMVCCTimestamp ts ++ [UInt8.ofNat (tsLen + mvccEncodedTimeLengthLen)]

/-! Comparison. -/

@[simp] def withWall : Nat := mvccEncodedTimeSentinelLen + mvccEncodedTimeWallLen
@[simp] def withLogical : Nat := withWall + mvccEncodedTimeLogicalLen
@[simp] def withSynthetic : Nat := withLogical + mvccEncodedTimeSyntheticLen
@[simp] def withLockTableLen : Nat := mvccEncodedTimeSentinelLen + engineKeyVersionLockTableLen

def stripSynthetic (a : Bytes) : Bytes := if a.length = withSynthetic then a.take withLogical else a

def stripZeroLogical (a : Bytes) : Bytes :=
  if a.length = withLogical ∧ a.drop withWall = List.replicate mvccEncodedTimeLogicalLen 0 then a.take withWall
  else a

def normalizeEngineKeyVersionForCompare (a : Bytes) : Bytes := stripZeroLogical (stripSynthetic a)

/-- The end of `EngineKeyCompare`. -/
def compareVersions (aVer bVer : Bytes) : Ordering :=
  if aVer.length = 0 then if bVer.length = 0 then .eq else .lt
  else if bVer.length = 0 then .gt
  else bytesCompare (normalizeEngineKeyVersionForCompare bVer) (normalizeEngineKeyVersionForCompare aVer)

/-- The key before a separator and the version from there to the length byte. -/
def keyPart (a : Bytes) (sep : Int) : Bytes := a.take sep.toNat
def versionPart (a : Bytes) (sep : Int) : Bytes := (a.take (a.length - 1)).drop sep.toNat

/-- The separators of two keys; those of two bare suffixes stand at their starts. -/
def separators (a b : Bytes) (aLen bLen : UInt8) : Int × Int :=
  let aSep : Int := (a.length : Int) - 1 - aLen.toNat
  let bSep : Int := (b.length : Int) - 1 - bLen.toNat
  if aSep = -1 ∧ bSep = -1 then (0, 0) else (aSep, bSep)

def engineKeyCompare (a b : Bytes) : Ordering :=
  match a.getLast?, b.getLast? with
  | some aLen, some bLen =>
    let sep := separators a b aLen bLen
    if sep.1 < 0 ∨ sep.2 < 0 then bytesCompare a b
    else match bytesCompare (keyPart a sep.1) (keyPart b sep.2) with
      | .eq => compareVersions (versionPart a sep.1) (versionPart b sep.2)
      | c => c
  | _, _ => bytesCompare a b

def engineKeyEqual (a b : Bytes) : Bool :=
  match a.getLast?, b.getLast? with
  | some aLen, some bLen =>
    if aLen.toNat ≤ withWall ∧ bLen.toNat ≤ withWall ∨
        aLen.toNat = withLockTableLen ∧ bLen.toNat = withLockTableLen then decide (a = b)
    else
      let sep := separators a b aLen bLen
      if sep.1 < 0 ∨ sep.2 < 0 then decide (a = b)
      else decide (keyPart a sep.1 = keyPart b sep.2) &&
        decide (normalizeEngineKeyVersionForCompare (versionPart a sep.1) =
          normalizeEngineKeyVersionForCompare (versionPart b sep.2))
  | _, _ => decide (a = b)

/-! The other functions of the comparer. -/

def getKeyPartFromEngineKey (k : Bytes) : Option Bytes :=
  match k.getLast? with
  | none => none
  | some versionLen =>
    if k.length - 1 < versionLen.toNat then none else some (k.take (k.length - 1 - versionLen.toNat))

/-- What `pebble.DefaultComparer` appends for a separator and for a successor of plain byte
    strings. -/
structure DefaultComparer where
  separator : Bytes → Bytes → Bytes
  successor : Bytes → Bytes
  le_separator : ∀ a b, a < b → a ≤ separator a b
  separator_lt : ∀ a b, a < b → separator a b < b
  le_successor : ∀ a, a ≤ successor a

namespace EngineComparer

variable (dc : DefaultComparer)

def separator (dst a b : Bytes) : Bytes :=
  match getKeyPartFromEngineKey a, getKeyPartFromEngineKey b with
  | some aKey, some bKey =>
    if aKey = bKey then dst ++ a
    else
      let buf := dc.separator aKey bKey
      if aKey = buf then dst ++ a else dst ++ buf ++ [0]
  | _, _ => dst ++ a

def successor (dst a : Bytes) : Bytes :=
  match getKeyPartFromEngineKey a with
  | none => dst ++ a
  | some aKey =>
    let buf := dc.successor aKey
    if aKey = buf then dst ++ a else dst ++ buf ++ [0]

def split (k : Bytes) : Nat :=
  match k.getLast? with
  | none => 0
  | some versionLen => if k.length - 1 < versionLen.toNat then k.length else k.length - 1 - versionLen.toNat + 1

end EngineComparer

end Ratel.EngineKeys
