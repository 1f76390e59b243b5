import Ratel.Keys
import Ratel.Storage.Iterator

/- The scanner of `pebble_mvcc_scanner.go` as a state machine over an MVCC iterator:
   every positioning function, the peeking of reverse scans, the stepping before a
   seek, the tracking of range keys, the deferred advance and the limits. Scans are
   consistent, without an uncertainty interval and without the locking options; the
   memory account grants every request, and stored records decode.

   The state keeps the iterator's cursor apart from the current position: a peek moves
   the first and not the second. What was produced so far is a record of its own, `Out`. -/
namespace Ratel.Storage

open Encoding Keys Lib

/-! Results. -/

/-- A key-value pair of the result: the raw key, with its timestamp, and the value. -/
structure KV where
  key : MVCCKey
  value : Bytes
deriving DecidableEq, Repr

def encodedMVCCKeyLength (p : MVCCKey) : Nat :=
  p.key.length + 1 + if p.ts = 0 then 0 else if p.ts % 2 ^ 31 = 0 then 9 else 13

/-- `pebbleResultsKVSizeOf`: two lengths, the key and the value. -/
def KV.size (kv : KV) : Nat := 8 + encodedMVCCKeyLength kv.key + kv.value.length

def numBytes (kvs : List KV) : Nat := (kvs.map KV.size).sum

/-- `none` when the key is not a row's, or the prefix is the whole key. -/
def getRowPrefix (key : Bytes) : Option Bytes :=
  if key = [] then none
  else match getRowPrefixLength key with
    | .error _ => none
    | .ok n => if n = 0 ∨ key.length ≤ n then none else some (key.take n)

def continuesFirstRow (kvs : List KV) (key : Bytes) : Bool :=
  match kvs with
  | [] => true
  | first :: _ =>
    match getRowPrefix key with
    | none => false
    | some row => decide (getRowPrefix first.key.key = some row)

def decodeFamilyKey (key : Bytes) : Except Err Nat := do
  let n ← getRowPrefixLength key
  if n = 0 ∨ key.length ≤ n then
    errorf "invalid row prefix, got prefix length %d for key %s" [.int n, .bytes key]
  else
    let (_, colFamilyID) ← decodeUvarintAscending (key.drop n)
    if colFamilyID ≥ 2 ^ 32 then errorf "row-group ID overflow, got %d" [.int colFamilyID]
    else return colFamilyID

def keyHasFinalColumnFamily (key : Bytes) (maxFamilyID : Nat) (reverse : Bool) : Bool :=
  match decodeFamilyKey key with
  | .error _ => false
  | .ok colFamilyID => if reverse then decide (colFamilyID = 0) else decide (colFamilyID = maxFamilyID)

def lastRowHasFinalColumnFamily (rowSize : Nat) (reverse : Bool) (kvs : List KV) : Bool :=
  match kvs.getLast? with
  | none => false
  | some kv => keyHasFinalColumnFamily kv.key.key (rowSize - 1) reverse

/-- The loop of `maybeTrimPartialLastRow`, at most once for each tracked offset. -/
def trimLastRow (rowSize : Nat) (row nextKey : Bytes) :
    Nat → List KV → Option Bytes → Except Err (List KV × Option Bytes)
  | 0, _, _ => errorf "row exceeds expected max size (%d): %s" [.int rowSize, .bytes nextKey]
  | n + 1, kvs, trimmed =>
    match kvs.getLast? with
    | none => .ok (kvs, trimmed)
    | some kv =>
      if getRowPrefix kv.key.key ≠ some row then .ok (kvs, trimmed)
      else if kvs.dropLast = [] then .ok ([], some kv.key.key)
      else trimLastRow rowSize row nextKey n kvs.dropLast (some kv.key.key)

/-- The pairs that stay, and the first key removed. -/
def maybeTrimPartialLastRow (rowSize : Nat) (kvs : List KV) (nextKey : Bytes) :
    Except Err (List KV × Option Bytes) :=
  if kvs = [] then .ok (kvs, none)
  else match getRowPrefix nextKey with
    | none => .ok (kvs, none)
    | some row => trimLastRow rowSize row nextKey rowSize kvs none

/-! Options and state. -/

structure ScanOptions where
  reverse : Bool
  start : Bytes
  stop : Bytes
  ts : Timestamp
  maxKeys : Nat
  targetBytes : Nat
  allowEmpty : Bool
  wholeRowsOfSize : Nat
  maxIntents : Nat
  tombstones : Bool
  txn : Option Transaction
  maxItersBeforeSeek : Nat
deriving DecidableEq, Repr

/-- Rows of a single pair need no processing. -/
def ScanOptions.wholeRows (o : ScanOptions) : Bool := decide (1 < o.wholeRowsOfSize)

inductive ResumeReason
  | keyLimit
  | byteLimit
  | intentLimit
deriving DecidableEq, Repr

/-- What a scan has produced. An empty `resumeKey` is unset. -/
structure Out where
  kvs : List KV
  intents : List (Bytes × MVCCMetadata)
  resumeReason : Option ResumeReason
  resumeKey : Bytes
  resumeNextBytes : Nat
  err : Option Err
deriving DecidableEq, Repr

def Out.empty : Out := ⟨[], [], none, [], 0, none⟩

inductive AdvanceFn
  | keyForward
  | keyAtEndForward
  | keyAtNewKeyForward
  | keyReverse
  | keyAtEndReverse
  | keyAtNewKeyReverse
deriving DecidableEq, Repr

structure State where
  parent : Cursor MVCCKey
  rangeKeyChanged : Bool
  peeked : Bool
  cur : MVCCKey
  curRangeKeys : Option RangeKeyStack
  itersBeforeSeek : Nat
  fn : AdvanceFn
  origKey : Bytes
  out : Out

namespace State

def valid (st : State) : Bool :=
  match st.parent with
  | .on _ => true
  | _ => false

/-- A positioning operation of the iterator; it signals a change of the range keys. -/
def moveTo (src : Source) (st : State) (c : Cursor MVCCKey) : State :=
  { st with parent := c, rangeKeyChanged := decide (src.rangesOn st.parent ≠ src.rangesOn c) }

def incrementItersBeforeSeek (o : ScanOptions) (st : State) : State :=
  { st with itersBeforeSeek := min (st.itersBeforeSeek + 1) o.maxItersBeforeSeek }

def decrementItersBeforeSeek (o : ScanOptions) (st : State) : State :=
  { st with itersBeforeSeek :=
      if st.itersBeforeSeek ≤ 1 then (if 0 < o.maxItersBeforeSeek then 1 else 0) else st.itersBeforeSeek - 1 }

def fail (st : State) (err : Err) : State × Bool := ({ st with out := { st.out with err := some err } }, false)

def emit (st : State) (r : Out × Bool) : State × Bool := ({ st with out := r.1 }, r.2)

/-- Take over range keys that are new. An iterator that was used before may be on them
    already, and then does not signal them. -/
def loadRanges (seeked : Bool) (s : RangeKeyStack) (st : State) : State :=
  if st.rangeKeyChanged || (seeked && st.curRangeKeys.isNone) then { st with curRangeKeys := some s } else st

/-- `updateCurrent`, on a valid iterator. -/
def updateCurrent (st : State) : State :=
  match st.parent with
  | .on p => { st with cur := p }
  | _ => st

end State

variable (o : ScanOptions) (src : Source)

/-! Positioning. -/

/-- The loop of `processRangeKeys`; each turn but the last steps the iterator. -/
def processRangeKeys (seeked reverse : Bool) : Nat → State → State × Bool
  | 0, st => (st, false)
  | n + 1, st =>
    if !st.rangeKeyChanged && !reverse && !seeked then (st, true)
    else match st.parent with
      | .on p =>
        match src.rangeAt p.key with
        | none => ({ st with curRangeKeys := none }, true)
        | some s =>
          let st := st.loadRanges seeked s
          if src.IsPoint p then (st, true)
          else
            let st := st.moveTo src (if reverse then st.parent.prev src.stops else st.parent.next src.stops)
            if st.valid then processRangeKeys seeked reverse n st else (st, false)
      | _ => (st, false)

/-- What follows every positioning operation: validity, range keys, current position. -/
def land (seeked reverse : Bool) (st : State) : State × Bool :=
  if st.valid then
    match processRangeKeys src seeked reverse (src.stops.length + 2) st with
    | (st, true) => (st.updateCurrent, true)
    | (st, false) => (st, false)
  else (st, false)

def clearPeeked (st : State) : State := if o.reverse then { st with peeked := false } else st

def iterSeek (key : MVCCKey) (st : State) : State × Bool :=
  land src true false ((clearPeeked o st).moveTo src (src.seekGE key))

/-- A peek has moved the iterator back, so it first steps onto the current entry again. -/
def iterNext (st : State) : State × Bool :=
  if o.reverse && st.peeked then
    let st := { st with peeked := false }
    let st := st.moveTo src (st.parent.next src.stops)
    if st.valid then land src false false (st.moveTo src (st.parent.next src.stops)) else (st, false)
  else land src false false (st.moveTo src (st.parent.next src.stops))

def iterPrev (st : State) : State × Bool :=
  land src false true (if st.peeked then { st with peeked := false } else st.moveTo src (st.parent.prev src.stops))

/-- The peeked key and whether a point is there; `none` before the first entry. -/
def iterPeekPrev (st : State) : State × Option (Bytes × Bool) :=
  let st := if st.peeked then st else { st with peeked := true }.moveTo src (st.parent.prev src.stops)
  match st.parent with
  | .on p => (st, some (p.key, if p.ts = 0 then decide (src.IsPoint p) else true))
  | _ => (st, none)

/-- The loop of `backwardLatestVersion`; `none` when it runs out of iterations. -/
def backwardLoop (key : Bytes) : Nat → State → State × Option Bool
  | 0, st => (st, none)
  | n + 1, st =>
    match iterPeekPrev src st with
    | (st, none) => (st, some true)
    | (st, some (peekedKey, hasPoint)) =>
      if peekedKey ≠ key ∨ ¬ hasPoint then (st.incrementItersBeforeSeek o, some true)
      else match iterPrev src st with
        | (st, false) => (st, some false)
        | (st, true) => backwardLoop key n st

def backwardLatestVersion (key : Bytes) (i : Nat) (st : State) : State × Bool :=
  match backwardLoop o src key (st.itersBeforeSeek - i) st with
  | (st, some ok) => (st, ok)
  | (st, none) => iterSeek o src ⟨key, 0⟩ (st.decrementItersBeforeSeek o)

def iterSeekReverse (key : MVCCKey) (st : State) : State × Bool :=
  match land src true true ((clearPeeked o st).moveTo src (src.seekLT key)) with
  | (st, false) => (st, false)
  | (st, true) => if st.cur.ts = 0 then (st, true) else backwardLatestVersion o src st.cur.key 0 st

def nextKey (st : State) : State × Bool :=
  let step (st : State) := land src false false (st.moveTo src (src.nextKey st.parent))
  if o.reverse && st.peeked then
    match iterNext o src st with
    | (st, false) => (st, false)
    | (st, true) => step st
  else step st

/-- The loop of `prevKey`, with the number of the iteration. -/
def prevKeyLoop (key : Bytes) : Nat → Nat → State → State × Option Bool
  | 0, _, st => (st, none)
  | n + 1, i, st =>
    match iterPrev src st with
    | (st, false) => (st, some false)
    | (st, true) =>
      if st.cur.key ≠ key then
        let r := backwardLatestVersion o src st.cur.key (i + 1) st
        (r.1, some r.2)
      else prevKeyLoop key n (i + 1) st

def prevKey (key : Bytes) (st : State) : State × Bool :=
  match prevKeyLoop o src key st.itersBeforeSeek 0 st with
  | (st, some ok) => (st, ok)
  | (st, none) => iterSeekReverse o src ⟨key, 0⟩ (st.decrementItersBeforeSeek o)

/-! The state machine. -/

def advanceKeyForward (st : State) : State × Bool := nextKey o src st

def advanceKeyReverse (st : State) : State × Bool := prevKey o src st.cur.key st

def advanceKeyAtEndReverse (st : State) : State × Bool :=
  match land src true true ({ st with peeked := false }.moveTo src (src.seekLT ⟨o.stop, 0⟩)) with
  | (st, false) => (st, false)
  | (st, true) => advanceKeyReverse o src st

def advanceKeyAtNewKeyReverse (st : State) : State × Bool := prevKey o src st.origKey st

def setAdvanceKeyAtEnd (st : State) : State :=
  { st with fn := if o.reverse then .keyAtEndReverse else .keyAtEndForward }

def setAdvanceKeyAtNewKey (origKey : Bytes) (st : State) : State :=
  { st with origKey := origKey, fn := if o.reverse then .keyAtNewKeyReverse else .keyAtNewKeyForward }

def advance (st : State) : State × Bool :=
  match st.fn with
  | .keyForward => advanceKeyForward o src st
  | .keyAtEndForward => (st, false)
  | .keyAtNewKeyForward => ({ st with fn := .keyForward }, true)
  | .keyReverse => advanceKeyReverse o src st
  | .keyAtEndReverse => advanceKeyAtEndReverse o src { st with fn := .keyReverse }
  | .keyAtNewKeyReverse => advanceKeyAtNewKeyReverse o src { st with fn := .keyReverse }

def seekToStartOfScan (st : State) : State × Bool :=
  if o.reverse then
    match iterSeekReverse o src ⟨o.stop, 0⟩ st with
    | (st, false) => (st, false)
    | (st, true) => ({ st with fn := .keyReverse }, true)
  else
    match iterSeek o src ⟨o.start, 0⟩ st with
    | (st, false) => (st, false)
    | (st, true) => ({ st with fn := .keyForward }, true)

/-! Adding to the result. -/

/-- The end of `add`: put the pair, and stop when the key limit is now reached. -/
def putResult (kv : KV) (out : Out) : Out × Bool :=
  let out := { out with kvs := out.kvs ++ [kv] }
  if 0 < o.maxKeys ∧ o.maxKeys ≤ out.kvs.length ∧
      (¬ o.wholeRows ∨ lastRowHasFinalColumnFamily o.wholeRowsOfSize o.reverse out.kvs) then
    ({ out with resumeReason := some .keyLimit }, false)
  else (out, true)

/-- The limit that adding a pair would exceed. -/
def exceed (kv : KV) (out : Out) : Out :=
  if 0 < o.targetBytes ∧ o.targetBytes < numBytes out.kvs + kv.size then
    { out with resumeReason := some .byteLimit, resumeNextBytes := kv.size }
  else if 0 < o.maxKeys ∧ o.maxKeys ≤ out.kvs.length then { out with resumeReason := some .keyLimit }
  else out

/-- Stop before a pair, and remove the partial row it belongs to. -/
def rejectResult (key : Bytes) (out : Out) : Out × Bool :=
  let out := { out with resumeKey := key }
  if o.wholeRows then
    match maybeTrimPartialLastRow o.wholeRowsOfSize out.kvs key with
    | .error err => ({ out with err := some err }, false)
    | .ok (kvs, trimmed) => ({ out with kvs := kvs, resumeKey := trimmed.getD key }, false)
  else (out, false)

def add (kv : KV) (out : Out) : Out × Bool :=
  if kv.value = [] ∧ ¬ o.tombstones then (out, true)
  else
    let out' := exceed o kv out
    if out'.resumeReason.isSome then
      if ¬ o.allowEmpty ∧ (out.kvs = [] ∨ o.wholeRows ∧ continuesFirstRow out.kvs kv.key.key) then
        putResult o kv { out' with resumeReason := none, resumeNextBytes := 0 }
      else rejectResult o kv.key.key out'
    else putResult o kv out'

/-- `addSynthetic`: the point a range key stands for at a user key. -/
def syntheticKV (key : Bytes) (v : RangeKeyVersion) : KV := ⟨⟨key, v.timestamp⟩, v.value.rawBytes⟩

/-- `addCurIntent`, and the limit on the intents of the error. -/
def addIntent (key : Bytes) (m : MVCCMetadata) (out : Out) : Out × Bool :=
  let out := { out with intents := out.intents ++ [(key, m)] }
  if 0 < o.maxIntents ∧ o.maxIntents ≤ out.intents.length then
    ({ out with resumeReason := some .intentLimit }, false)
  else (out, true)

/-! Reading one key. -/

/-- The topmost range key between a timestamp and the read timestamp. -/
def coveredByRangeKey (s : Option RangeKeyStack) (ts : Timestamp) : Option RangeKeyVersion :=
  match s with
  | none => none
  | some s =>
    if o.tombstones ∨ ts ≤ s.newest then
      match s.firstAtOrBelow o.ts with
      | some v => if ts ≤ v.timestamp then some v else none
      | none => none
    else none

def undecodable : Err := ⟨"unable to decode MVCCMetadata", []⟩

/-- Add the version the scanner is on, or the tombstone that covers it. -/
def readCurrent (st : State) : State × Bool :=
  match src.point st.cur with
  | some (.value v) =>
    match coveredByRangeKey o st.curRangeKeys st.cur.ts with
    | some rkv => st.emit (add o (syntheticKV st.cur.key rkv) st.out)
    | none => st.emit (add o ⟨st.cur, v.rawBytes⟩ st.out)
  | _ => st.fail undecodable

/-- The stepping loop of `seekVersion`; `none` when it runs out of iterations. -/
def seekVersionLoop (seekTS : Timestamp) (origKey : Bytes) : Nat → State → State × Option Bool
  | 0, st => (st, none)
  | n + 1, st =>
    match iterNext o src st with
    | (st, false) => (setAdvanceKeyAtEnd o st, some true)
    | (st, true) =>
      if st.cur.key ≠ origKey then
        (setAdvanceKeyAtNewKey o origKey (st.incrementItersBeforeSeek o), some true)
      else if st.cur.ts ≤ seekTS then
        let r := readCurrent o src (st.incrementItersBeforeSeek o)
        (r.1, some r.2)
      else seekVersionLoop seekTS origKey n st

def seekVersion (seekTS : Timestamp) (st : State) : State × Bool :=
  if seekTS = 0 then (st, true)
  else
    let origKey := st.cur.key
    match seekVersionLoop o src seekTS origKey st.itersBeforeSeek st with
    | (st, some ok) => (st, ok)
    | (st, none) =>
      match iterSeek o src ⟨origKey, seekTS⟩ (st.decrementItersBeforeSeek o) with
      | (st, false) => (setAdvanceKeyAtEnd o st, true)
      | (st, true) =>
        if st.cur.key ≠ origKey then (setAdvanceKeyAtNewKey o origKey st, true)
        else readCurrent o src st

/-- The write with the highest sequence number at or below the reader's that it has not
    rolled back. The history is sorted, so `sort.Search` finds where it passes the reader. -/
def getFromIntentHistory (m : MVCCMetadata) (txn : Transaction) : Option MVCCValue :=
  let upIdx := m.intentHistory.findIdx fun w => decide (txn.sequence < w.sequence)
  ((m.intentHistory.take upIdx).reverse.find? fun w =>
    !txnSeqIsIgnored w.sequence txn.ignoredSeqNums).map (·.value)

/-- The own-intent cases of `getOne`. -/
def getOwnIntent (m : MVCCMetadata) (t : TxnMeta) (txn : Transaction) (prevTS : Timestamp) (st : State) :
    State × Bool :=
  if txn.epoch = t.epoch then
    if t.sequence ≤ txn.sequence ∧ ¬ txnSeqIsIgnored t.sequence txn.ignoredSeqNums then
      seekVersion o src m.timestamp st
    else match getFromIntentHistory m txn with
      | some v =>
        let st := { st with cur := ⟨st.cur.key, m.timestamp⟩ }
        st.emit (add o ⟨st.cur, v.rawBytes⟩ st.out)
      | none => seekVersion o src prevTS st
  else if txn.epoch < t.epoch then
    st.fail ⟨"failed to read with epoch %d due to a write intent with epoch %d", [.int txn.epoch, .int t.epoch]⟩
  else seekVersion o src prevTS st

/-- The cases of `getOne` on a metadata record. -/
def getMetadata (m : MVCCMetadata) (st : State) : State × Bool :=
  if m.rawBytes ≠ [] then st.emit (add o ⟨st.cur, m.rawBytes⟩ st.out)
  else match m.txn with
    | none => st.fail ⟨"intent without transaction", []⟩
    | some t =>
      let prevTS := if m.timestamp ≤ o.ts then m.timestamp - 1 else o.ts
      match o.txn with
      | some txn =>
        if t.id = txn.id then getOwnIntent o src m t txn prevTS st
        else if m.timestamp ≤ o.ts then st.emit (addIntent o st.cur.key m st.out)
        else seekVersion o src o.ts st
      | none =>
        if m.timestamp ≤ o.ts then st.emit (addIntent o st.cur.key m st.out)
        else seekVersion o src o.ts st

def getOne (st : State) : State × Bool :=
  if st.cur.ts ≠ 0 then
    match coveredByRangeKey o st.curRangeKeys st.cur.ts with
    | some rkv => st.emit (add o (syntheticKV st.cur.key rkv) st.out)
    | none =>
      match src.point st.cur with
      | some (.value v) =>
        if st.cur.ts ≤ o.ts then st.emit (add o ⟨st.cur, v.rawBytes⟩ st.out)
        else seekVersion o src o.ts st
      | _ => st.fail undecodable
  else
    match src.point st.cur with
    | some (.metadata m) => getMetadata o src m st
    | _ => st.fail undecodable

/-! Scans. -/

/-- The loop of `scan`. -/
def scanLoop : Nat → State → State
  | 0, st => st
  | n + 1, st =>
    match getOne o src st with
    | (st, false) => st
    | (st, true) =>
      match advance o src st with
      | (st, false) => st
      | (st, true) => scanLoop n st

structure Span where
  key : Bytes
  endKey : Bytes
deriving DecidableEq, Repr

structure ScanResult where
  kvs : List KV
  resumeSpan : Option Span
  resumeReason : Option ResumeReason
  resumeNextBytes : Nat
deriving DecidableEq, Repr

/-- The error of a scan: its own, or the conflicting intents it met. -/
inductive ScanErr
  | failed (err : Err)
  | writeIntent (intents : List (Bytes × MVCCMetadata))
deriving DecidableEq, Repr

def resumeSpan (resumeKey : Bytes) : Span :=
  if o.reverse then ⟨o.start, resumeKey ++ [0]⟩ else ⟨resumeKey, o.stop⟩

def noResume (out : Out) : ScanResult := ⟨out.kvs, none, none, 0⟩

def resume (out : Out) (resumeKey : Bytes) : ScanResult :=
  ⟨out.kvs, some (resumeSpan o resumeKey), out.resumeReason, out.resumeNextBytes⟩

/-- `afterScan`: without a resume key, the scan resumes at the next key, if there is one. -/
def afterScan (st : State) : Except ScanErr ScanResult :=
  match st.out.err with
  | some err => .error (.failed err)
  | none =>
    if st.out.resumeReason.isNone then .ok (noResume st.out)
    else if st.out.resumeKey ≠ [] then .ok (resume o st.out st.out.resumeKey)
    else match (if o.reverse then advanceKeyReverse o src st else advanceKeyForward o src st) with
      | (_, false) => .ok (noResume st.out)
      | (st', true) => .ok (resume o st.out st'.cur.key)

/-- A scanner before its first seek, given an iterator that may have been used. -/
def State.init (parent : Cursor MVCCKey) (changed : Bool) (iters : Nat) : State where
  parent := parent
  rangeKeyChanged := changed
  peeked := false
  cur := ⟨[], 0⟩
  curRangeKeys := none
  itersBeforeSeek := iters
  fn := .keyForward
  origKey := []
  out := .empty

/-- `scan`, and the check for intents that follows it. -/
def scan (st : State) : Except ScanErr ScanResult :=
  match seekToStartOfScan o src st with
  | (st, false) => .ok (noResume st.out)
  | (st, true) =>
    let st := scanLoop o src (src.stops.length + 1) st
    match afterScan o src st with
    | .error err => .error err
    | .ok res => if st.out.intents = [] then .ok res else .error (.writeIntent st.out.intents)

/-! Gets. -/

/-- `getOne`. An inconsistent read, which has no transaction, only notes an intent at or
    below its timestamp, and reads the version below that. -/
def getOneFor (inconsistent : Bool) (st : State) : State × Bool :=
  match src.point st.cur with
  | some (.metadata m) =>
    if inconsistent ∧ m.rawBytes = [] ∧ m.txn.isSome ∧ m.timestamp ≤ o.ts then
      seekVersion o src (m.timestamp - 1)
        { st with out := { st.out with intents := st.out.intents ++ [(st.cur.key, m)] } }
    else getOne o src st
  | _ => getOne o src st

/-- The end of `get`: the range tombstone it began under, if nothing was added. -/
def addSaved (saved : Option RangeKeyVersion) (out : Out) : Out :=
  match saved with
  | some rkv => if out.kvs = [] ∧ out.err = none then (add o (syntheticKV o.start rkv) out).1 else out
  | none => out

/-- With tombstones, the range key that the seek lands on is saved before it is left. -/
def get (inconsistent : Bool) (st : State) : Out :=
  let st := st.moveTo src (src.seekGE ⟨o.start, 0⟩)
  let saved := if o.tombstones then (src.rangesOn st.parent).bind (·.firstAtOrBelow o.ts) else none
  addSaved o saved (match land src true false st with
    | (st, true) => (getOneFor o src inconsistent st).1.out
    | (st, false) => st.out)

end Ratel.Storage
