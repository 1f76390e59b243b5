import Ratel.Storage.MvccScan
import Ratel.Storage.Stats

/- `mvccPutInternal` as a function of what the engine holds for one key: its metadata
   record, its versions and the fragment of range tombstones over it, which is all a
   prefix iterator shows. The one time it looks elsewhere is when it moves an intent away
   from the first timestamp: the seek for the version below lands on the key that follows
   in the order of keys, which is therefore a parameter too. Timestamps have no negative
   wall time, and a value carries no timestamp. -/
namespace Ratel.Storage

open Encoding Keys Lib

/-- The error of a write: its own, or the intent of another transaction. -/
inductive PutErr
  | failed (err : Err)
  | writeIntent (key : Bytes) (txn : TxnMeta)
deriving DecidableEq, Repr

def putErrorf {α : Type} (format : String) (args : List Arg := []) : Except PutErr α := .error (.failed ⟨format, args⟩)

/-- Computes the value to write from the existing one, if there is one. -/
abbrev ValueFn := Option Bytes → Except Err Bytes

/-- `writeLocalTimestamps` is `ShouldWriteLocalTimestamps` of the writer. -/
structure WriteOptions where
  txn : Option Transaction
  localTimestamp : Timestamp
  writeLocalTimestamps : Bool
  replayWriteTimestampProtection : Bool
deriving DecidableEq, Repr

/-- A metadata record with nothing set. -/
def MVCCMetadata.reset : MVCCMetadata := ⟨none, 0, false, 0, 0, [], [], false⟩

def MVCCMetadata.isInline (m : MVCCMetadata) : Bool := !m.rawBytes.isEmpty

/-- `GetPrevIntentSeq`: the last write of the history below a sequence number that is not
    rolled back. The history is sorted, so `sort.Search` finds where it reaches the number. -/
def MVCCMetadata.getPrevIntentSeq (m : MVCCMetadata) (seq : TxnSeq) (ignored : List IgnoredSeqNumRange) :
    Option SequencedIntent :=
  let index := m.intentHistory.findIdx fun w => decide (seq ≤ w.sequence)
  (m.intentHistory.take index).reverse.find? fun w => !txnSeqIsIgnored w.sequence ignored

/-- `GetIntentValue`: the value of the history at a sequence number. -/
def MVCCMetadata.getIntentValue (m : MVCCMetadata) (seq : TxnSeq) : Option MVCCValue :=
  match (m.intentHistory.drop (m.intentHistory.findIdx fun w => decide (seq ≤ w.sequence))).head? with
  | some w => if w.sequence = seq then some w.value else none
  | none => none

def MVCCValue.localTimestampNeeded (v : MVCCValue) (keyTS : Timestamp) : Bool :=
  decide (v.localTimestamp ≠ 0 ∧ v.localTimestamp < keyTS)

/-- What the engine holds for the key that follows, and the range tombstones over it. -/
structure NextKey where
  state : KeyState
  range : Option RangeKeyStack

section
variable (sz : Sizes) (range : Option RangeKeyStack) (k : Bytes) (next : NextKey)

/-! Reading. -/

/-- What `mvccGetMetadata` returns when it finds a record. -/
structure FoundMetadata where
  metadata : MVCCMetadata
  keyBytes : Nat
  valBytes : Nat
  realKeyChanged : Timestamp
deriving DecidableEq, Repr

/-- The metadata record of the key, or one made up for its newest version, or for a range
    tombstone above that version or without one. -/
def mvccGetMetadata (ks : KeyState) : Option FoundMetadata :=
  match ks.metadata with
  | some m => some ⟨m, encodedMVCCKeyPrefixLength k, sz.metadata m, m.timestamp⟩
  | none =>
    let synthetic := { MVCCMetadata.reset with keyBytes := versionTimestampSize }
    match ks.history.head?, range with
    | none, none => none
    | none, some s => some ⟨{ synthetic with deleted := true, timestamp := s.newest }, 0, 0, 0⟩
    | some (t, v), range =>
      let found := { synthetic with valBytes := encodedMVCCValueSize sz v, deleted := v.isTombstone, timestamp := t }
      match range with
      | none => some ⟨found, encodedMVCCKeyPrefixLength k, 0, t⟩
      | some s =>
        match s.firstAtOrAbove t with
        | some rkv => some ⟨{ synthetic with deleted := true, timestamp := s.newest },
            encodedMVCCKeyPrefixLength k, 0, if v.isTombstone then t else rkv.timestamp⟩
        | none => some ⟨found, encodedMVCCKeyPrefixLength k, 0, t⟩

/-- The options of the scanner that `mvccGet` sets up. -/
def getOptions (ts : Timestamp) (tombstones : Bool) (txn : Option Transaction) : ScanOptions where
  reverse := false
  start := k
  stop := []
  ts := ts
  maxKeys := 1
  targetBytes := 0
  allowEmpty := false
  wholeRowsOfSize := 0
  maxIntents := 0
  tombstones := tombstones
  txn := txn
  maxItersBeforeSeek := 10

def intentError (k : Bytes) (m : MVCCMetadata) : PutErr :=
  match m.txn with
  | some t => .writeIntent k t
  | none => .failed ⟨"intent without transaction", []⟩

/-- What `mvccGet` makes of what its scanner has found. -/
def getResult (inconsistent : Bool) (out : Out) : Except PutErr (Option Bytes) :=
  match out.err with
  | some err => .error (.failed err)
  | none =>
    match (if inconsistent then none else out.intents.head?) with
    | some (k, m) => .error (intentError k m)
    | none => .ok (out.kvs.head?.map (·.value))

/-- `mvccGet`, read off the records of the key; `mvccGet_eq` says its scanner returns this. With
    tombstones, a range tombstone is returned even without a version below. -/
def mvccGet (o : ScanOptions) (inconsistent : Bool) (ks : KeyState) : Except PutErr (Option Bytes) :=
  match getOutcome o (fun ts => readVersion o range k (ks.atOrBelow ts)) k inconsistent ks.metadata with
  | .fail err => .error (.failed err)
  | .conflict m => .error (intentError k m)
  | .emit kv => .ok (if kv.value = [] ∧ ¬ o.tombstones then none else some kv.value)
  | .skip =>
    .ok (if o.tombstones then (range.bind (·.firstAtOrBelow o.ts)).map (·.value.rawBytes) else none)

/-- The committed value of a key, whatever intent is on it. -/
def mvccGetCommitted (ts : Timestamp) (ks : KeyState) : Except PutErr (Option Bytes) :=
  mvccGet range k (getOptions k ts true none) true ks

def applyValueFn (value : Bytes) (valueFn : Option ValueFn) (exVal : Option Bytes) : Except PutErr Bytes :=
  match valueFn with
  | none => .ok value
  | some f => (f exVal).mapError .failed

def maybeGetValue (value : Bytes) (exists_ : Bool) (readTimestamp : Timestamp) (valueFn : Option ValueFn)
    (ks : KeyState) : Except PutErr Bytes :=
  match valueFn with
  | none => .ok value
  | some _ => do
    let exVal ← if exists_ then mvccGet range k (getOptions k readTimestamp true none) false ks else pure none
    applyValueFn value valueFn exVal

/-! Writing. -/

/-- The value a transaction wrote at its sequence number: still the provisional one, or in
    the history. -/
def writtenValue (ks : KeyState) (m : MVCCMetadata) (t : TxnMeta) (timestamp : Timestamp) (txn : Transaction) :
    Except PutErr (Option Bytes) :=
  if txn.sequence = t.sequence then mvccGet range k (getOptions k timestamp true (some txn)) false ks
  else .ok ((m.getIntentValue txn.sequence).map (·.rawBytes))

def replayedValue (ks : KeyState) (m : MVCCMetadata) (timestamp : Timestamp) (value : Bytes) (txn : Transaction)
    (valueFn : Option ValueFn) : Except PutErr Bytes :=
  match valueFn with
  | none => .ok value
  | some _ =>
    match m.getPrevIntentSeq txn.sequence txn.ignoredSeqNums with
    | some w => applyValueFn value valueFn (some w.value.rawBytes)
    | none => mvccGetCommitted range k timestamp ks >>= applyValueFn value valueFn

/-- A write at or below the sequence number of its own intent is a replay; it has to agree
    with the value written then. -/
def replayTransactionalWrite (ks : KeyState) (m : MVCCMetadata) (t : TxnMeta) (timestamp : Timestamp) (value : Bytes)
    (txn : Transaction) (valueFn : Option ValueFn) (protection : Bool) : Except PutErr Unit :=
  match writtenValue range k ks m t timestamp txn with
  | .error err => .error err
  | .ok none =>
    putErrorf "transaction %s with sequence %d missing an intent with lower sequence %d"
      [.int txn.id, .int t.sequence, .int txn.sequence]
  | .ok (some written) =>
    match replayedValue range k ks m timestamp value txn valueFn with
    | .error err => .error err
    | .ok value =>
      if value ≠ written then
        putErrorf ("transaction %s with sequence %d has a different value %+v " ++
            "after recomputing from what was written: %+v")
          [.int txn.id, .int txn.sequence, .bytes value, .bytes written]
      else if protection ∧ txn.writeTimestamp ≠ t.writeTimestamp then
        putErrorf ("transaction %s with sequence %d prevented from changing " ++
            "write timestamp from %s to %s due to ambiguous replay protection")
          [.int txn.id, .int txn.sequence, .int t.writeTimestamp, .int txn.writeTimestamp]
      else .ok ()

/-- What is known when the new version is about to be written: the value, where it goes,
    the versions without one that was moved away, the history of the new intent, and what
    the statistics and the caller are told. -/
structure Pending where
  value : Bytes
  writeTimestamp : Timestamp
  versions : Store Timestampᵒᵈ MVCCValue
  intentHistory : List SequencedIntent
  prevIsValue : Bool
  prevValSize : Nat
  replaced : Bool
  tooOld : Bool

/-- The value of a version, unless it is a tombstone or a range tombstone covers it. -/
def liveValue (version : Option (Timestamp × MVCCValue)) : Option MVCCValue :=
  match version with
  | none => none
  | some (t, v) =>
    if (∀ s ∈ range, s.newest < t) ∧ ¬ v.isTombstone then some v else none

/-- The version under a moved intent, if it is a value that no range tombstone covers. -/
def prevVersion (ks : KeyState) (metaTimestamp : Timestamp) : Option MVCCValue :=
  liveValue range (ks.atOrBelow (metaTimestamp - 1))

/-- The version that a put takes for the one under an intent it moves. The seek is to
    `oldVersionKey.Next()`. The first timestamp has none before it, so for an intent there
    the seek is to the metadata of the next key, and what is found belongs to that key. -/
def seekPrev (ks : KeyState) (metaTimestamp : Timestamp) : Except PutErr (Option MVCCValue) :=
  if metaTimestamp = 1 then
    match next.state.metadata with
    | some _ => putErrorf "expected an MVCC value key: %s" [.bytes (k ++ [0])]
    | none => .ok (liveValue next.range next.state.history.head?)
  else .ok (prevVersion range ks metaTimestamp)

/-- Only an intent that moves needs the version under it. -/
def prevOfMoved (ks : KeyState) (m : MVCCMetadata) (txn : Transaction) : Except PutErr (Option MVCCValue) :=
  if m.timestamp < txn.writeTimestamp then seekPrev range k next ks m.timestamp else .ok none

/-- The value an intent of the writer hides or holds, and the provisional value if it is
    to be kept in the history. -/
def exValOfIntent (ks : KeyState) (m : MVCCMetadata) (t : TxnMeta) (txn : Transaction) :
    Except PutErr (Option Bytes × Option MVCCValue) :=
  if txn.epoch = t.epoch then
    if ¬ txnSeqIsIgnored t.sequence txn.ignoredSeqNums then
      match ks.version m.timestamp with
      | none => putErrorf "existing intent value missing: %s" [.bytes k, .int m.timestamp]
      | some v => .ok (some v.rawBytes, some v)
    else .ok ((m.getPrevIntentSeq txn.sequence txn.ignoredSeqNums).map (·.value.rawBytes), none)
  else .ok (none, none)

/-- The existing value, which is the committed one if no write of the transaction counts. -/
def existingValue (ks : KeyState) (readTimestamp : Timestamp) (found : Option Bytes) : Except PutErr (Option Bytes) :=
  match found with
  | some v => .ok (some v)
  | none => mvccGetCommitted range k readTimestamp ks

/-- The write over an intent: the provisional value is cleared when the intent moves, and
    joins the history if it still counts. -/
def pendingOverwrite (ks : KeyState) (m : MVCCMetadata) (t : TxnMeta) (txn : Transaction) (value : Bytes)
    (exVal : Option Bytes) (curProvVal prev : Option MVCCValue) : Pending :=
  { value := value
    writeTimestamp := if txn.writeTimestamp < m.timestamp then m.timestamp else txn.writeTimestamp
    versions :=
      if m.timestamp < txn.writeTimestamp then ks.versions.del (OrderDual.toDual m.timestamp) else ks.versions
    intentHistory :=
      if txn.epoch = t.epoch ∧ exVal.isSome then
        match curProvVal with
        | some v => m.intentHistory ++ [⟨t.sequence, v⟩]
        | none => m.intentHistory
      else []
    prevIsValue := prev.isSome
    prevValSize := (prev.map (encodedMVCCValueSize sz)).getD 0
    replaced := exVal.any (· ≠ [])
    tooOld := false }

def overwriteIntent (ks : KeyState) (m : MVCCMetadata) (t : TxnMeta) (txn : Transaction) (value : Bytes)
    (valueFn : Option ValueFn) : Except PutErr Pending :=
  match exValOfIntent k ks m t txn with
  | .error err => .error err
  | .ok (found, curProvVal) =>
    match existingValue range k ks txn.readTimestamp found with
    | .error err => .error err
    | .ok exVal =>
      match applyValueFn value valueFn exVal with
      | .error err => .error err
      | .ok value =>
        match prevOfMoved range k next ks m txn with
        | .error err => .error err
        | .ok prev => .ok (pendingOverwrite sz ks m t txn value exVal curProvVal prev)

/-- A write to a key without an intent. At or below the newest version it is too old, and
    is made one tick above that version. -/
def putOverVersion (ks : KeyState) (m : MVCCMetadata) (readTimestamp writeTimestamp : Timestamp) (value : Bytes)
    (valueFn : Option ValueFn) (txn : Option Transaction) : Except PutErr Pending :=
  if readTimestamp ≤ m.timestamp then
    let writeTimestamp := max writeTimestamp (m.timestamp + 1)
    let readTimestamp := if txn.isNone then writeTimestamp else readTimestamp
    match mvccGet range k (getOptions k readTimestamp true none) false ks with
    | .error err => .error err
    | .ok exVal =>
      match applyValueFn value valueFn exVal with
      | .error err => .error err
      | .ok value =>
        .ok ⟨value, writeTimestamp, ks.versions, m.intentHistory, false, 0, exVal.any (· ≠ []), true⟩
  else
    match maybeGetValue range k value true readTimestamp valueFn ks with
    | .error err => .error err
    | .ok value => .ok ⟨value, writeTimestamp, ks.versions, m.intentHistory, false, 0, !m.deleted, false⟩

/-- Everything before the write; `none` for a replay. -/
def preparePut (ks : KeyState) (found : Option FoundMetadata) (readTimestamp writeTimestamp : Timestamp)
    (value : Bytes) (valueFn : Option ValueFn) (opts : WriteOptions) : Except PutErr (Option Pending) :=
  match found with
  | none => (applyValueFn value valueFn none).map fun value =>
      some ⟨value, writeTimestamp, ks.versions, [], false, 0, false, false⟩
  | some f =>
    match f.metadata.txn with
    | none => (putOverVersion range k ks f.metadata readTimestamp writeTimestamp value valueFn opts.txn).map some
    | some t =>
      match opts.txn with
      | none => .error (.writeIntent k t)
      | some txn =>
        if t.id ≠ txn.id then .error (.writeIntent k t)
        else if txn.epoch < t.epoch then
          putErrorf "put with epoch %d came after put with epoch %d in txn %s"
            [.int txn.epoch, .int t.epoch, .int txn.id]
        else if txn.epoch = t.epoch ∧ txn.sequence ≤ t.sequence then
          (replayTransactionalWrite range k ks f.metadata t readTimestamp value txn valueFn
            opts.replayWriteTimestampProtection).map fun _ => none
        else (overwriteIntent sz range k next ks f.metadata t txn value valueFn).map some

/-- The transaction as an intent at a timestamp carries it. -/
def Transaction.metaAt (txn : Transaction) (ts : Timestamp) : TxnMeta :=
  { txn.toTxnMeta with writeTimestamp := max txn.writeTimestamp ts }

/-- The value to write, without a local timestamp that need not be written. -/
def versionValue (value : Bytes) (writeTimestamp : Timestamp) (opts : WriteOptions) : MVCCValue :=
  let v : MVCCValue := ⟨opts.localTimestamp, value⟩
  if ¬ v.localTimestampNeeded writeTimestamp ∨ ¬ opts.writeLocalTimestamps then { v with localTimestamp := 0 } else v

def putMetadata (p : Pending) (alreadyExists : Bool) (opts : WriteOptions) : MVCCMetadata where
  txn := opts.txn.map (·.metaAt p.writeTimestamp)
  timestamp := p.writeTimestamp
  deleted := (versionValue p.value p.writeTimestamp opts).isTombstone
  keyBytes := versionTimestampSize
  valBytes := encodedMVCCValueSize sz (versionValue p.value p.writeTimestamp opts)
  rawBytes := []
  intentHistory := p.intentHistory
  txnDidNotUpdateMeta := opts.txn.isSome && !alreadyExists

structure PutResult where
  state : KeyState
  replaced : Bool
  tooOld : Bool
  stats : MVCCStats

/-- The result of a write, given its metadata and the size of the stored record. -/
def putResultOf (ks : KeyState) (found : Option FoundMetadata) (p : Pending) (opts : WriteOptions) (ms : MVCCStats)
    (new : MVCCMetadata) (metaValSize : Nat) : PutResult where
  state := ⟨if new.txn.isSome then some new else ks.metadata,
    p.versions.put (OrderDual.toDual p.writeTimestamp) (versionValue p.value p.writeTimestamp opts)⟩
  replaced := p.replaced
  tooOld := p.tooOld
  stats :=
    -- The statistics are about the real versions of the key.
    let orig := found.bind fun f =>
      if f.realKeyChanged = 0 then none else some { f.metadata with timestamp := f.realKeyChanged }
    ms.add (updateStatsOnPut p.prevIsValue p.prevValSize ((found.map (·.keyBytes)).getD 0 : Nat)
      ((found.map (·.valBytes)).getD 0 : Nat) (encodedMVCCKeyPrefixLength k) metaValSize orig new)

/-- The write of the metadata and the version, and the statistics. -/
def writeVersion (ks : KeyState) (found : Option FoundMetadata) (p : Pending) (opts : WriteOptions)
    (ms : MVCCStats) : Except PutErr PutResult :=
  let new := putMetadata sz p (found.bind (·.metadata.txn)).isSome opts
  match new.txn with
  | some t =>
    if new.timestamp ≠ t.writeTimestamp then
      putErrorf "meta.Timestamp != meta.Txn.WriteTimestamp: %s != %s" [.int new.timestamp, .int t.writeTimestamp]
    else .ok (putResultOf k ks found p opts ms new (sz.metadata new))
  | none => .ok (putResultOf k ks found p opts ms new 0)

/-- The inline branch of `mvccPutInternal`. -/
def putInline (ks : KeyState) (found : Option FoundMetadata) (value : Bytes) (valueFn : Option ValueFn)
    (opts : WriteOptions) (ms : MVCCStats) : Except PutErr PutResult := do
  if opts.txn.isSome then putErrorf "%q: inline writes not allowed within transactions" [.bytes k]
  else
    let value ← maybeGetValue range k value found.isSome 0 valueFn ks
    let new := { MVCCMetadata.reset with rawBytes := value }
    let stats := updateStatsForInline ms ((found.map (·.keyBytes)).getD 0 : Nat) ((found.map (·.valBytes)).getD 0 : Nat)
    if value = [] then return ⟨{ ks with metadata := none }, found.isSome, false, stats 0 0⟩
    else return ⟨{ ks with metadata := some new }, found.isSome, false,
      stats (encodedMVCCKeyPrefixLength k) (sz.metadata new)⟩

/-- `mvccPutInternal`. A write that is too old is made all the same, at a higher timestamp. -/
def mvccPutInternal (ks : KeyState) (timestamp : Timestamp) (value : Bytes) (valueFn : Option ValueFn)
    (opts : WriteOptions) (ms : MVCCStats) : Except PutErr PutResult :=
  if k = [] then putErrorf "attempted access to empty key"
  else if opts.replayWriteTimestampProtection ∧ opts.txn.isNone then
    putErrorf "cannot enable replay protection without a transaction"
  else
    let found := mvccGetMetadata sz range k ks
    let putIsInline := decide (timestamp = 0)
    if found.any fun f => putIsInline != f.metadata.isInline then
      putErrorf "%q: put is inline=%t, but existing value is inline=%t"
        [.bytes k, .text (toString putIsInline), .text (toString !putIsInline)]
    else if putIsInline then putInline sz range k ks found value valueFn opts ms
    else if opts.txn.any fun txn => txn.readTimestamp ≠ timestamp then
      putErrorf "mvccPutInternal: txn's read timestamp %s does not match timestamp %s"
        [.int ((opts.txn.map (·.readTimestamp)).getD 0), .int timestamp]
    else
      let writeTimestamp := (opts.txn.map (·.writeTimestamp)).getD timestamp
      match preparePut sz range k next ks found timestamp writeTimestamp value valueFn opts with
      | .error err => .error err
      | .ok none => .ok ⟨ks, false, false, ms⟩
      | .ok (some p) => writeVersion sz k ks found p opts ms

end

/-! Engines. -/

namespace Engine

def nextKey (e : Engine) (k : Bytes) : NextKey := ⟨e.keyState (k ++ [0]), e.ranges.at? (k ++ [0])⟩

def setKey (e : Engine) (k : Bytes) (ks : KeyState) : Engine :=
  { e with keys := if ks.metadata = none ∧ ks.history = [] then e.keys.del k else e.keys.put k ks }

end Engine

end Ratel.Storage
