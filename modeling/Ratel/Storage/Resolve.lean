import Ratel.Storage.PutSpec

/- `mvccResolveWriteIntent` as a function of what the engine holds for one key. A lock
   update commits the intent of its transaction, moves it, rolls a part of it back, removes
   it or leaves it alone, by its status, by the epochs and timestamps of both, and by the
   sequence numbers it says are rolled back. Whether the metadata record may be removed by
   a single deletion is not modelled. -/
namespace Ratel.Storage

open Encoding Keys Lib

inductive TransactionStatus
  | pending
  | committed
  | aborted
  | staging
deriving DecidableEq, Repr

def TransactionStatus.isFinalized (s : TransactionStatus) : Bool := decide (s = .committed ∨ s = .aborted)

structure LockUpdate where
  key : Bytes
  txn : TxnMeta
  status : TransactionStatus
  ignoredSeqNums : List IgnoredSeqNumRange
  clockWhilePending : Timestamp
deriving DecidableEq, Repr

/-- The local timestamp of a value, which is the version's if it is not set. -/
def MVCCValue.getLocalTimestamp (v : MVCCValue) (keyTS : Timestamp) : Timestamp :=
  if v.localTimestamp = 0 then keyTS else v.localTimestamp

/-- What rolling back sequence numbers does to an intent. -/
inductive Rewrite
  | unchanged
  | remove
  | restored (value : MVCCValue) (metadata : MVCCMetadata)

section
variable (sz : Sizes) (range : Option RangeKeyStack) (k : Bytes)

/-- The loop of `mvccMaybeRewriteIntentHistory`, over the history from its end. -/
def restoreFrom (ignored : List IgnoredSeqNumRange) (m : MVCCMetadata) (t : TxnMeta) :
    List SequencedIntent → Rewrite
  | [] => .remove
  | w :: earlier =>
    if txnSeqIsIgnored w.sequence ignored then restoreFrom ignored m t earlier
    else .restored w.value { m with
      txn := some { t with sequence := w.sequence }
      intentHistory := earlier.reverse
      deleted := w.value.isTombstone
      valBytes := encodedMVCCValueSize sz w.value }

/-- `mvccMaybeRewriteIntentHistory`, without the write of the restored value. -/
def mvccMaybeRewriteIntentHistory (ignored : List IgnoredSeqNumRange) (m : MVCCMetadata) (t : TxnMeta) : Rewrite :=
  if ¬ txnSeqIsIgnored t.sequence ignored then .unchanged
  else restoreFrom sz ignored m t m.intentHistory.reverse

structure ResolveResult where
  resolved : Bool
  state : KeyState
  stats : MVCCStats

/-- The value of an intent as it moves to another timestamp. -/
def movedValue (v : MVCCValue) (oldTS newTS clockWhilePending : Timestamp) (writeLocalTimestamps : Bool) : MVCCValue :=
  let v := { v with localTimestamp := max (v.getLocalTimestamp oldTS) clockWhilePending }
  if ¬ v.localTimestampNeeded newTS ∨ ¬ writeLocalTimestamps then { v with localTimestamp := 0 } else v

def movedMetadata (m : MVCCMetadata) (newTS : Timestamp) (v : MVCCValue) : MVCCMetadata :=
  { m with
    txn := m.txn.map fun t => { t with writeTimestamp := newTS }
    timestamp := newTS
    keyBytes := versionTimestampSize
    valBytes := encodedMVCCValueSize sz v
    deleted := v.isTombstone }

/-- Write the metadata of an intent that stays, or clear that of one that commits, and
    account for it. `orig` is the metadata found. -/
def finishUpdate (versions : Store Timestampᵒᵈ MVCCValue) (orig new : MVCCMetadata) (prev : Option MVCCValue)
    (commit : Bool) (ms : MVCCStats) : Except PutErr ResolveResult :=
  let keySize : Nat := encodedMVCCKeyPrefixLength k
  let stats metaValSize new := ms.add (updateStatsOnResolve prev.isSome
    ((prev.map (encodedMVCCValueSize sz)).getD 0 : Nat) keySize (sz.metadata orig) keySize metaValSize orig new commit)
  if commit then .ok ⟨true, ⟨none, versions⟩, stats 0 new⟩
  else if new.txn.any fun t => new.timestamp ≠ t.writeTimestamp then
    putErrorf "meta.Timestamp != meta.Txn.WriteTimestamp: %s != %s"
      [.int new.timestamp, .int ((new.txn.map (·.writeTimestamp)).getD 0)]
  else
    let new := { new with txnDidNotUpdateMeta := false }
    .ok ⟨true, ⟨some new, versions⟩, stats (sz.metadata new) new⟩

/-- The versions once the restored value is written where the provisional one was. -/
def restoredVersions (ks : KeyState) (timestamp : Timestamp) (rolledBack : Option MVCCValue) :
    Store Timestampᵒᵈ MVCCValue :=
  match rolledBack with
  | some v => ks.versions.put (OrderDual.toDual timestamp) v
  | none => ks.versions

/-- Update or commit the intent, at a timestamp that may be higher. `rolledBack` is the
    value that was restored, which the iterator opened before does not see. -/
def updateIntent (ks : KeyState) (orig new : MVCCMetadata) (rolledBack : Option MVCCValue) (newTS : Timestamp)
    (timestampChanged commit : Bool) (clockWhilePending : Timestamp) (writeLocalTimestamps : Bool)
    (ms : MVCCStats) : Except PutErr ResolveResult :=
  let versions := restoredVersions ks orig.timestamp rolledBack
  if newTS < orig.timestamp then
    putErrorf "timestamp regression (%s -> %s) during intent resolution, commit=%t pushed=%t rolledBackVal=%t"
      [.int orig.timestamp, .int newTS]
  else if timestampChanged then
    match ks.version orig.timestamp with
    | none => putErrorf "existing intent value missing: %s" [.bytes k, .int orig.timestamp]
    | some v =>
      let newValue := movedValue (rolledBack.getD v) orig.timestamp newTS clockWhilePending writeLocalTimestamps
      finishUpdate sz k ((versions.put (OrderDual.toDual newTS) newValue).del (OrderDual.toDual orig.timestamp)) orig
        (movedMetadata sz new newTS newValue) (prevVersion range ks orig.timestamp) commit ms
  else finishUpdate sz k versions orig new none commit ms

/-- The newest version below an intent, for the statistics of removing it. A value under a
    range tombstone counts as a tombstone at the lowest one above it. -/
def restoredVersion (ks : KeyState) (m : MVCCMetadata) : Option (MVCCMetadata × Timestamp) :=
  let restored deleted valBytes : MVCCMetadata :=
    { MVCCMetadata.reset with deleted := deleted, keyBytes := versionTimestampSize, valBytes := valBytes }
  if m.timestamp - 1 = 0 then none
  else match ks.atOrBelow (m.timestamp - 1) with
    | none => none
    | some (t, v) =>
      match range.bind (·.firstAtOrAbove t) with
      | some rkv => if v.isTombstone then some (restored true (encodedMVCCValueSize sz v), t)
          else some (restored true 0, rkv.timestamp)
      | none => some (restored v.isTombstone (encodedMVCCValueSize sz v), t)

def removeIntent (ks : KeyState) (m : MVCCMetadata) (ms : MVCCStats) : ResolveResult :=
  let keySize : Nat := encodedMVCCKeyPrefixLength k
  let stats := match restoredVersion sz range ks m with
    | none => updateStatsOnClear keySize (sz.metadata m) 0 0 m none 0
    | some (restored, ts) => updateStatsOnClear keySize (sz.metadata m) keySize 0 m (some restored) ts.wallTime
  ⟨true, ⟨none, ks.versions.del (OrderDual.toDual m.timestamp)⟩, ms.add stats⟩

/-- What a lock update is for an intent. -/
structure Verdict where
  epochsMatch : Bool
  timestampChanged : Bool
  commit : Bool
  inProgress : Bool
  pushed : Bool

/-- A newer epoch or an older timestamp than the intent's does not commit it, and a push
    from an older epoch still moves it. -/
def verdict (m : MVCCMetadata) (t : TxnMeta) (update : LockUpdate) : Verdict :=
  let epochsMatch := decide (t.epoch = update.txn.epoch)
  let timestampsValid := decide (m.timestamp ≤ update.txn.writeTimestamp)
  let timestampChanged := decide (m.timestamp < update.txn.writeTimestamp)
  let inProgress := !update.status.isFinalized && decide (update.txn.epoch ≤ t.epoch)
  { epochsMatch := epochsMatch
    timestampChanged := timestampChanged
    commit := decide (update.status = .committed) && epochsMatch && timestampsValid
    inProgress := inProgress
    pushed := inProgress && timestampChanged }

/-- The rollback of the writes that the update ignores, if it is tried. -/
def rewrite (m : MVCCMetadata) (t : TxnMeta) (update : LockUpdate) : Rewrite :=
  let vd := verdict m t update
  if update.ignoredSeqNums ≠ [] ∧ (vd.commit ∨ vd.inProgress) ∧ vd.epochsMatch then
    mvccMaybeRewriteIntentHistory sz update.ignoredSeqNums m t
  else .unchanged

def resolveOwn (ks : KeyState) (m : MVCCMetadata) (t : TxnMeta) (update : LockUpdate) (writeLocalTimestamps : Bool)
    (ms : MVCCStats) : Except PutErr ResolveResult :=
  let vd := verdict m t update
  match rewrite sz m t update with
  | .remove => .ok (removeIntent sz range k ks m ms)
  | .restored v new =>
    -- An intent is not moved back, whatever the timestamp of the update.
    updateIntent sz range k ks m new (some v) (max update.txn.writeTimestamp m.timestamp) vd.timestampChanged vd.commit
      update.clockWhilePending writeLocalTimestamps ms
  | .unchanged =>
    if vd.inProgress ∧ ¬ vd.pushed then .ok ⟨false, ks, ms⟩
    else if vd.commit ∨ vd.pushed then
      updateIntent sz range k ks m m none update.txn.writeTimestamp vd.timestampChanged vd.commit
        update.clockWhilePending writeLocalTimestamps ms
    else .ok (removeIntent sz range k ks m ms)

def mvccResolveWriteIntent (ks : KeyState) (update : LockUpdate) (writeLocalTimestamps : Bool) (ms : MVCCStats) :
    Except PutErr ResolveResult :=
  match ks.metadata with
  | none => .ok ⟨false, ks, ms⟩
  | some m =>
    match m.txn with
    | none => .ok ⟨false, ks, ms⟩
    | some t =>
      if update.txn.id ≠ t.id then .ok ⟨false, ks, ms⟩
      else resolveOwn sz range k ks m t update writeLocalTimestamps ms

end

/-! Engines. -/

/-- A call of the MVCC layer that changes one key. -/
inductive Op
  | put (key : Bytes) (timestamp : Timestamp) (value : Bytes) (valueFn : Option ValueFn) (opts : WriteOptions)
  | resolve (update : LockUpdate) (writeLocalTimestamps : Bool)

/-- An engine with the statistics that are kept of it. -/
structure Tracked where
  engine : Engine
  stats : MVCCStats

/-- A call that fails changes nothing. -/
def Tracked.apply (sz : Sizes) (st : Tracked) : Op → Tracked
  | .put k timestamp value valueFn opts =>
    match mvccPutInternal sz (st.engine.ranges.at? k) k (st.engine.nextKey k) (st.engine.keyState k) timestamp value
      valueFn opts st.stats with
    | .error _ => st
    | .ok r => ⟨st.engine.setKey k r.state, r.stats⟩
  | .resolve update writeLocalTimestamps =>
    match mvccResolveWriteIntent sz (st.engine.ranges.at? update.key) update.key (st.engine.keyState update.key) update
      writeLocalTimestamps st.stats with
    | .error _ => st
    | .ok r => ⟨st.engine.setKey update.key r.state, r.stats⟩

def Tracked.run (sz : Sizes) (st : Tracked) (ops : List Op) : Tracked := ops.foldl (Tracked.apply sz) st

end Ratel.Storage
