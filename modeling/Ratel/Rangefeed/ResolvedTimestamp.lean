import Mathlib.Data.List.MinMax
import Ratel.Storage.Engine

/- The resolved timestamp of a rangefeed: no value will be published at or below it any more.
   It is the closed timestamp, held back below the oldest transaction that has unresolved
   intents on the range. The queue keeps one timestamp and one reference count for each such
   transaction; its heap, ordered by timestamp and then by id, is read at its top only. An
   operation that panics has no result. -/
namespace Ratel.Rangefeed

open Ratel.Lib
open Ratel.Storage (Timestamp)

variable {ID : Type} [LinearOrder ID]

/-- A transaction with unresolved intents on the range. -/
structure UnresolvedTxn where
  txnKey : Bytes
  txnMinTimestamp : Timestamp
  timestamp : Timestamp
  refCount : Int
deriving DecidableEq, Repr

structure UnresolvedIntentQueue (ID : Type) [LinearOrder ID] where
  txns : Store ID UnresolvedTxn
  allowNegRefCount : Bool

namespace UnresolvedIntentQueue

/-- The order of the heap: by timestamp, ties by id. -/
def rank (e : ID × UnresolvedTxn) : Timestamp ×ₗ ID := toLex (e.2.timestamp, e.1)

/-- `Oldest`: the top of the heap. -/
def oldest (q : UnresolvedIntentQueue ID) : Option (ID × UnresolvedTxn) := q.txns.entries.argmin rank

/-- Whether a transaction is at the top of the heap (`txn.index == 0`). -/
def isOldest (q : UnresolvedIntentQueue ID) (txnID : ID) : Bool := decide (q.oldest.map (·.1) = some txnID)

/-- `updateTxn`, with whether the timestamp of the oldest transaction may have advanced. -/
def updateTxn (q : UnresolvedIntentQueue ID) (txnID : ID) (txnKey : Bytes) (txnMinTS ts : Timestamp)
    (delta : Int) : UnresolvedIntentQueue ID × Bool :=
  match q.txns.get txnID with
  | none =>
    if delta = 0 ∨ delta < 0 ∧ q.allowNegRefCount = false then (q, false)
    else ({ q with txns := q.txns.put txnID ⟨txnKey, txnMinTS, ts, delta⟩ }, false)
  | some txn =>
    if txn.refCount + delta = 0 ∨ txn.refCount + delta < 0 ∧ q.allowNegRefCount = false then
      ({ q with txns := q.txns.del txnID }, q.isOldest txnID)
    else if txn.timestamp < ts then
      ({ q with txns := q.txns.put txnID { txn with refCount := txn.refCount + delta, timestamp := ts } },
        q.isOldest txnID)
    else ({ q with txns := q.txns.put txnID { txn with refCount := txn.refCount + delta } }, false)

def incRef (q : UnresolvedIntentQueue ID) (txnID : ID) (txnKey : Bytes) (txnMinTS ts : Timestamp) :
    UnresolvedIntentQueue ID × Bool := q.updateTxn txnID txnKey txnMinTS ts 1

def decrRef (q : UnresolvedIntentQueue ID) (txnID : ID) (ts : Timestamp) :
    UnresolvedIntentQueue ID × Bool := q.updateTxn txnID [] 0 ts (-1)

def updateTS (q : UnresolvedIntentQueue ID) (txnID : ID) (ts : Timestamp) :
    UnresolvedIntentQueue ID × Bool := q.updateTxn txnID [] 0 ts 0

def del (q : UnresolvedIntentQueue ID) (txnID : ID) : UnresolvedIntentQueue ID × Bool :=
  match q.txns.get txnID with
  | none => (q, false)
  | some _ => ({ q with txns := q.txns.del txnID }, q.isOldest txnID)

/-- `AllowNegRefCount(false)`, which panics unless all reference counts are positive. -/
def disallowNegRefCount (q : UnresolvedIntentQueue ID) : Option (UnresolvedIntentQueue ID) :=
  if q.txns.entries.all fun e => decide (0 < e.2.refCount) then some { q with allowNegRefCount := false }
  else none

end UnresolvedIntentQueue

/-- The logical operations, with the fields the resolved timestamp reads. -/
inductive LogicalOp (ID : Type)
  | writeValue (ts : Timestamp)
  | deleteRange (ts : Timestamp)
  | writeIntent (txnID : ID) (txnKey : Bytes) (txnMinTimestamp ts : Timestamp)
  | updateIntent (txnID : ID) (ts : Timestamp)
  | commitIntent (txnID : ID) (ts : Timestamp)
  | abortIntent (txnID : ID)
  | abortTxn (txnID : ID)
deriving DecidableEq, Repr

structure ResolvedTimestamp (ID : Type) [LinearOrder ID] where
  init : Bool
  closedTS : Timestamp
  resolvedTS : Timestamp
  intentQ : UnresolvedIntentQueue ID

/-- `Timestamp.Prev`; the zero timestamp has none. -/
def prev (ts : Timestamp) : Option Timestamp := if ts = 0 then none else some (ts - 1)

/-- The timestamp with its logical part set to zero. -/
def withoutLogical (ts : Timestamp) : Timestamp := ts / 2 ^ 31 * 2 ^ 31

namespace ResolvedTimestamp

def make : ResolvedTimestamp ID := ⟨false, 0, 0, ⟨Store.empty, true⟩⟩

/-- The closed timestamp, moved back below the oldest unresolved transaction. -/
def heldBack (rts : ResolvedTimestamp ID) : Option Timestamp :=
  match rts.intentQ.oldest with
  | none => some rts.closedTS
  | some txn => if txn.2.timestamp ≤ rts.resolvedTS then none else (prev txn.2.timestamp).map (min rts.closedTS)

def recompute (rts : ResolvedTimestamp ID) : Option (ResolvedTimestamp ID × Bool) :=
  if rts.init = false then some (rts, false)
  else if rts.closedTS < rts.resolvedTS then none
  else match rts.heldBack with
    | none => none
    | some ts =>
      if withoutLogical ts < rts.resolvedTS then none
      else if rts.resolvedTS < withoutLogical ts then some ({ rts with resolvedTS := withoutLogical ts }, true)
      else some (rts, false)

/-- `assertNoChange`, for the operations that then return false. -/
def assertNoChange (rts : ResolvedTimestamp ID) : Option (ResolvedTimestamp ID × Bool) :=
  match rts.recompute with
  | none => none
  | some (rts', changed) => if changed ∨ rts.resolvedTS ≠ rts'.resolvedTS then none else some (rts', false)

/-- Recomputes if something may have changed, and otherwise checks that nothing has. -/
def settle (rts : ResolvedTimestamp ID) (changed : Bool) : Option (ResolvedTimestamp ID × Bool) :=
  if changed then rts.recompute else rts.assertNoChange

/-- `Init`. -/
def initialise (rts : ResolvedTimestamp ID) : Option (ResolvedTimestamp ID × Bool) :=
  match rts.intentQ.disallowNegRefCount with
  | none => none
  | some q => { rts with init := true, intentQ := q }.recompute

def forwardClosedTS (rts : ResolvedTimestamp ID) (newClosedTS : Timestamp) :
    Option (ResolvedTimestamp ID × Bool) :=
  if rts.closedTS < newClosedTS then { rts with closedTS := newClosedTS }.recompute else rts.assertNoChange

/-- A write must be above the resolved timestamp (`assertOpAboveRTS`, fatal). -/
def assertOpAboveRTS (rts : ResolvedTimestamp ID) (opTS : Timestamp)
    (result : ResolvedTimestamp ID × Bool) : Option (ResolvedTimestamp ID × Bool) :=
  if opTS ≤ rts.resolvedTS then none else some result

def withQueue (rts : ResolvedTimestamp ID) (r : UnresolvedIntentQueue ID × Bool) :
    ResolvedTimestamp ID × Bool := ({ rts with intentQ := r.1 }, r.2)

/-- `consumeLogicalOp`. The check of a committed intent only logs. -/
def consumeLogicalOp (rts : ResolvedTimestamp ID) : LogicalOp ID → Option (ResolvedTimestamp ID × Bool)
  | .writeValue ts => rts.assertOpAboveRTS ts (rts, false)
  | .deleteRange ts => rts.assertOpAboveRTS ts (rts, false)
  | .writeIntent txnID txnKey txnMinTS ts =>
    rts.assertOpAboveRTS ts (rts.withQueue (rts.intentQ.incRef txnID txnKey txnMinTS ts))
  | .updateIntent txnID ts => some (rts.withQueue (rts.intentQ.updateTS txnID ts))
  | .commitIntent txnID ts => some (rts.withQueue (rts.intentQ.decrRef txnID ts))
  | .abortIntent txnID => some (rts.withQueue (rts.intentQ.decrRef txnID 0))
  | .abortTxn txnID => if rts.init = false then some (rts, false) else some (rts.withQueue (rts.intentQ.del txnID))

/-- `ConsumeLogicalOp`. -/
def consume (rts : ResolvedTimestamp ID) (op : LogicalOp ID) : Option (ResolvedTimestamp ID × Bool) :=
  match rts.consumeLogicalOp op with
  | none => none
  | some (rts', changed) => rts'.settle changed

end ResolvedTimestamp

end Ratel.Rangefeed
