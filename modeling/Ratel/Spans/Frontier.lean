import Ratel.Lib.StampedRanges
import Ratel.Storage.Engine

/- The span frontier: the least timestamp up to which every one of a set of tracked spans is
   resolved. The interval tree is the list of its entries in the order of their start keys, and
   the heap over the same entries is read at its top only. A slice of the source that is
   compared with nil is an `Option`, `none` the nil slice: `insert` takes a nil start of the
   pending span to mean that nothing is pending. -/
namespace Ratel.Spans

open Ratel.Lib
open Ratel.Storage (Timestamp)

/-- A byte slice; nil and empty are the same key. -/
abbrev Slice := Option Bytes

def Slice.key (s : Slice) : Bytes := s.getD []

@[simp] theorem Slice.key_none : Slice.key none = [] := rfl

@[simp] theorem Slice.key_some (k : Bytes) : Slice.key (some k) = k := rfl

/-- `roachpb.Span`; an empty end key makes it the span of one key. -/
structure Span where
  key : Slice
  endKey : Bytes
deriving DecidableEq, Repr

def next (k : Bytes) : Bytes := k ++ [0]

/-- `Span.AsRange`: for a single key both ends share a fresh slice, which is not nil. -/
def Span.asRange (s : Span) : Slice × Bytes :=
  if s.endKey = [] then (some s.key.key, next s.key.key) else (s.key, s.endKey)

def Span.range (s : Span) : Range Bytes := ⟨s.asRange.1.key, s.asRange.2⟩

def Span.valid (s : Span) : Bool :=
  if s.key.key = [] ∧ s.endKey = [] then false
  else if s.endKey = [] then true
  else if s.endKey ≤ s.key.key then false
  else true

/-- `frontierEntry`. -/
abbrev Entry := Stamped Bytes Timestamp

structure Frontier where
  tree : List Entry
deriving DecidableEq, Repr

/-- `extendRangeToTheLeft`: takes in what ends where the range starts, as long as it has the
    timestamp. An entry is taken in each time, so their number bounds the loop. -/
def extendRangeToTheLeft (tree : List Entry) (ts : Timestamp) : Nat → Bytes → Bytes × List Entry
  | 0, start => (start, [])
  | fuel + 1, start =>
    match tree.filter (fun e => e.keys.overlapsInclusive ⟨start, start⟩) with
    | [e, _] =>
      if e.ts = ts then
        let further := extendRangeToTheLeft tree ts fuel e.keys.start
        (further.1, e :: further.2)
      else (start, [])
    | _ => (start, [])

def extendRangeToTheRight (tree : List Entry) (ts : Timestamp) : Nat → Bytes → Bytes × List Entry
  | 0, stop => (stop, [])
  | fuel + 1, stop =>
    match tree.filter (fun e => e.keys.overlapsExclusive ⟨stop, next stop⟩) with
    | [e] =>
      if e.ts = ts then
        let further := extendRangeToTheRight tree ts fuel e.keys.stop
        (further.1, e :: further.2)
      else (stop, [])
    | _ => (stop, [])

/-- The variables of `insert`. -/
structure Inserting where
  todoStart : Slice
  pendingStart : Slice
  pendingEnd : Bytes
  extendLeft : Bool
  toAdd : List Entry
  toRemove : List Entry
deriving DecidableEq, Repr

namespace Inserting

def consumePrefix (st : Inserting) (stop : Bytes) : Inserting :=
  { st with
    pendingStart := if st.pendingStart = none then st.todoStart else st.pendingStart
    todoStart := some stop
    pendingEnd := stop }

def addEntry (st : Inserting) (r : Range Bytes) (ts : Timestamp) : Inserting :=
  { st with toAdd := st.toAdd ++ [⟨r, ts⟩] }

/-- The entry for the pending span, extended to the left where that is allowed. -/
def flush (st : Inserting) (tree : List Entry) (insertTS : Timestamp) : Inserting :=
  if st.pendingStart.key = st.pendingEnd then st
  else if st.extendLeft then
    let left := extendRangeToTheLeft tree insertTS tree.length st.pendingStart.key
    { st with toRemove := st.toRemove ++ left.2 }.addEntry ⟨left.1, st.pendingEnd⟩ insertTS
  else st.addEntry ⟨st.pendingStart.key, st.pendingEnd⟩ insertTS

def addPending (st : Inserting) (tree : List Entry) (insertTS : Timestamp) : Inserting :=
  { st.flush tree insertTS with pendingStart := none, pendingEnd := [], extendLeft := true }

/-- Flushes the pending span unless the entry starts where it ends. -/
def separate (st : Inserting) (tree : List Entry) (insertTS : Timestamp) (overlap : Entry) : Inserting :=
  if overlap.keys.start ≠ st.pendingEnd then st.addPending tree insertTS else st

/-- Passes over keys that are not tracked. -/
def trim (st : Inserting) (overlap : Entry) : Inserting :=
  if st.todoStart.key < overlap.keys.start then { st with todoStart := some overlap.keys.start } else st

/-- Splits off the part of an entry before the keys to do. -/
def splitLeft (st : Inserting) (overlap : Entry) : Inserting :=
  if overlap.keys.start < st.todoStart.key then
    { st with extendLeft := false }.addEntry ⟨overlap.keys.start, st.todoStart.key⟩ overlap.ts
  else st

/-- The middle of an entry and the part behind the keys to do. -/
def consume (st : Inserting) (tree : List Entry) (todoEnd : Bytes) (insertTS : Timestamp) (overlap : Entry) :
    Inserting :=
  if todoEnd ≤ overlap.keys.stop then
    let st := st.consumePrefix todoEnd
    if todoEnd < overlap.keys.stop ∧ overlap.ts ≠ insertTS then
      st.addEntry ⟨todoEnd, overlap.keys.stop⟩ overlap.ts
    else
      let st := st.consumePrefix overlap.keys.stop
      let right := extendRangeToTheRight tree insertTS tree.length st.pendingEnd
      { st with pendingEnd := right.1, toRemove := st.toRemove ++ right.2 }
  else st.consumePrefix overlap.keys.stop

/-- What `insert` does with one entry that overlaps the span. -/
def visit (tree : List Entry) (todoEnd : Bytes) (insertTS : Timestamp) (st : Inserting) (overlap : Entry) :
    Inserting :=
  let st := (st.separate tree insertTS overlap).trim overlap
  if insertTS < overlap.ts then { st with todoStart := some overlap.keys.stop }
  else
    let st := { st with toRemove := st.toRemove ++ [overlap] }.splitLeft overlap
    st.consume tree todoEnd insertTS overlap

end Inserting

/-- `tree.Delete` and `heap.Remove`, which panics if the entry is not in the heap. -/
def removeEntries (tree : List Entry) : List Entry → Option (List Entry)
  | [] => some tree
  | e :: rest => if e ∈ tree then removeEntries (tree.erase e) rest else none

/-- `tree.Insert` and `heap.Push`; the tree refuses an empty or inverted range. -/
def insertEntries (tree : List Entry) : List Entry → Option (List Entry)
  | [] => some tree
  | e :: rest => if e.keys.Valid then insertEntries (insertByStart e tree) rest else none

namespace Frontier

/-- The entries that overlap a range, as `DoMatching` visits them. -/
def matching (f : Frontier) (r : Range Bytes) : List Entry :=
  f.tree.filter fun e => e.keys.overlapsExclusive r

/-- The state in which `insert` begins. -/
def beginInsert (span : Span) : Inserting :=
  { todoStart := span.asRange.1, pendingStart := none, pendingEnd := [], extendLeft := true,
    toAdd := [], toRemove := [] }

/-- The loop of `insert` with the pending span flushed at its end. -/
def planInsert (f : Frontier) (span : Span) (insertTS : Timestamp) : Inserting :=
  ((f.matching span.range).foldl (Inserting.visit f.tree span.asRange.2 insertTS) (beginInsert span)).addPending
    f.tree insertTS

/-- `insert`; `none` if it panics or fails. -/
def insert (f : Frontier) (span : Span) (insertTS : Timestamp) : Option Frontier := do
  let st := f.planInsert span insertTS
  let kept ← removeEntries f.tree st.toRemove
  let tree ← insertEntries kept st.toAdd
  return { f with tree }

def addSpansAt (f : Frontier) (startAt : Timestamp) (spans : List Span) : Option Frontier := do
  let tree ← insertEntries f.tree (spans.map fun s => ⟨s.range, startAt⟩)
  return { f with tree }

def makeFrontierAt (startAt : Timestamp) (spans : List Span) : Option Frontier :=
  addSpansAt ⟨[]⟩ startAt spans

/-- `frontierLocked`: the timestamp at the top of the heap, which is the least. -/
def frontier (f : Frontier) : Timestamp := ((f.tree.map (·.ts)).min?).getD 0

def forward (f : Frontier) (span : Span) (ts : Timestamp) : Option (Frontier × Bool) := do
  let f' ← f.insert span ts
  return (f', decide (f.frontier < f'.frontier))

/-- The loop of `SpanEntries`: what is reported for the entries that overlap the span. -/
def reported (todoEnd : Bytes) : Bytes → List Entry → List Entry
  | _, [] => []
  | todoStart, e :: es =>
    let start := if todoStart < e.keys.start then e.keys.start else todoStart
    let stop := if todoEnd < e.keys.stop then todoEnd else e.keys.stop
    ⟨⟨start, stop⟩, e.ts⟩ :: reported todoEnd stop es

/-- `SpanEntries` with an operation that collects what it is given. -/
def spanEntries (f : Frontier) (span : Span) : List Entry :=
  reported span.range.stop span.range.start (f.matching span.range)

end Frontier

end Ratel.Spans
