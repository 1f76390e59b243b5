import Ratel.Lib.Ranges

/- Range groups: sets of keys kept as disjoint ranges. A `RangeList` keeps them in linked
   buckets of up to eight slots, a `RangeTree` in an interval tree. Ranges are added and
   subtracted; ranges that overlap or touch are to be merged, so that a group is the list
   of the maximal ranges of its set. All methods panic on an empty or inverted range, which
   is why operations carry a range that is neither. -/
namespace Ratel.Interval

open Lib

variable {α : Type} [LinearOrder α]

def compare (a b : α) : Int := if a < b then -1 else if a = b then 0 else 1

/-! Buckets. -/

def rangeListNodeBucketSize : Nat := 8

/-- The slots of a bucket that are in use. -/
abbrev Node (α : Type) := List (Range α)

namespace Node

def full (n : Node α) : Bool := n.length == rangeListNodeBucketSize

/-- `findIdx`: the slot that the range should fit in, and whether the range there overlaps it. -/
def findIdx (r : Range α) (inclusive : Bool) : Node α → Nat × Bool
  | [] => (0, false)
  | nr :: slots =>
    let passedCmp : Int := if inclusive then -1 else 0
    if (if inclusive then nr.overlapsInclusive r else nr.overlapsExclusive r) then (0, true)
    else if compare r.stop nr.start ≤ passedCmp then (0, false)
    else
      let (i, ok) := findIdx r inclusive slots
      (i + 1, ok)

end Node

/-! Lists of buckets. -/

structure RangeList (α : Type) where
  nodes : List (Node α)
  len : Nat
deriving DecidableEq, Repr

namespace RangeList

/-- `NewRangeList`: one empty bucket. -/
def new : RangeList α := ⟨[[]], 0⟩

/-- `findNode`: the buckets before the one that the range would be in, that one with those
    after it, and whether the range overlaps its bounds. -/
def findNode (r : Range α) (inclusive : Bool) :
    List (Node α) → List (Node α) → List (Node α) × List (Node α) × Bool
  | before, [] => (before, [], false)
  | before, n :: after =>
    let reachedCmp : Int := if inclusive then 0 else 1
    let passedCmp : Int := if inclusive then -1 else 0
    match n.head?, n.getLast? with
    | some first, some last =>
      if compare last.stop r.start ≥ reachedCmp then
        (before, n :: after, decide (compare first.start r.stop ≤ passedCmp))
      else findNode r inclusive (before ++ [n]) after
    | _, _ => (before, n :: after, false)

/-- Give a range to the next bucket, or to a new one before it if it is full. -/
def shiftInto (toShift : Range α) : List (Node α) → List (Node α)
  | next :: rest => if ¬ next.full then (toShift :: next) :: rest else [toShift] :: next :: rest
  | [] => [[toShift]]

/-- `insertAtIdx`: a full bucket gives its last range on, or the new one if that comes last. -/
def insertAtIdx (n : Node α) (after : List (Node α)) (r : Range α) (i : Nat) : Node α × List (Node α) :=
  if n.full then
    if i = n.length then (n, shiftInto r after)
    else (n.take i ++ r :: n.dropLast.drop i, shiftInto (n.getLast?.getD r) after)
  else (n.take i ++ r :: n.drop i, after)

/-- Merge slots of a bucket as long as they overlap, and count them. -/
def mergeSlots (newR : Range α) : List (Range α) → Range α × List (Range α) × Nat
  | [] => (newR, [], 0)
  | mergeR :: slots =>
    if newR.overlapsInclusive mergeR then
      let (newR, slots, merged) := mergeSlots (newR.merge mergeR) slots
      (newR, slots, merged + 1)
    else (newR, mergeR :: slots, 0)

/-- Merge buckets; those that are merged as a whole go. -/
def mergeNodes (newR : Range α) : List (Node α) → Range α × List (Node α) × Nat
  | [] => (newR, [], 0)
  | n :: after =>
    match mergeSlots newR n with
    | (newR, [], merged) =>
      let (newR, after, merged') := mergeNodes newR after
      (newR, after, merged + merged')
    | (newR, slots, merged) => (newR, slots :: after, merged)

/-- The end of `Add`, for a range that overlaps the one in slot `i`. -/
def mergeAt (rl : RangeList α) (before : List (Node α)) (n : Node α) (after : List (Node α)) (i : Nat)
    (nr r : Range α) : RangeList α :=
  match mergeSlots (nr.merge r) (n.drop (i + 1)) with
  | (newR, [], merged) =>
    let (newR, after, merged') := mergeNodes newR after
    ⟨before ++ (n.take i ++ [newR]) :: after, rl.len - merged - merged'⟩
  | (newR, slots, merged) => ⟨before ++ (n.take i ++ newR :: slots) :: after, rl.len - merged⟩

/-- `Add` in the bucket found, or in a new bucket at the end. -/
def addAt (rl : RangeList α) (before rest : List (Node α)) (r : Range α) : RangeList α × Bool :=
  match rest with
  | n :: after =>
    match n.findIdx r true with
    | (i, false) =>
      let (n, after) := insertAtIdx n after r i
      (⟨before ++ n :: after, rl.len + 1⟩, true)
    | (i, true) =>
      match n[i]? with
      | none => (rl, false)
      | some nr => if nr.contains r then (rl, false) else (rl.mergeAt before n after i nr r, true)
  | [] => (⟨before ++ [[r]], rl.len + 1⟩, true)

/-- `Add`: whether the range added to the group. -/
def add (rl : RangeList α) (r : Range α) : RangeList α × Bool :=
  let (before, rest, inCur) := findNode r true [] rl.nodes
  match before.getLast? with
  | some prev =>
    if ¬ inCur ∧ ¬ prev.full then (⟨before.dropLast ++ (prev ++ [r]) :: rest, rl.len + 1⟩, true)
    else rl.addAt before rest r
  | none => rl.addAt before rest r

/-- How the loop of `Sub` leaves a bucket: done, done with a range split off, or at its end. -/
inductive SubSlots (α : Type)
  | done (slots : List (Range α)) (removed : Nat)
  | split (slots : List (Range α)) (i : Nat) (rSplit : Range α) (removed : Nat)
  | ended (slots : List (Range α)) (removed : Nat)

/-- The loop of `Sub` over the slots of a bucket, with the slots it has passed. -/
def subSlots (r : Range α) : (removed : Nat) → List (Range α) → List (Range α) → SubSlots α
  | removed, passed, [] => .ended passed removed
  | removed, passed, nr :: slots =>
    if ¬ nr.overlapsExclusive r then .done (passed ++ nr :: slots) removed
    else match decide (compare nr.start r.start ≥ 0), decide (compare nr.stop r.stop ≤ 0) with
      | true, true => subSlots r (removed + 1) passed slots
      | true, false => .done (passed ++ ⟨r.stop, nr.stop⟩ :: slots) removed
      | false, true => subSlots r removed (passed ++ [⟨nr.start, r.start⟩]) slots
      | false, false =>
        .split (passed ++ ⟨nr.start, r.start⟩ :: slots) (passed.length + 1) ⟨r.stop, nr.stop⟩ removed

/-- The loop of `Sub` over the buckets from the one found on, which it enters at slot `i`. An
    emptied bucket goes unless it held the last range of the group. -/
def subNodes (r : Range α) : (len : Nat) → (i : Nat) → List (Node α) → List (Node α) × Nat
  | len, _, [] => ([], len)
  | len, i, n :: after =>
    match subSlots r 0 (n.take i) (n.drop i) with
    | .done slots removed => (slots :: after, len - removed)
    | .split slots i rSplit removed =>
      let (n, after) := insertAtIdx slots after rSplit i
      (n :: after, len - removed + 1)
    | .ended slots removed =>
      let (rest, len') := subNodes r (len - removed) 0 after
      if slots = [] ∧ 0 < len - removed then (rest, len') else (slots :: rest, len')

/-- `Sub`: whether the range took anything from the group. -/
def sub (rl : RangeList α) (r : Range α) : RangeList α × Bool :=
  match findNode r false [] rl.nodes with
  | (before, n :: after, true) =>
    match n.findIdx r false with
    | (i, true) =>
      let (nodes, len) := subNodes r rl.len i (n :: after)
      (⟨before ++ nodes, len⟩, true)
    | (_, false) => (rl, false)
  | _ => (rl, false)

def overlaps (rl : RangeList α) (r : Range α) : Bool :=
  match findNode r false [] rl.nodes with
  | (_, n :: _, true) => (n.findIdx r false).2
  | _ => false

def encloses (rl : RangeList α) (r : Range α) : Bool :=
  match findNode r false [] rl.nodes with
  | (_, n :: _, true) =>
    match n.findIdx r false with
    | (i, true) => (n[i]?).any (·.contains r)
    | (_, false) => false
  | _ => false

/-- `Next` of an iterator: the buckets from the current one on, and the next slot. -/
def iteratorNext : List (Node α) × Nat → Option (Range α × List (Node α) × Nat)
  | ([], _) => none
  | (n :: after, idx) =>
    match n[idx]? with
    | none => none
    | some r => some (r, if n.length ≤ idx + 1 then (after, 0) else (n :: after, idx + 1))

/-- What an iterator yields in so many steps. -/
def drain : Nat → List (Node α) × Nat → List (Range α)
  | 0, _ => []
  | steps + 1, it =>
    match iteratorNext it with
    | none => []
    | some (r, it) => r :: drain steps it

/-- All that an iterator yields: there are not more ranges than slots. -/
def iterate (rl : RangeList α) : List (Range α) := drain (rl.nodes.flatten.length + 1) (rl.nodes, 0)

end RangeList

/-! Trees. -/

/-- The balanced tree of `interval.Tree` is taken as the list of its ranges in the order of their
    start keys: how it balances is not modelled. -/
structure RangeTree (α : Type) where
  ranges : List (Range α)

namespace RangeTree

def new : RangeTree α := ⟨[]⟩

/-- Insert a range before the first that starts later. -/
def insert (r : Range α) : List (Range α) → List (Range α)
  | [] => [r]
  | nr :: t => if nr.start < r.start then nr :: insert r t else r :: nr :: t

/-- `Add`: the first range that overlaps grows over the others, which go. -/
def add (rt : RangeTree α) (r : Range α) : RangeTree α × Bool :=
  match rt.ranges.filter (·.overlapsInclusive r) with
  | [] => (⟨insert r rt.ranges⟩, true)
  | first :: others =>
    if first.contains r then (rt, false)
    else
      let merged := others.foldl Range.merge (first.merge r)
      (⟨(rt.ranges.filter (· ∉ others)).map fun nr => if nr = first then merged else nr⟩, true)

/-- `Sub`: every range that overlaps is deleted, truncated or split in two. -/
def sub (rt : RangeTree α) (r : Range α) : RangeTree α × Bool :=
  if rt.ranges.filter (·.overlapsExclusive r) = [] then (rt, false)
  else (⟨rt.ranges.flatMap r.minus⟩, true)

def overlaps (rt : RangeTree α) (r : Range α) : Bool := decide (0 < (rt.ranges.filter (·.overlapsExclusive r)).length)

def encloses (rt : RangeTree α) (r : Range α) : Bool :=
  match rt.ranges.filter (·.overlapsExclusive r) with
  | [first] => first.contains r
  | _ => false

end RangeTree

end Ratel.Interval
