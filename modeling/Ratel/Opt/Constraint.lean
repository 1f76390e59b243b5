import Ratel.Lib.Ordering
import Ratel.Encoding

/- Constraints of the optimizer: a list of spans over composite keys, with the union and the
   intersection of two of them by merge loops. A key is a list of datums, at most one for each
   column; a column may be descending. A boundary of a span is a key extended by a value below or
   above all others, according to whether the boundary is inclusive. -/
namespace Ratel.Opt

open Ratel.Lib

/-- The datums of the columns. `Datum.Compare` is the order of their ranks, so that different
    datums may compare equal; NULL comes first. -/
structure Datums (D R : Type) [LinearOrder R] where
  rank : D → R
  null : D
  null_le : ∀ d, rank null ≤ rank d

/-- `opt.OrderingColumn`: a column id, negative if the column is descending. -/
abbrev OrderingColumn := Int

def OrderingColumn.descending (c : OrderingColumn) : Bool := decide (c < 0)

structure KeyContext (D R : Type) [LinearOrder R] where
  datums : Datums D R
  columns : List OrderingColumn

variable {D R : Type} [DecidableEq D] [LinearOrder R]

def KeyContext.compare (ctx : KeyContext D R) (colIdx : Nat) (a b : D) : Ordering :=
  if a = b then .eq
  else
    let cmp := threeWay (ctx.datums.rank a) (ctx.datums.rank b)
    if (ctx.columns.getD colIdx 0).descending then cmp.swap else cmp

inductive KeyExtension
  | extendLow
  | extendHigh
deriving DecidableEq, Repr

def KeyExtension.toCmp : KeyExtension → Ordering
  | .extendLow => .lt
  | .extendHigh => .gt

abbrev Key (D : Type) := List D

namespace Key

def isNull (d : Datums D R) (k : Key D) : Bool := decide (k = [d.null])

/-- `Key.Compare` from column `i` on. -/
def compareFrom (ctx : KeyContext D R) (kext lext : KeyExtension) : Nat → Key D → Key D → Ordering
  | i, a :: k, b :: l =>
    match ctx.compare i a b with
    | .eq => compareFrom ctx kext lext (i + 1) k l
    | cmp => cmp
  | _, [], _ :: _ => kext.toCmp
  | _, _ :: _, [] => lext.toCmp.swap
  | _, [], [] => if kext = lext then .eq else kext.toCmp

def compare (ctx : KeyContext D R) (k l : Key D) (kext lext : KeyExtension) : Ordering :=
  compareFrom ctx kext lext 0 k l

end Key

inductive SpanBoundary
  | includeBoundary
  | excludeBoundary
deriving DecidableEq, Repr

structure Span (D : Type) where
  start : Key D
  startBoundary : SpanBoundary
  stop : Key D
  stopBoundary : SpanBoundary
deriving DecidableEq, Repr

namespace Span

def startExt (sp : Span D) : KeyExtension :=
  match sp.startBoundary with
  | .includeBoundary => .extendLow
  | .excludeBoundary => .extendHigh

/-- `endExt`. -/
def stopExt (sp : Span D) : KeyExtension :=
  match sp.stopBoundary with
  | .includeBoundary => .extendHigh
  | .excludeBoundary => .extendLow

def isUnconstrained (d : Datums D R) (sp : Span D) : Bool :=
  let startUnconstrained :=
    sp.start.isEmpty || (Key.isNull d sp.start && decide (sp.startBoundary = .includeBoundary))
  let endUnconstrained := sp.stop.isEmpty
  startUnconstrained && endUnconstrained

variable (ctx : KeyContext D R)

def compareStarts (sp other : Span D) : Ordering := Key.compare ctx sp.start other.start sp.startExt other.startExt

/-- `CompareEnds`. -/
def compareStops (sp other : Span D) : Ordering := Key.compare ctx sp.stop other.stop sp.stopExt other.stopExt

def compare (sp other : Span D) : Ordering :=
  match compareStarts ctx sp other with
  | .eq => compareStops ctx sp other
  | cmp => cmp

def startsAfter (sp other : Span D) : Bool :=
  (Key.compare ctx sp.start other.stop sp.startExt other.stopExt).isGE

def startsStrictlyAfter (sp other : Span D) : Bool :=
  (Key.compare ctx sp.start other.stop sp.startExt other.stopExt).isGT

/-- The span is not empty: its start boundary is below its end boundary. -/
def nonEmpty (sp : Span D) : Bool := (Key.compare ctx sp.start sp.stop sp.startExt sp.stopExt).isLT

/-- The span with the start boundary of another, and with its end boundary. -/
def withStart (sp other : Span D) : Span D := { sp with start := other.start, startBoundary := other.startBoundary }
def withStop (sp other : Span D) : Span D := { sp with stop := other.stop, stopBoundary := other.stopBoundary }

/-- `TryIntersectWith`, `none` if it returns false. -/
def tryIntersectWith (sp other : Span D) : Option (Span D) :=
  let cmpStarts := compareStarts ctx sp other
  if cmpStarts.isGT ∧ (Key.compare ctx sp.start other.stop sp.startExt other.stopExt).isGE then none
  else
    let cmpEnds := compareStops ctx sp other
    if cmpEnds.isLT ∧ (Key.compare ctx sp.stop other.start sp.stopExt other.startExt).isLE then none
    else
      let sp' := if cmpStarts.isLT then sp.withStart other else sp
      some (if cmpEnds.isGT then sp'.withStop other else sp')

/-- `TryUnionWith`, `none` if it returns false. -/
def tryUnionWith (sp other : Span D) : Option (Span D) :=
  let cmpStartKeys := compareStarts ctx sp other
  let cmp :=
    if cmpStartKeys.isLT then Key.compare ctx sp.stop other.start sp.stopExt other.startExt
    else if cmpStartKeys.isGT then Key.compare ctx other.stop sp.start other.stopExt sp.startExt
    else .eq
  if cmp.isLT then none
  else
    let cmpEndKeys := compareStops ctx sp other
    let sp' := if cmpStartKeys.isGT then sp.withStart other else sp
    some (if cmpEndKeys.isLT then sp'.withStop other else sp')

end Span

/-! The merge loops. -/

section Loops

variable (ctx : KeyContext D R)

/-- Try to merge the next span of a list into `m`. -/
def absorb (m : Span D) : List (Span D) → Option (Span D × List (Span D))
  | [] => none
  | sp :: rest => (m.tryUnionWith ctx sp).map fun m' => (m', rest)

theorem absorb_length {m m' : Span D} {l l' : List (Span D)} (h : absorb ctx m l = some (m', l')) :
    l'.length < l.length := by
  cases l with
  | nil => cases h
  | cons sp rest =>
    obtain ⟨m'', -, heq⟩ := Option.map_eq_some_iff.mp h
    cases heq
    exact Nat.lt_succ_self _

/-- The inner loop of `UnionWith`: each round tries the next span of the left list and then that of
    the right one, until neither merges. -/
def mergeLoop (m : Span D) (left right : List (Span D)) : Span D × List (Span D) × List (Span D) :=
  match hl : absorb ctx m left with
  | some (m₁, left') =>
    have := absorb_length ctx hl
    match hr : absorb ctx m₁ right with
    | some (m₂, right') =>
      have := absorb_length ctx hr
      mergeLoop m₂ left' right'
    | none => mergeLoop m₁ left' right
  | none =>
    match hr : absorb ctx m right with
    | some (m₂, right') =>
      have := absorb_length ctx hr
      mergeLoop m₂ left right'
    | none => (m, left, right)
termination_by left.length + right.length

theorem mergeLoop_length (m : Span D) (left right : List (Span D)) :
    (mergeLoop ctx m left right).2.1.length + (mergeLoop ctx m left right).2.2.length ≤ left.length + right.length := by
  fun_induction mergeLoop ctx m left right with
  | case1 m left right m₁ left' hl hlen m₂ right' hr hlen' ih => omega
  | case2 m left right m₁ left' hl hlen hr ih => omega
  | case3 m left right hl m₂ right' hr hlen ih => omega
  | case4 => exact Nat.le_refl _

/-- The side whose next span starts first comes first. -/
def orderSides (left right : List (Span D)) : List (Span D) × List (Span D) :=
  match left, right with
  | [], r :: right => (r :: right, [])
  | l :: left, r :: right => if (l.compare ctx r).isGT then (r :: right, l :: left) else (l :: left, r :: right)
  | left, [] => (left, [])

theorem orderSides_length (left right : List (Span D)) :
    (orderSides ctx left right).1.length + (orderSides ctx left right).2.length = left.length + right.length := by
  unfold orderSides
  split
  · simp
  · split
    · exact Nat.add_comm _ _
    · rfl
  · rfl

/-- The outer loop of `UnionWith`. -/
def unionLoop (left right result : List (Span D)) : List (Span D) :=
  match _h : orderSides ctx left right with
  | ([], _) => result
  | (l :: left', right') =>
    have := orderSides_length ctx left right
    have := mergeLoop_length ctx l left' right'
    let merged := mergeLoop ctx l left' right'
    unionLoop merged.2.1 merged.2.2 (result ++ [merged.1])
termination_by left.length + right.length
decreasing_by
  rw [_h] at *
  simp only [List.length_cons] at *
  omega

/-- The loop of `IntersectWith`. -/
def intersectLoop : List (Span D) → List (Span D) → List (Span D) → List (Span D)
  | l :: left, r :: right, result =>
    if l.startsAfter ctx r then intersectLoop (l :: left) right result
    else match l.tryIntersectWith ctx r with
      | none => intersectLoop left (r :: right) result
      | some m =>
        match l.compareStops ctx r with
        | .lt => intersectLoop left (r :: right) (result ++ [m])
        | .eq => intersectLoop left right (result ++ [m])
        | .gt => intersectLoop (l :: left) right (result ++ [m])
  | [], _, result => result
  | _ :: _, [], result => result
termination_by left right => left.length + right.length
decreasing_by all_goals (simp; try omega)

end Loops

structure Constraint (D : Type) where
  columns : List OrderingColumn
  spans : List (Span D)
deriving DecidableEq, Repr

namespace Constraint

def isContradiction (c : Constraint D) : Bool := decide (c.spans.length = 0)

def isUnconstrained (d : Datums D R) (c : Constraint D) : Bool :=
  match c.spans with
  | [sp] => sp.isUnconstrained d
  | _ => false

/-- `UnionWith`; the error is the assertion that ends the call. -/
def unionWith (d : Datums D R) (c other : Constraint D) : Except Err (Constraint D) :=
  if c.columns ≠ other.columns then errorf "column mismatch"
  else if c.isUnconstrained d || other.isContradiction then .ok c
  else .ok { c with spans := unionLoop ⟨d, c.columns⟩ c.spans other.spans [] }

def intersectWith (d : Datums D R) (c other : Constraint D) : Except Err (Constraint D) :=
  if c.columns ≠ other.columns then errorf "column mismatch"
  else if c.isContradiction || other.isUnconstrained d then .ok c
  else .ok { c with spans := intersectLoop ⟨d, c.columns⟩ c.spans other.spans [] }

end Constraint

end Ratel.Opt
