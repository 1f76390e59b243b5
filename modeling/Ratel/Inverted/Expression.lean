import Ratel.Encoding
import Ratel.Inverted.Spans
import Mathlib.Order.BooleanAlgebra.Set

/- Expressions over an inverted index. A row has many keys in such an index, so the rows found in the
   spans of an intersection are not the intersection of the rows found: `And` takes the spans that
   both sides have in common to the new root, where they are read as a union, and intersects what is
   left of the two sides. `Or` takes all spans of the two roots to the new root. Children that this
   empties are pruned, and with them the spans that need not be read any more.

   `meaning` gives the rows an expression stands for, over any content of the index. -/
namespace Ratel.Inverted

open Ratel.Lib

/-- An encoded value of the inverted column. -/
abbrev EncVal := Bytes

inductive SetOperator
  | setUnion
  | setIntersection
deriving DecidableEq, Repr

/-- The fields of a `SpanExpression` other than its operator and children. -/
structure Node where
  tight : Bool
  unique : Bool
  spansToRead : List (Span EncVal)
  factoredUnionSpans : List (Span EncVal)
deriving DecidableEq, Repr

/-- `SpanExpression`: a leaf has the operator `None` and no children; any other has two. -/
inductive SpanExpression
  | leaf (fields : Node)
  | node (fields : Node) (op : SetOperator) (left right : SpanExpression)
deriving DecidableEq, Repr

namespace SpanExpression

def fields : SpanExpression → Node
  | leaf n => n
  | node n _ _ _ => n

def setFields (n : Node) : SpanExpression → SpanExpression
  | leaf _ => leaf n
  | node _ op left right => node n op left right

def setNotTight (e : SpanExpression) : SpanExpression := e.setFields { e.fields with tight := false }

def setFactored (e : SpanExpression) (spans : List (Span EncVal)) : SpanExpression :=
  e.setFields { e.fields with factoredUnionSpans := spans }

end SpanExpression

open SpanExpression

def exprForSpan (span : Span EncVal) (tight : Bool) : SpanExpression := leaf ⟨tight, false, [span], [span]⟩

def isEmptyExpr : SpanExpression → Bool
  | leaf n => n.factoredUnionSpans.isEmpty
  | node _ _ _ _ => false

/-- `promoteChild`: the operator and the children of the only child that is left. -/
def promoteChild (n : Node) : SpanExpression → SpanExpression
  | leaf _ => leaf { n with spansToRead := n.factoredUnionSpans }
  | node child op left right =>
    if child.factoredUnionSpans = [] then node n op left right
    else
      let read := unionSpans (unionSpans n.factoredUnionSpans left.fields.spansToRead) right.fields.spansToRead
      node { n with spansToRead := read } op left right

def tryPruneChildren (n : Node) (op : SetOperator) (left right : SpanExpression) : SpanExpression :=
  match isEmptyExpr left, isEmptyExpr right with
  | false, false => node n op left right
  | true, true => leaf { n with spansToRead := n.factoredUnionSpans }
  | false, true =>
    match op with
    | .setUnion => promoteChild n left
    | .setIntersection => leaf { n with spansToRead := n.factoredUnionSpans }
  | true, false =>
    match op with
    | .setUnion => promoteChild n right
    | .setIntersection => leaf { n with spansToRead := n.factoredUnionSpans }

/-- A side of an intersection without the spans that go to the root; `none` if `subtractSpans` reads
    past its spans. -/
def factorOut (e : SpanExpression) (common : List (Span EncVal)) : Option SpanExpression :=
  if common = [] then some e else (subtractSpans e.fields.factoredUnionSpans common).map e.setFactored

/-- The root of an intersection and of a union, before pruning. -/
def intersectionNode (l r : Node) : Node :=
  ⟨l.tight && r.tight, l.unique && r.unique, unionSpans l.spansToRead r.spansToRead,
    intersectSpans l.factoredUnionSpans r.factoredUnionSpans⟩

def unionNode (l r : Node) : Node :=
  ⟨l.tight && r.tight, false, unionSpans l.spansToRead r.spansToRead,
    unionSpans l.factoredUnionSpans r.factoredUnionSpans⟩

def intersectSpanExpressions (left right : SpanExpression) : Option SpanExpression :=
  let n := intersectionNode left.fields right.fields
  (factorOut left n.factoredUnionSpans).bind fun left => (factorOut right n.factoredUnionSpans).map fun right =>
    tryPruneChildren n .setIntersection left right

def unionSpanExpressions (left right : SpanExpression) : SpanExpression :=
  tryPruneChildren (unionNode left.fields right.fields) .setUnion (left.setFactored []) (right.setFactored [])

/-- The two implementations of `Expression` that the package has. -/
inductive Expression
  | spanExpression (e : SpanExpression)
  | nonInvertedColExpression
deriving DecidableEq, Repr

namespace Expression

def setNotTight : Expression → Expression
  | spanExpression e => spanExpression e.setNotTight
  | nonInvertedColExpression => nonInvertedColExpression

def and : Expression → Expression → Option Expression
  | spanExpression l, spanExpression r => (intersectSpanExpressions l r).map spanExpression
  | spanExpression l, nonInvertedColExpression => some (setNotTight (spanExpression l))
  | nonInvertedColExpression, right => some right.setNotTight

def or : Expression → Expression → Expression
  | spanExpression l, spanExpression r => spanExpression (unionSpanExpressions l r)
  | _, _ => nonInvertedColExpression

end Expression

/-! Meaning. -/

section
variable {PK : Type}

/-- The rows indexed under some key of the spans. -/
def rowsIn (index : EncVal → Set PK) (spans : List (Span EncVal)) : Set PK := {pk | ∃ key ∈ cover spans, pk ∈ index key}

def SetOperator.apply (op : SetOperator) (x y : Set PK) : Set PK :=
  match op with
  | .setUnion => x ∪ y
  | .setIntersection => x ∩ y

def SpanExpression.meaning (index : EncVal → Set PK) : SpanExpression → Set PK
  | leaf n => rowsIn index n.factoredUnionSpans
  | node n op left right => rowsIn index n.factoredUnionSpans ∪ op.apply (left.meaning index) (right.meaning index)

namespace SpanExpression

/-- The rows of an expression apart from those in the spans of its root. -/
def meaningBelow (index : EncVal → Set PK) : SpanExpression → Set PK
  | leaf _ => ∅
  | node _ op left right => op.apply (left.meaning index) (right.meaning index)

def keysOf : SpanExpression → Set EncVal
  | leaf n => cover n.factoredUnionSpans
  | node n _ left right => cover n.factoredUnionSpans ∪ (left.keysOf ∪ right.keysOf)

def keysBelow : SpanExpression → Set EncVal
  | leaf _ => ∅
  | node _ _ left right => left.keysOf ∪ right.keysOf

/-- The span lists of all nodes are sorted and do not overlap. -/
def AllOrdered : SpanExpression → Prop
  | leaf n => Ordered n.spansToRead ∧ Ordered n.factoredUnionSpans
  | node n _ left right =>
    (Ordered n.spansToRead ∧ Ordered n.factoredUnionSpans) ∧ left.AllOrdered ∧ right.AllOrdered

/-- Sorted span lists, and at the root exactly the spans that the nodes have. -/
structure Wf (e : SpanExpression) : Prop where
  ordered : e.AllOrdered
  exact : cover e.fields.spansToRead = e.keysOf

variable {index : EncVal → Set PK} {e left right : SpanExpression} {n : Node}

theorem meaning_eq : e.meaning index = rowsIn index e.fields.factoredUnionSpans ∪ e.meaningBelow index := by
  cases e with
  | leaf n => simp [meaning, fields, meaningBelow]
  | node n op left right => rfl

theorem keysOf_eq : e.keysOf = cover e.fields.factoredUnionSpans ∪ e.keysBelow := by
  cases e with
  | leaf n => simp [keysOf, fields, keysBelow]
  | node n op left right => rfl

theorem AllOrdered.root (h : e.AllOrdered) :
    Ordered e.fields.spansToRead ∧ Ordered e.fields.factoredUnionSpans := by
  cases e with
  | leaf n => exact h
  | node n op left right => exact h.1

/-- New fields at the root change nothing below it. -/
@[simp] theorem fields_setFields : (e.setFields n).fields = n := by
  cases e <;> rfl

@[simp] theorem meaningBelow_setFields : (e.setFields n).meaningBelow index = e.meaningBelow index := by
  cases e <;> rfl

@[simp] theorem keysBelow_setFields : (e.setFields n).keysBelow = e.keysBelow := by
  cases e <;> rfl

theorem AllOrdered.setFields (h : e.AllOrdered) (hn : Ordered n.spansToRead ∧ Ordered n.factoredUnionSpans) :
    (e.setFields n).AllOrdered := by
  cases e with
  | leaf n => exact hn
  | node n op left right => exact ⟨hn, h.2⟩

end SpanExpression

theorem rowsIn_union {index : EncVal → Set PK} {a b c : List (Span EncVal)} (h : cover a = cover b ∪ cover c) :
    rowsIn index a = rowsIn index b ∪ rowsIn index c := by
  ext pk
  simp only [rowsIn, h, Set.mem_union, Set.mem_ofPred_eq, or_and_right, exists_or]

@[simp] theorem rowsIn_nil (index : EncVal → Set PK) : rowsIn index [] = ∅ := by
  simp [rowsIn]

/-! Pruning. -/

section
variable {index : EncVal → Set PK} {n : Node} {left right : SpanExpression}

variable {e : SpanExpression} {rows : Set PK}

theorem eq_of_isEmptyExpr (index : EncVal → Set PK) (h : isEmptyExpr e = true) :
    e.meaning index = ∅ ∧ e.keysOf = ∅ := by
  cases e with
  | leaf n =>
    have hnil : n.factoredUnionSpans = [] := List.isEmpty_iff.mp h
    simp [meaning, keysOf, hnil]
  | node n op left right => cases h

/-- A root over two sides: what it means, and what it has to read. -/
structure Root (index : EncVal → Set PK) (rows : Set PK) (e : SpanExpression) : Prop where
  meaning : e.meaning index = rows
  wf : e.Wf

theorem root_leaf (hn : Ordered n.factoredUnionSpans) (h : rowsIn index n.factoredUnionSpans = rows) :
    Root index rows (leaf { n with spansToRead := n.factoredUnionSpans }) :=
  ⟨h, ⟨hn, hn⟩, rfl⟩

section
variable (hn : Ordered n.spansToRead ∧ Ordered n.factoredUnionSpans)

include hn

/-- The only child left of a union, whose spans are at the root already. -/
theorem promoteChild_root {child : SpanExpression} (hchild : child.AllOrdered) (hnil : child.fields.factoredUnionSpans = [])
    (hread : cover n.spansToRead = cover n.factoredUnionSpans ∪ child.keysOf)
    (h : rowsIn index n.factoredUnionSpans ∪ child.meaning index = rows) : Root index rows (promoteChild n child) := by
  cases child with
  | leaf c =>
    have hnil : c.factoredUnionSpans = [] := hnil
    rw [meaning, hnil, rowsIn_nil, Set.union_empty] at h
    exact root_leaf hn.2 h
  | node c op left right =>
    have hnil : c.factoredUnionSpans = [] := hnil
    rw [meaning, hnil, rowsIn_nil, Set.empty_union] at h
    rw [keysOf, hnil, cover_nil, Set.empty_union] at hread
    rw [promoteChild, if_pos hnil]
    exact ⟨h, ⟨hn, hchild.2⟩, hread⟩

variable (hl : left.AllOrdered) (hr : right.AllOrdered)
  (hread : cover n.spansToRead = cover n.factoredUnionSpans ∪ (left.keysOf ∪ right.keysOf))

include hl hr hread

/-- An intersection with the empty set is empty. -/
theorem tryPruneChildren_intersection
    (h : rowsIn index n.factoredUnionSpans ∪ left.meaning index ∩ right.meaning index = rows) :
    Root index rows (tryPruneChildren n .setIntersection left right) := by
  unfold tryPruneChildren
  split
  · exact ⟨h, ⟨hn, hl, hr⟩, hread⟩
  · next hel _ =>
    rw [(eq_of_isEmptyExpr index hel).1, Set.empty_inter, Set.union_empty] at h
    exact root_leaf hn.2 h
  · next _ her =>
    rw [(eq_of_isEmptyExpr index her).1, Set.inter_empty, Set.union_empty] at h
    exact root_leaf hn.2 h
  · next hel _ =>
    rw [(eq_of_isEmptyExpr index hel).1, Set.empty_inter, Set.union_empty] at h
    exact root_leaf hn.2 h

theorem tryPruneChildren_union (hlnil : left.fields.factoredUnionSpans = [])
    (hrnil : right.fields.factoredUnionSpans = [])
    (h : rowsIn index n.factoredUnionSpans ∪ (left.meaning index ∪ right.meaning index) = rows) :
    Root index rows (tryPruneChildren n .setUnion left right) := by
  unfold tryPruneChildren
  split
  · exact ⟨h, ⟨hn, hl, hr⟩, hread⟩
  · next hel her =>
    rw [(eq_of_isEmptyExpr index hel).1, (eq_of_isEmptyExpr index her).1, Set.union_empty, Set.union_empty] at h
    exact root_leaf hn.2 h
  · next _ her =>
    obtain ⟨hrows, hkeys⟩ := eq_of_isEmptyExpr index her
    rw [hkeys, Set.union_empty] at hread
    rw [hrows, Set.union_empty] at h
    exact promoteChild_root hn hl hlnil hread h
  · next hel _ =>
    obtain ⟨hrows, hkeys⟩ := eq_of_isEmptyExpr index hel
    rw [hkeys, Set.empty_union] at hread
    rw [hrows, Set.empty_union] at h
    exact promoteChild_root hn hr hrnil hread h

end

/-! `And` and `Or`. -/

/-- The spans that go to the root and what is left of a side have together what the side had. -/
theorem factorOut_spec (index : EncVal → Set PK) {common : List (Span EncVal)} (he : e.AllOrdered) (hc : Ordered common)
    (hin : ∀ p ∈ common, Inside e.fields.factoredUnionSpans p) (hsub : cover common ⊆ cover e.fields.factoredUnionSpans) :
    ∃ e', factorOut e common = some e' ∧ e'.AllOrdered ∧
      rowsIn index common ∪ e'.meaning index = e.meaning index ∧ cover common ∪ e'.keysOf = e.keysOf := by
  unfold factorOut
  split
  · next hnil =>
    subst hnil
    exact ⟨e, rfl, he, by simp, by simp⟩
  obtain ⟨out, hout, hspec⟩ := subtractSpans_spec he.root.2 hc hin
  have hparts : cover e.fields.factoredUnionSpans = cover common ∪ cover out := by
    rw [hspec.covers, Set.union_sdiff_cancel hsub]
  refine ⟨e.setFactored out, by rw [hout, Option.map_some], he.setFields ⟨he.root.1, hspec.ordered⟩, ?_, ?_⟩
  · rw [meaning_eq, meaning_eq (e := e), rowsIn_union hparts, setFactored, fields_setFields, meaningBelow_setFields,
      Set.union_assoc]
  · rw [keysOf_eq, keysOf_eq (e := e), hparts, setFactored, fields_setFields, keysBelow_setFields, Set.union_assoc]

theorem intersectSpanExpressions_root (index : EncVal → Set PK) (hl : left.Wf) (hr : right.Wf) :
    ∃ e, intersectSpanExpressions left right = some e ∧ Root index (left.meaning index ∩ right.meaning index) e := by
  obtain ⟨hlread, hlspans⟩ := hl.ordered.root
  obtain ⟨hrread, hrspans⟩ := hr.ordered.root
  have hcommon := intersectSpans_spec hlspans hrspans
  obtain ⟨hcover, hread⟩ := unionSpans_spec hlread hrread
  have hsub := hcommon.covers.subset
  obtain ⟨l', hl', hlord, hlrows, hlkeys⟩ := factorOut_spec index hl.ordered hcommon.ordered
    hcommon.insideLeft fun k hk => (hsub hk).1
  obtain ⟨r', hr', hrord, hrrows, hrkeys⟩ := factorOut_spec index hr.ordered hcommon.ordered
    hcommon.insideRight fun k hk => (hsub hk).2
  refine ⟨tryPruneChildren (intersectionNode left.fields right.fields) .setIntersection l' r', ?_, ?_⟩
  · simp only [intersectSpanExpressions, intersectionNode, hl', Option.bind_some, hr', Option.map_some]
  refine tryPruneChildren_intersection ⟨hread, hcommon.ordered⟩ hlord hrord ?_ ?_
  · show cover (unionSpans _ _) = cover (intersectSpans _ _) ∪ _
    rw [hcover, hl.exact, hr.exact, ← hlkeys, ← hrkeys, ← Set.union_union_distrib_left]
  · rw [← hlrows, ← hrrows, ← Set.union_inter_distrib_left]
    rfl

theorem unionSpanExpressions_root (index : EncVal → Set PK) (hl : left.Wf) (hr : right.Wf) :
    Root index (left.meaning index ∪ right.meaning index) (unionSpanExpressions left right) := by
  obtain ⟨hlread, hlspans⟩ := hl.ordered.root
  obtain ⟨hrread, hrspans⟩ := hr.ordered.root
  obtain ⟨hcover, hread⟩ := unionSpans_spec hlread hrread
  obtain ⟨hfcover, hfactored⟩ := unionSpans_spec hlspans hrspans
  have hrows : ∀ e : SpanExpression, (e.setFactored []).meaning index = e.meaningBelow index := by
    intro e
    rw [meaning_eq, setFactored, fields_setFields, meaningBelow_setFields, rowsIn_nil, Set.empty_union]
  have hkeys : ∀ e : SpanExpression, (e.setFactored []).keysOf = e.keysBelow := by
    intro e
    rw [keysOf_eq, setFactored, fields_setFields, keysBelow_setFields, cover_nil, Set.empty_union]
  refine tryPruneChildren_union ⟨hread, hfactored⟩ (hl.ordered.setFields ⟨hlread, .nil⟩)
    (hr.ordered.setFields ⟨hrread, .nil⟩) ?_ (by simp [setFactored]) (by simp [setFactored]) ?_
  · rw [hkeys, hkeys]
    show cover (unionSpans _ _) = cover (unionSpans _ _) ∪ _
    rw [hcover, hfcover, hl.exact, hr.exact, keysOf_eq, keysOf_eq (e := right), Set.union_union_union_comm]
  · rw [hrows, hrows, unionNode, rowsIn_union hfcover, Set.union_union_union_comm, ← meaning_eq, ← meaning_eq]

/-- Expressions made by `ExprForSpan`, `And` and `Or` from spans that are not empty. -/
inductive Built : SpanExpression → Prop
  | span {s : Span EncVal} (tight : Bool) (h : s.Valid) : Built (exprForSpan s tight)
  | and {left right e : SpanExpression} (hl : Built left) (hr : Built right)
      (h : Expression.and (.spanExpression left) (.spanExpression right) = some (.spanExpression e)) : Built e
  | or {left right e : SpanExpression} (hl : Built left) (hr : Built right)
      (h : Expression.or (.spanExpression left) (.spanExpression right) = .spanExpression e) : Built e

theorem Built.wf (h : Built e) : e.Wf := by
  induction h with
  | span tight hs => exact ⟨⟨.singleton hs, .singleton hs⟩, rfl⟩
  | and hl hr h ihl ihr =>
    obtain ⟨e', he', hroot⟩ := intersectSpanExpressions_root (fun _ => (∅ : Set Unit)) ihl ihr
    rw [Expression.and, he'] at h
    cases h
    exact hroot.wf
  | or hl hr h ihl ihr =>
    cases h
    exact (unionSpanExpressions_root (fun _ => (∅ : Set Unit)) ihl ihr).wf

end

/-- Over every index, `And` means the intersection and `Or` the union of what two expressions mean; the
    span lists of the result are sorted and do not overlap, and its root reads exactly the keys of the
    spans of all its nodes. -/
theorem and_or_meaning (index : EncVal → Set PK) (l r : SpanExpression) (hl : Built l) (hr : Built r) :
    (∃ e, Expression.and (.spanExpression l) (.spanExpression r) = some (.spanExpression e) ∧
      e.meaning index = l.meaning index ∩ r.meaning index ∧ e.AllOrdered ∧
      cover e.fields.spansToRead = e.keysOf) ∧
    ∃ e, Expression.or (.spanExpression l) (.spanExpression r) = .spanExpression e ∧
      e.meaning index = l.meaning index ∪ r.meaning index ∧ e.AllOrdered ∧
      cover e.fields.spansToRead = e.keysOf := by
  obtain ⟨e, he, hroot⟩ := intersectSpanExpressions_root index hl.wf hr.wf
  have hor := unionSpanExpressions_root index hl.wf hr.wf
  refine ⟨⟨e, by rw [Expression.and, he, Option.map_some], hroot.meaning, hroot.wf.ordered, hroot.wf.exact⟩, ?_⟩
  exact ⟨unionSpanExpressions l r, rfl, hor.meaning, hor.wf.ordered, hor.wf.exact⟩

/-- `[2, 10)` and `[6, 14)`, over an index that has one row under 3 and 12 and another under 7. -/
theorem and_or_meaning_overlap :
    let index : EncVal → Set Nat := fun key => {pk | (key = [3] ∨ key = [12]) ∧ pk = 1 ∨ key = [7] ∧ pk = 2}
    let l := exprForSpan ⟨[2], [10]⟩ true
    let r := exprForSpan ⟨[6], [14]⟩ true
    (∃ e, Expression.and (.spanExpression l) (.spanExpression r) = some (.spanExpression e) ∧
      e.meaning index = l.meaning index ∩ r.meaning index ∧ e.AllOrdered ∧
      cover e.fields.spansToRead = e.keysOf) ∧
    ∃ e, Expression.or (.spanExpression l) (.spanExpression r) = .spanExpression e ∧
      e.meaning index = l.meaning index ∪ r.meaning index ∧ e.AllOrdered ∧
      cover e.fields.spansToRead = e.keysOf :=
  and_or_meaning _ _ _ (.span true (by decide)) (.span true (by decide))

end

end Ratel.Inverted
