import Ratel.Opt.Constraint
import Ratel.Lib.Ranges

/- Boundaries of spans as points of one linear order. A key with its extension is the list of its
   datums' places, each in the order of its column, followed by the least or the greatest place;
   `Key.Compare` is the comparison of these lists, and a span is the range between two of them.
   A tuple of all columns is such a list without an extension, and lies in the range exactly if it
   meets both boundaries of the span. -/
namespace Ratel.Opt

open Ratel.Lib List

variable {D R : Type} [LinearOrder R]

/-- A datum's place in the order of an ascending or of a descending column. -/
abbrev Place (R : Type) := WithBot (WithTop (R ⊕ₗ Rᵒᵈ))

namespace KeyContext

variable (ctx : KeyContext D R)

def place (i : Nat) (d : D) : Place R :=
  ((if (ctx.columns.getD i 0).descending then toLex (.inr (OrderDual.toDual (ctx.datums.rank d)))
    else toLex (.inl (ctx.datums.rank d)) : R ⊕ₗ Rᵒᵈ) : WithTop (R ⊕ₗ Rᵒᵈ))

/-- The places of the datums of a key, the first of column `i`. -/
def places : Nat → Key D → List (Place R)
  | _, [] => []
  | i, d :: k => ctx.place i d :: places (i + 1) k

end KeyContext

def KeyExtension.place : KeyExtension → Place R
  | .extendLow => ⊥
  | .extendHigh => ((⊤ : WithTop (R ⊕ₗ Rᵒᵈ)) : Place R)

variable {ctx : KeyContext D R}

variable [DecidableEq D]

theorem threeWay_place (i : Nat) (a b : D) : threeWay (ctx.place i a) (ctx.place i b) = ctx.compare i a b := by
  have hcoe : StrictMono fun x : R ⊕ₗ Rᵒᵈ => ((x : WithTop (R ⊕ₗ Rᵒᵈ)) : Place R) :=
    fun _ _ h => WithBot.coe_lt_coe.mpr (WithTop.coe_lt_coe.mpr h)
  unfold KeyContext.compare KeyContext.place
  by_cases hab : a = b
  · subst hab
    rw [if_pos rfl]
    exact threeWay_eq_iff.mpr rfl
  rw [if_neg hab, threeWay_map hcoe]
  by_cases hdesc : (ctx.columns.getD i 0).descending = true
  · simp only [hdesc]
    rw [← threeWay_swap]
    exact threeWay_map_anti (f := fun r : R => (toLex (.inr (OrderDual.toDual r)) : R ⊕ₗ Rᵒᵈ))
      (fun _ _ h => Sum.Lex.inr_strictMono (OrderDual.toDual_lt_toDual.mpr h)) _ _
  · simp only [hdesc, Bool.false_eq_true]
    exact threeWay_map (f := fun r : R => (toLex (.inl r) : R ⊕ₗ Rᵒᵈ)) Sum.Lex.inl_strictMono _ _

/-- A boundary as a point: the places of its key and the extension. -/
def bound (ctx : KeyContext D R) (k : Key D) (e : KeyExtension) : List (Place R) := ctx.places 0 k ++ [e.place]

theorem compareFrom_eq (e f : KeyExtension) : ∀ (i : Nat) (k l : Key D),
    Key.compareFrom ctx e f i k l = threeWay (ctx.places i k ++ [e.place]) (ctx.places i l ++ [f.place])
  | i, a :: k, b :: l => by
    rw [Key.compareFrom, KeyContext.places, KeyContext.places, cons_append, cons_append, threeWay_cons,
      threeWay_place, ← compareFrom_eq e f (i + 1) k l]
    cases ctx.compare i a b <;> rfl
  | i, [], b :: l => by
    cases e <;> rfl
  | i, a :: k, [] => by
    cases f <;> rfl
  | i, [], [] => by
    cases e <;> cases f <;> rfl

theorem compare_eq (k l : Key D) (e f : KeyExtension) :
    Key.compare ctx k l e f = threeWay (bound ctx k e) (bound ctx l f) := compareFrom_eq e f 0 k l

/-! Spans as ranges. -/

namespace Span

def range (ctx : KeyContext D R) (sp : Span D) : Range (List (Place R)) :=
  ⟨bound ctx sp.start sp.startExt, bound ctx sp.stop sp.stopExt⟩

variable {sp other : Span D}

theorem compareStarts_eq : sp.compareStarts ctx other = threeWay (sp.range ctx).start (other.range ctx).start :=
  compare_eq _ _ _ _

theorem compareStops_eq : sp.compareStops ctx other = threeWay (sp.range ctx).stop (other.range ctx).stop :=
  compare_eq _ _ _ _

theorem startsAfter_iff : sp.startsAfter ctx other = true ↔ (other.range ctx).stop ≤ (sp.range ctx).start := by
  rw [startsAfter, compare_eq, isGE_threeWay]
  rfl

theorem startsStrictlyAfter_iff :
    sp.startsStrictlyAfter ctx other = true ↔ (other.range ctx).stop < (sp.range ctx).start := by
  rw [startsStrictlyAfter, compare_eq, isGT_threeWay]
  rfl

theorem nonEmpty_iff : sp.nonEmpty ctx = true ↔ (sp.range ctx).Valid := by
  rw [nonEmpty, compare_eq, isLT_threeWay]
  rfl

omit [DecidableEq D] in
@[simp] theorem range_withStart : (sp.withStart other).range ctx = ⟨(other.range ctx).start, (sp.range ctx).stop⟩ := rfl

omit [DecidableEq D] in
@[simp] theorem range_withStop : (sp.withStop other).range ctx = ⟨(sp.range ctx).start, (other.range ctx).stop⟩ := rfl

/-- The gap that `TryUnionWith` looks for lies between the spans. -/
theorem tryUnionWith_eq :
    sp.tryUnionWith ctx other =
      if (sp.range ctx).stop < (other.range ctx).start ∧ (sp.range ctx).start < (other.range ctx).start ∨
          (other.range ctx).stop < (sp.range ctx).start ∧ (other.range ctx).start < (sp.range ctx).start then none
      else
        let sp' := if (other.range ctx).start < (sp.range ctx).start then sp.withStart other else sp
        some (if (sp.range ctx).stop < (other.range ctx).stop then sp'.withStop other else sp') := by
  have hgap : Key.compare ctx sp.stop other.start sp.stopExt other.startExt =
      threeWay (sp.range ctx).stop (other.range ctx).start := compare_eq _ _ _ _
  have hgap' : Key.compare ctx other.stop sp.start other.stopExt sp.startExt =
      threeWay (other.range ctx).stop (sp.range ctx).start := compare_eq _ _ _ _
  simp only [tryUnionWith, compareStarts_eq, compareStops_eq, isGT_threeWay, isLT_threeWay, hgap, hgap']
  rcases lt_trichotomy (sp.range ctx).start (other.range ctx).start with hlt | heq | hgt
  · simp only [hlt, lt_asymm hlt, if_true, isLT_threeWay, and_true, and_false, or_false]
  · simp only [heq, lt_irrefl, if_false, and_false]
    rfl
  · simp only [hgt, lt_asymm hgt, if_true, if_false, isLT_threeWay, and_true, and_false, false_or]

variable {m : Span D}

/-- Spans that merge overlap or touch, and leave the smallest range over both. -/
theorem tryUnionWith_some (hsp : (sp.range ctx).Valid) (hother : (other.range ctx).Valid)
    (h : sp.tryUnionWith ctx other = some m) :
    (sp.range ctx).overlapsInclusive (other.range ctx) = true ∧ m.range ctx = (sp.range ctx).merge (other.range ctx) := by
  rw [tryUnionWith_eq] at h
  split at h
  · cases h
  next hgap =>
  rw [not_or] at hgap
  constructor
  · rw [Range.overlapsInclusive_iff]
    constructor
    · by_contra hlt
      exact hgap.2 ⟨not_le.mp hlt, lt_trans hother (not_le.mp hlt)⟩
    · by_contra hlt
      exact hgap.1 ⟨not_le.mp hlt, lt_trans hsp (not_le.mp hlt)⟩
  · cases h
    unfold Range.merge
    split_ifs <;> rfl

theorem tryUnionWith_none (h : sp.tryUnionWith ctx other = none) :
    (sp.range ctx).stop < (other.range ctx).start ∨ (other.range ctx).stop < (sp.range ctx).start := by
  rw [tryUnionWith_eq] at h
  split at h
  · next hgap => exact hgap.imp And.left And.left
  · cases h

/-- Spans that intersect leave the range they share. -/
theorem tryIntersectWith_some (h : sp.tryIntersectWith ctx other = some m) :
    m.range ctx = ⟨max (sp.range ctx).start (other.range ctx).start, min (sp.range ctx).stop (other.range ctx).stop⟩ ∧
      ((sp.range ctx).stop < (other.range ctx).stop → (other.range ctx).start < (sp.range ctx).stop) := by
  have hgap : Key.compare ctx sp.stop other.start sp.stopExt other.startExt =
      threeWay (sp.range ctx).stop (other.range ctx).start := compare_eq _ _ _ _
  simp only [tryIntersectWith, compareStarts_eq, compareStops_eq, isGT_threeWay, isLT_threeWay, hgap,
    threeWay_isLE_iff] at h
  split at h
  · cases h
  split at h
  · cases h
  next hmeet =>
  cases h
  refine ⟨?_, fun hlt => not_le.mp fun hle => hmeet ⟨hlt, hle⟩⟩
  by_cases hstart : (sp.range ctx).start < (other.range ctx).start <;>
    by_cases hstop : (other.range ctx).stop < (sp.range ctx).stop
  · simp [hstart, hstop, max_eq_right hstart.le, min_eq_right hstop.le]
  · simp [hstart, hstop, max_eq_right hstart.le, min_eq_left (not_lt.mp hstop)]
  · simp [hstart, hstop, max_eq_left (not_lt.mp hstart), min_eq_right hstop.le]
  · simp [hstart, hstop, max_eq_left (not_lt.mp hstart), min_eq_left (not_lt.mp hstop)]

theorem tryIntersectWith_none (h : sp.tryIntersectWith ctx other = none) :
    (other.range ctx).stop ≤ (sp.range ctx).start ∨ (sp.range ctx).stop ≤ (other.range ctx).start := by
  have hstart : Key.compare ctx sp.start other.stop sp.startExt other.stopExt =
      threeWay (sp.range ctx).start (other.range ctx).stop := compare_eq _ _ _ _
  have hstop : Key.compare ctx sp.stop other.start sp.stopExt other.startExt =
      threeWay (sp.range ctx).stop (other.range ctx).start := compare_eq _ _ _ _
  simp only [tryIntersectWith, hstart, hstop, isGE_threeWay, threeWay_isLE_iff] at h
  split at h
  · next hgap => exact .inl hgap.2
  split at h
  · next hgap => exact .inr hgap.2
  · cases h

/-! Keys that fit the columns. -/

/-- The keys have at most one datum for each column. -/
def Fits (ctx : KeyContext D R) (sp : Span D) : Prop :=
  sp.start.length ≤ ctx.columns.length ∧ sp.stop.length ≤ ctx.columns.length

theorem tryUnionWith_fits (hsp : sp.Fits ctx) (hother : other.Fits ctx)
    (h : sp.tryUnionWith ctx other = some m) : m.Fits ctx := by
  rw [tryUnionWith_eq] at h
  split at h
  · cases h
  cases h
  split_ifs
  · exact hother
  · exact ⟨hsp.1, hother.2⟩
  · exact ⟨hother.1, hsp.2⟩
  · exact hsp

theorem tryIntersectWith_fits (hsp : sp.Fits ctx) (hother : other.Fits ctx)
    (h : sp.tryIntersectWith ctx other = some m) : m.Fits ctx := by
  simp only [tryIntersectWith] at h
  split at h
  · cases h
  split at h
  · cases h
  cases h
  split_ifs
  · exact hother
  · exact ⟨hsp.1, hother.2⟩
  · exact ⟨hother.1, hsp.2⟩
  · exact hsp

end Span

/-! Tuples. -/

/-- The comparison of the first datums of a tuple, from column `i` on, with a key. -/
def comparePrefix (ctx : KeyContext D R) : Nat → List D → Key D → Ordering
  | i, a :: t, b :: k =>
    match ctx.compare i a b with
    | .eq => comparePrefix ctx (i + 1) t k
    | cmp => cmp
  | _, _, [] => .eq
  | _, [], _ :: _ => .eq

/-- The tuple `t` of all columns meets both boundaries of the span. -/
def Span.Contains (ctx : KeyContext D R) (sp : Span D) (t : List D) : Prop :=
  (match sp.startBoundary with
    | .includeBoundary => comparePrefix ctx 0 t sp.start ≠ .lt
    | .excludeBoundary => comparePrefix ctx 0 t sp.start = .gt) ∧
  (match sp.stopBoundary with
    | .includeBoundary => comparePrefix ctx 0 t sp.stop ≠ .gt
    | .excludeBoundary => comparePrefix ctx 0 t sp.stop = .lt)

/-- A tuple as a point. The place at its end, which could be any datum's, puts it between its two
    extensions as a key. -/
def tuplePoint (ctx : KeyContext D R) (t : List D) : List (Place R) :=
  ctx.places 0 t ++ [ctx.place 0 ctx.datums.null]

/-- A tuple against a boundary: the key decides, and if the tuple starts with it the extension. -/
theorem threeWay_tuple_bound (e : KeyExtension) (j : Nat) (d : D) : ∀ (i : Nat) (t : List D) (k : Key D),
    k.length ≤ t.length →
    threeWay (ctx.places i t ++ [ctx.place j d]) (ctx.places i k ++ [e.place]) =
      (comparePrefix ctx i t k).then e.toCmp.swap
  | i, a :: t, b :: k, h => by
    rw [comparePrefix, KeyContext.places, KeyContext.places, cons_append, cons_append, threeWay_cons,
      threeWay_place, threeWay_tuple_bound e j d (i + 1) t k (Nat.le_of_succ_le_succ h)]
    cases ctx.compare i a b <;> rfl
  | i, a :: t, [], _ => by
    cases e <;> rfl
  | i, [], [], _ => by
    cases e <;> rfl
  | i, [], b :: k, h => absurd h (by simp)

theorem Span.contains_iff {sp : Span D} {t : List D} (hsp : sp.Fits ctx) (ht : t.length = ctx.columns.length) :
    sp.Contains ctx t ↔ tuplePoint ctx t ∈ (sp.range ctx).keys := by
  have hstart : threeWay (tuplePoint ctx t) (sp.range ctx).start = _ :=
    threeWay_tuple_bound sp.startExt 0 ctx.datums.null 0 t sp.start (ht ▸ hsp.1)
  have hstop : threeWay (tuplePoint ctx t) (sp.range ctx).stop = _ :=
    threeWay_tuple_bound sp.stopExt 0 ctx.datums.null 0 t sp.stop (ht ▸ hsp.2)
  have hge : (sp.range ctx).start ≤ tuplePoint ctx t ↔
      ((comparePrefix ctx 0 t sp.start).then sp.startExt.toCmp.swap).isGE = true := by
    rw [← isGE_threeWay, hstart]
  have hlt : tuplePoint ctx t < (sp.range ctx).stop ↔
      ((comparePrefix ctx 0 t sp.stop).then sp.stopExt.toCmp.swap).isLT = true := by
    rw [← isLT_threeWay, hstop]
  rw [Range.keys, Set.mem_Ico, hge, hlt, Span.Contains, Span.startExt, Span.stopExt]
  cases sp.startBoundary <;> cases sp.stopBoundary <;> cases comparePrefix ctx 0 t sp.start <;>
    cases comparePrefix ctx 0 t sp.stop <;> decide

end Ratel.Opt
