import Ratel.Opt.ConstraintOrder

/- The merge loops of `UnionWith` and `IntersectWith` on the ranges of the spans. Both lists are
   canonical: their ranges are not empty and lie strictly apart in order. The inner loop of the
   union grows one range at its end while the next range of either list overlaps or touches it;
   what is left of the lists then lies strictly behind it. -/
namespace Ratel.Opt

open Ratel.Lib List

variable {D R : Type} [LinearOrder R] {ctx : KeyContext D R}

def ranges (ctx : KeyContext D R) (l : List (Span D)) : List (Range (List (Place R))) := l.map (Span.range ctx)

/-- What remains of a list of spans, none of which starts before `b`. -/
structure Side (ctx : KeyContext D R) (b : List (Place R)) (l : List (Span D)) : Prop where
  canonical : Canonical (ranges ctx l)
  ahead : ∀ sp ∈ l, b ≤ (sp.range ctx).start
  fits : ∀ sp ∈ l, sp.Fits ctx

variable {sp a : Span D} {l : List (Span D)}

theorem Side.tail {b : List (Place R)} (h : Side ctx b (sp :: l)) : Side ctx b l :=
  ⟨(canonical_cons.mp h.canonical).2.2, fun _ ha => h.ahead _ (mem_cons_of_mem _ ha),
    fun _ ha => h.fits _ (mem_cons_of_mem _ ha)⟩

/-- A span that is being merged, starting at `b`. -/
structure Growing (ctx : KeyContext D R) (b : List (Place R)) (m : Span D) : Prop where
  start : (m.range ctx).start = b
  valid : (m.range ctx).Valid
  fits : m.Fits ctx

variable {b : List (Place R)} {m m' : Span D} {left right left' right' : List (Span D)}

/-- A list of spans as a constraint holds one. -/
structure Tidy (ctx : KeyContext D R) (l : List (Span D)) : Prop where
  canonical : Canonical (ranges ctx l)
  fits : ∀ sp ∈ l, sp.Fits ctx

/-- Behind the first span of a list, everything starts after it. -/
theorem Tidy.side_tail (h : Tidy ctx (sp :: l)) :
    Side ctx (sp.range ctx).start l := by
  obtain ⟨hvalid, hbehind, hrest⟩ := canonical_cons.mp h.canonical
  refine ⟨hrest, fun a ha => ?_, (forall_mem_cons.mp h.fits).2⟩
  exact (lt_trans hvalid (hbehind _ (mem_map_of_mem ha))).le

theorem Tidy.side_of_le (h : Tidy ctx (sp :: l)) (hle : b ≤ (sp.range ctx).start) : Side ctx b (sp :: l) :=
  ⟨h.canonical, forall_mem_cons.mpr ⟨hle, fun a ha => le_trans hle (h.side_tail.ahead a ha)⟩, h.fits⟩

theorem Side.tidy (h : Side ctx b l) : Tidy ctx l := ⟨h.canonical, h.fits⟩

/-- A list behind which a span is put. -/
theorem Tidy.snoc (h : Tidy ctx l) (hvalid : (sp.range ctx).Valid)
    (hfits : sp.Fits ctx) (hbehind : ∀ a ∈ l, (a.range ctx).stop < (sp.range ctx).start) : Tidy ctx (l ++ [sp]) := by
  constructor
  · rw [ranges, map_append]
    refine canonical_append.mpr ⟨h.canonical, ?_, ?_⟩
    · exact canonical_cons.mpr ⟨hvalid, by simp, Canonical.nil⟩
    intro x hx y hy
    obtain ⟨a, ha, rfl⟩ := mem_map.mp hx
    obtain ⟨c, hc, rfl⟩ := mem_map.mp hy
    rw [mem_singleton.mp hc]
    exact hbehind a ha
  · exact forall_mem_append.mpr ⟨h.fits, forall_mem_singleton.mpr hfits⟩

theorem cover_snoc (l : List (Span D)) (sp : Span D) :
    cover (ranges ctx (l ++ [sp])) = cover (ranges ctx l) ∪ (sp.range ctx).keys := by
  simp [ranges]

/-- One of the two lists lies behind the span. -/
def Past (ctx : KeyContext D R) (left right : List (Span D)) (a : Span D) : Prop :=
  (∀ sp ∈ left, (a.range ctx).stop < (sp.range ctx).start) ∨ ∀ sp ∈ right, (a.range ctx).stop < (sp.range ctx).start

theorem Past.mono (h : Past ctx left right a) (hl : left' ⊆ left) (hr : right' ⊆ right) :
    Past ctx left' right' a :=
  h.imp (fun h sp hsp => h sp (hl hsp)) fun h sp hsp => h sp (hr hsp)

/-- A range that ends where the spans of a list start has nothing in common with them. -/
theorem notMem_cover {r : Range (List (Place R))}
    (h : ∀ sp ∈ l, r.stop ≤ (sp.range ctx).start) : ∀ k ∈ r.keys, k ∉ cover (ranges ctx l) := by
  intro k hk ⟨x, hx, hkx⟩
  obtain ⟨sp, hsp, rfl⟩ := mem_map.mp hx
  exact absurd (lt_of_lt_of_le hk.2 (le_trans (h sp hsp) hkx.1)) (lt_irrefl k)

theorem cover_ranges_cons (sp : Span D) (l : List (Span D)) :
    cover (ranges ctx (sp :: l)) = (sp.range ctx).keys ∪ cover (ranges ctx l) := by
  simp [ranges]

/-- A range that ends before the first span of a tidy list does has nothing in common with the rest. -/
theorem notMem_tail {l : Span D} {r : Range (List (Place R))} (hl : Tidy ctx (l :: left))
    (hle : r.stop ≤ (l.range ctx).stop) : ∀ k ∈ r.keys, k ∉ cover (ranges ctx left) :=
  notMem_cover fun _ hsp =>
    le_trans hle ((canonical_cons.mp hl.canonical).2.1 _ (mem_map_of_mem hsp)).le

theorem Tidy.tail {l : Span D} (hl : Tidy ctx (l :: left)) : Tidy ctx left := hl.side_tail.tidy

/-- A span that ends with the first span of a tidy list at the latest lies before the rest. -/
theorem past_tail {l : Span D} (hl : Tidy ctx (l :: left)) (hle : (a.range ctx).stop ≤ (l.range ctx).stop) :
    ∀ sp ∈ left, (a.range ctx).stop < (sp.range ctx).start :=
  fun _ hsp => lt_of_le_of_lt hle ((canonical_cons.mp hl.canonical).2.1 _ (mem_map_of_mem hsp))

variable [DecidableEq D]

theorem absorb_some (hm : Growing ctx b m) (hl : Side ctx b left) (h : absorb ctx m left = some (m', left')) :
    Growing ctx b m' ∧ Side ctx b left' ∧
      (m'.range ctx).keys ∪ cover (ranges ctx left') = (m.range ctx).keys ∪ cover (ranges ctx left) := by
  cases left with
  | nil => cases h
  | cons sp rest =>
    obtain ⟨m'', hun, heq⟩ := Option.map_eq_some_iff.mp h
    cases heq
    have hvalid : (sp.range ctx).Valid := (canonical_cons.mp hl.canonical).1
    obtain ⟨hov, hmerge⟩ := Span.tryUnionWith_some hm.valid hvalid hun
    refine ⟨⟨?_, ?_, Span.tryUnionWith_fits hm.fits (hl.fits sp mem_cons_self) hun⟩, hl.tail, ?_⟩
    · rw [hmerge, Range.merge_start, hm.start, min_eq_left (hl.ahead sp mem_cons_self)]
    · rw [hmerge]
      exact hm.valid.merge _
    · rw [hmerge, Range.keys_merge hov, ranges, ranges, map_cons, cover_cons, Set.union_assoc]

theorem absorb_none (hm : Growing ctx b m) (hl : Side ctx b left) (h : absorb ctx m left = none) :
    ∀ sp ∈ left, (m.range ctx).stop < (sp.range ctx).start := by
  cases left with
  | nil => simp
  | cons first rest =>
    have hun : m.tryUnionWith ctx first = none := Option.map_eq_none_iff.mp h
    obtain ⟨hvalid, hbehind, -⟩ := canonical_cons.mp hl.canonical
    have hfirst : (m.range ctx).stop < (first.range ctx).start := by
      rcases Span.tryUnionWith_none hun with hlt | hlt
      · exact hlt
      have hle := hl.ahead first mem_cons_self
      rw [← hm.start] at hle
      exact absurd (lt_of_lt_of_le (lt_trans hvalid hlt) hle) (lt_irrefl _)
    refine forall_mem_cons.mpr ⟨hfirst, fun sp hsp => ?_⟩
    exact lt_trans hfirst (lt_trans hvalid (hbehind _ (mem_map_of_mem hsp)))

/-- The inner loop: the span grows over all ranges connected to it, and the rest of both lists lies
    behind it. -/
theorem mergeLoop_spec (m : Span D) (left right : List (Span D)) (hm : Growing ctx b m) (hl : Side ctx b left)
    (hr : Side ctx b right) :
    let out := mergeLoop ctx m left right
    Growing ctx b out.1 ∧ Side ctx b out.2.1 ∧ Side ctx b out.2.2 ∧
      (∀ sp, sp ∈ out.2.1 ∨ sp ∈ out.2.2 → (out.1.range ctx).stop < (sp.range ctx).start) ∧
      (out.1.range ctx).keys ∪ cover (ranges ctx out.2.1) ∪ cover (ranges ctx out.2.2) =
        (m.range ctx).keys ∪ cover (ranges ctx left) ∪ cover (ranges ctx right) := by
  fun_induction mergeLoop ctx m left right with
  | case1 m left right m₁ left' hal _ m₂ right' har _ ih =>
    obtain ⟨hm₁, hl', hcover⟩ := absorb_some hm hl hal
    obtain ⟨hm₂, hr', hcover'⟩ := absorb_some hm₁ hr har
    obtain ⟨h1, h2, h3, h4, h5⟩ := ih hm₂ hl' hr'
    refine ⟨h1, h2, h3, h4, h5.trans ?_⟩
    rw [← hcover, Set.union_right_comm, hcover', Set.union_right_comm]
  | case2 m left right m₁ left' hal _ har ih =>
    obtain ⟨hm₁, hl', hcover⟩ := absorb_some hm hl hal
    obtain ⟨h1, h2, h3, h4, h5⟩ := ih hm₁ hl' hr
    exact ⟨h1, h2, h3, h4, h5.trans (by rw [hcover])⟩
  | case3 m left right hal m₂ right' har _ ih =>
    obtain ⟨hm₂, hr', hcover⟩ := absorb_some hm hr har
    obtain ⟨h1, h2, h3, h4, h5⟩ := ih hm₂ hl hr'
    refine ⟨h1, h2, h3, h4, h5.trans ?_⟩
    rw [Set.union_right_comm, hcover, Set.union_right_comm]
  | case4 m left right hal har =>
    refine ⟨hm, hl, hr, fun sp hsp => ?_, rfl⟩
    rcases hsp with hmem | hmem
    · exact absorb_none hm hl hal sp hmem
    · exact absorb_none hm hr har sp hmem

/-- The two sides in the order of their first starts. -/
theorem orderSides_spec (ctx : KeyContext D R) (left right : List (Span D)) :
    (orderSides ctx left right = (left, right) ∨ orderSides ctx left right = (right, left)) ∧
      ((orderSides ctx left right).1 = [] → left = [] ∧ right = []) ∧
      ∀ l x r y, orderSides ctx left right = (l :: x, r :: y) → (l.range ctx).start ≤ (r.range ctx).start := by
  unfold orderSides
  split
  · exact ⟨.inr rfl, by simp, by simp⟩
  · next l left r right =>
    have hcmp : if (l.compare ctx r).isGT = true then (r.range ctx).start ≤ (l.range ctx).start
        else (l.range ctx).start ≤ (r.range ctx).start := by
      unfold Span.compare
      rw [Span.compareStarts_eq]
      cases hs : threeWay (l.range ctx).start (r.range ctx).start with
      | lt => exact (threeWay_lt_iff.mp hs).le
      | eq =>
        rw [threeWay_eq_iff.mp hs, ite_self]
      | gt => exact (threeWay_gt_iff.mp hs).le
    split at hcmp
    · next hgt =>
      rw [if_pos hgt]
      refine ⟨.inr rfl, by simp, fun l' x r' y heq => ?_⟩
      cases heq
      exact hcmp
    next hle =>
    rw [if_neg hle]
    refine ⟨.inl rfl, by simp, fun l' x r' y heq => ?_⟩
    cases heq
    exact hcmp
  · exact ⟨.inl rfl, by simp, by simp⟩

theorem unionLoop_spec (left right result : List (Span D)) (hl : Tidy ctx left) (hr : Tidy ctx right)
    (hres : Tidy ctx result)
    (hbehind : ∀ a ∈ result, ∀ sp, sp ∈ left ∨ sp ∈ right → (a.range ctx).stop < (sp.range ctx).start) :
    Tidy ctx (unionLoop ctx left right result) ∧ cover (ranges ctx (unionLoop ctx left right result)) =
        cover (ranges ctx result) ∪ (cover (ranges ctx left) ∪ cover (ranges ctx right)) := by
  fun_induction unionLoop ctx left right result with
  | case1 left right result rest heq =>
    have hnil := (orderSides_spec ctx left right).2.1 (by rw [heq])
    rw [hnil.1, hnil.2]
    exact ⟨hres, by simp [ranges]⟩
  | case2 left right result l left' right' heq _ _ merged ih =>
    obtain ⟨hswap, -, hfirst⟩ := orderSides_spec ctx left right
    rw [heq] at hswap
    -- whichever list comes first, the two together are the same
    obtain ⟨hx, hy, hall, hcover⟩ : Tidy ctx (l :: left') ∧ Tidy ctx right' ∧
        (∀ sp, sp ∈ l :: left' ∨ sp ∈ right' ↔ sp ∈ left ∨ sp ∈ right) ∧
        cover (ranges ctx (l :: left')) ∪ cover (ranges ctx right') =
          cover (ranges ctx left) ∪ cover (ranges ctx right) := by
      rcases hswap with h | h
      · obtain ⟨rfl, rfl⟩ := Prod.mk.inj h
        exact ⟨hl, hr, fun sp => Iff.rfl, rfl⟩
      · obtain ⟨rfl, rfl⟩ := Prod.mk.inj h
        exact ⟨hr, hl, fun sp => or_comm, Set.union_comm _ _⟩
    have hgrow : Growing ctx (l.range ctx).start l :=
      ⟨rfl, (canonical_cons.mp hx.canonical).1, hx.fits l mem_cons_self⟩
    have hside : Side ctx (l.range ctx).start right' := by
      cases right' with
      | nil => exact ⟨hy.canonical, by simp, by simp⟩
      | cons r rest => exact hy.side_of_le (hfirst l left' r rest heq)
    obtain ⟨hm, hl', hr', hrest, hmerged⟩ := mergeLoop_spec l left' right' hgrow hx.side_tail hside
    have hlate : ∀ a ∈ result, (a.range ctx).stop < (merged.1.range ctx).start := by
      intro a ha
      rw [hm.start]
      exact hbehind a ha l ((hall l).mp (.inl mem_cons_self))
    obtain ⟨htidy, hout⟩ := ih hl'.tidy hr'.tidy (hres.snoc hm.valid hm.fits hlate) (forall_mem_append.mpr
      ⟨fun a ha sp hsp => lt_trans (hlate a ha) (lt_trans hm.valid (hrest sp hsp)), forall_mem_singleton.mpr hrest⟩)
    refine ⟨htidy, hout.trans ?_⟩
    rw [cover_snoc, Set.union_assoc, ← hcover, ← Set.union_assoc (merged.1.range ctx).keys, hmerged]
    simp [ranges]

/-! Intersection. -/

/-- Two spans at the heads of the lists that intersect: what they share is put behind what has been
    found so far. -/
theorem intersect_heads {l r : Span D} {result : List (Span D)} (hl : Tidy ctx (l :: left)) (hr : Tidy ctx (r :: right))
    (hres : Tidy ctx result) (hpast : ∀ a ∈ result, Past ctx (l :: left) (r :: right) a)
    (hafter : ¬ l.startsAfter ctx r = true) (h : l.tryIntersectWith ctx r = some m) :
    Tidy ctx (result ++ [m]) ∧ (m.range ctx).keys = (l.range ctx).keys ∩ (r.range ctx).keys ∧
      (m.range ctx).stop = min (l.range ctx).stop (r.range ctx).stop := by
  obtain ⟨hrange, hmeet⟩ := Span.tryIntersectWith_some h
  have hlv : (l.range ctx).Valid := (canonical_cons.mp hl.canonical).1
  have hrv : (r.range ctx).Valid := (canonical_cons.mp hr.canonical).1
  have hlt : (l.range ctx).start < (r.range ctx).stop := not_le.mp fun hle => hafter (Span.startsAfter_iff.mpr hle)
  have hgt : (r.range ctx).start < (l.range ctx).stop := by
    by_cases hstop : (l.range ctx).stop < (r.range ctx).stop
    · exact hmeet hstop
    · exact lt_of_lt_of_le hrv (not_lt.mp hstop)
  refine ⟨hres.snoc ?_ ?_ ?_, ?_, ?_⟩
  · rw [hrange]
    exact max_lt (lt_min hlv hlt) (lt_min hgt hrv)
  · exact Span.tryIntersectWith_fits (hl.fits l mem_cons_self) (hr.fits r mem_cons_self) h
  · intro a ha
    rw [hrange]
    rcases hpast a ha with hleft | hright
    · exact lt_of_lt_of_le (hleft l mem_cons_self) (le_max_left _ _)
    · exact lt_of_lt_of_le (hright r mem_cons_self) (le_max_right _ _)
  · rw [hrange]
    exact Set.Ico_inter_Ico.symm
  · rw [hrange]

theorem intersectLoop_spec (left right result : List (Span D)) (hl : Tidy ctx left) (hr : Tidy ctx right)
    (hres : Tidy ctx result) (hpast : ∀ a ∈ result, Past ctx left right a) :
    Tidy ctx (intersectLoop ctx left right result) ∧ cover (ranges ctx (intersectLoop ctx left right result)) =
        cover (ranges ctx result) ∪ cover (ranges ctx left) ∩ cover (ranges ctx right) := by
  fun_induction intersectLoop ctx left right result with
  | case1 l left r right result hafter ih =>
    have hbefore := Span.startsAfter_iff.mp hafter
    have hnone := notMem_cover (r := r.range ctx) (hl.side_of_le hbefore).ahead
    obtain ⟨htidy, hcover⟩ := ih hl hr.tail hres fun a ha => (hpast a ha).mono (List.Subset.refl _) (subset_cons_self _ _)
    refine ⟨htidy, hcover.trans ?_⟩
    rw [cover_ranges_cons r]
    grind
  | case2 l left r right result hafter hmeet ih =>
    have hbefore : (l.range ctx).stop ≤ (r.range ctx).start := by
      rcases Span.tryIntersectWith_none hmeet with hle | hle
      · exact absurd (Span.startsAfter_iff.mpr hle) hafter
      · exact hle
    have hnone := notMem_cover (r := l.range ctx) (hr.side_of_le hbefore).ahead
    obtain ⟨htidy, hcover⟩ := ih hl.tail hr hres fun a ha => (hpast a ha).mono (subset_cons_self _ _) (List.Subset.refl _)
    refine ⟨htidy, hcover.trans ?_⟩
    rw [cover_ranges_cons l]
    grind
  | case3 l left r right result hafter m hmeet hcmp ih =>
    obtain ⟨hsnoc, hkeys, hstop⟩ := intersect_heads hl hr hres hpast hafter hmeet
    have hlt : (l.range ctx).stop < (r.range ctx).stop := threeWay_lt_iff.mp (Span.compareStops_eq.symm.trans hcmp)
    have hm : (m.range ctx).stop ≤ (l.range ctx).stop := hstop ▸ min_le_left _ _
    have hnone := notMem_tail (r := l.range ctx) hr hlt.le
    obtain ⟨htidy, hcover⟩ := ih hl.tail hr hsnoc (forall_mem_append.mpr
      ⟨fun a ha => (hpast a ha).mono (subset_cons_self _ _) (List.Subset.refl _),
        forall_mem_singleton.mpr (.inl (past_tail hl hm))⟩)
    refine ⟨htidy, hcover.trans ?_⟩
    rw [cover_snoc, hkeys, cover_ranges_cons l, cover_ranges_cons r]
    grind
  | case4 l left r right result hafter m hmeet hcmp ih =>
    obtain ⟨hsnoc, hkeys, hstop⟩ := intersect_heads hl hr hres hpast hafter hmeet
    have heq : (l.range ctx).stop = (r.range ctx).stop := threeWay_eq_iff.mp (Span.compareStops_eq.symm.trans hcmp)
    have hm : (m.range ctx).stop ≤ (l.range ctx).stop := hstop ▸ min_le_left _ _
    have hnone := notMem_tail (r := l.range ctx) hr heq.le
    have hnone' := notMem_tail (r := r.range ctx) hl heq.ge
    obtain ⟨htidy, hcover⟩ := ih hl.tail hr.tail hsnoc (forall_mem_append.mpr
      ⟨fun a ha => (hpast a ha).mono (subset_cons_self _ _) (subset_cons_self _ _),
        forall_mem_singleton.mpr (.inl (past_tail hl hm))⟩)
    refine ⟨htidy, hcover.trans ?_⟩
    rw [cover_snoc, hkeys, cover_ranges_cons l, cover_ranges_cons r]
    grind
  | case5 l left r right result hafter m hmeet hcmp ih =>
    obtain ⟨hsnoc, hkeys, hstop⟩ := intersect_heads hl hr hres hpast hafter hmeet
    have hgt : (r.range ctx).stop < (l.range ctx).stop := threeWay_gt_iff.mp (Span.compareStops_eq.symm.trans hcmp)
    have hm : (m.range ctx).stop ≤ (r.range ctx).stop := hstop ▸ min_le_right _ _
    have hnone := notMem_tail (r := r.range ctx) hl hgt.le
    obtain ⟨htidy, hcover⟩ := ih hl hr.tail hsnoc (forall_mem_append.mpr
      ⟨fun a ha => (hpast a ha).mono (List.Subset.refl _) (subset_cons_self _ _),
        forall_mem_singleton.mpr (.inr (past_tail hr hm))⟩)
    refine ⟨htidy, hcover.trans ?_⟩
    rw [cover_snoc, hkeys, cover_ranges_cons l, cover_ranges_cons r]
    grind
  | case6 => exact ⟨hres, by simp [ranges]⟩
  | case7 => exact ⟨hres, by simp [ranges]⟩

/-! Constraints. -/

/-- `Spans.sortedAndMerged`: each span starts strictly after the one before it. -/
def sortedAndMerged (ctx : KeyContext D R) : List (Span D) → Bool
  | a :: c :: l => c.startsStrictlyAfter ctx a && sortedAndMerged ctx (c :: l)
  | _ => true

namespace Constraint

/-- A constraint as `Init` demands it: keys that fit the columns, and spans that are not empty, in
    order and do not touch. -/
structure WellFormed (d : Datums D R) (c : Constraint D) : Prop where
  fits : ∀ sp ∈ c.spans, sp.Fits ⟨d, c.columns⟩
  nonEmpty : ∀ sp ∈ c.spans, sp.nonEmpty ⟨d, c.columns⟩ = true
  sorted : sortedAndMerged ⟨d, c.columns⟩ c.spans = true

def Allows (d : Datums D R) (c : Constraint D) (t : List D) : Prop := ∃ sp ∈ c.spans, sp.Contains ⟨d, c.columns⟩ t

end Constraint

/-- The span [/NULL - ] on a descending first column, which `IsUnconstrained` takes for a span
    without bounds. -/
def Span.EndlessNull (ctx : KeyContext D R) (sp : Span D) : Prop :=
  (ctx.columns.getD 0 0).descending = true ∧ sp.start = [ctx.datums.null] ∧ sp.startBoundary = .includeBoundary ∧
    sp.stop = []

theorem sortedAndMerged_cons (h : sortedAndMerged ctx (a :: l) = true) :
    sortedAndMerged ctx l = true ∧ ∀ c ∈ l.head?, (a.range ctx).stop < (c.range ctx).start := by
  cases l with
  | nil => exact ⟨rfl, by simp⟩
  | cons c l =>
    rw [sortedAndMerged, Bool.and_eq_true, Span.startsStrictlyAfter_iff] at h
    exact ⟨h.2, by simpa using h.1⟩

/-- Neighbours apart are enough for all to be apart, since no span is empty. -/
theorem canonical_of_sorted : ∀ l : List (Span D), (∀ sp ∈ l, sp.nonEmpty ctx = true) → sortedAndMerged ctx l = true →
    Canonical (ranges ctx l)
  | [], _, _ => Canonical.nil
  | a :: l, hne, h => by
    obtain ⟨hrest, hnext⟩ := sortedAndMerged_cons h
    have ih := canonical_of_sorted l (forall_mem_cons.mp hne).2 hrest
    refine canonical_cons.mpr ⟨Span.nonEmpty_iff.mp (hne a mem_cons_self), ?_, ih⟩
    intro x hx
    cases l with
    | nil => cases hx
    | cons c l =>
      have hac := hnext c (by simp)
      rcases mem_cons.mp hx with heq | hmem
      · exact heq ▸ hac
      · obtain ⟨hvalid, hbehind, -⟩ := canonical_cons.mp ih
        exact lt_trans hac (lt_trans hvalid (hbehind x hmem))

theorem sorted_of_canonical : ∀ l : List (Span D), Canonical (ranges ctx l) → sortedAndMerged ctx l = true
  | [], _ => rfl
  | [_], _ => rfl
  | a :: c :: l, h => by
    obtain ⟨-, hbehind, hrest⟩ := canonical_cons.mp h
    rw [sortedAndMerged, Bool.and_eq_true, Span.startsStrictlyAfter_iff]
    exact ⟨hbehind _ mem_cons_self, sorted_of_canonical (c :: l) hrest⟩

namespace Constraint

variable {d : Datums D R} {c : Constraint D}

theorem wellFormed_iff_tidy : c.WellFormed d ↔ Tidy ⟨d, c.columns⟩ c.spans := by
  constructor
  · intro h
    exact ⟨canonical_of_sorted c.spans h.nonEmpty h.sorted, h.fits⟩
  intro h
  refine ⟨h.fits, fun sp hsp => ?_, sorted_of_canonical c.spans h.canonical⟩
  exact Span.nonEmpty_iff.mpr (h.canonical.valid _ (mem_map_of_mem hsp))

theorem allows_iff_cover {t : List D} (h : c.WellFormed d) (ht : t.length = c.columns.length) :
    c.Allows d t ↔ tuplePoint ⟨d, c.columns⟩ t ∈ cover (ranges ⟨d, c.columns⟩ c.spans) := by
  constructor
  · intro ⟨sp, hsp, hcon⟩
    exact ⟨_, mem_map_of_mem hsp, (Span.contains_iff (h.fits sp hsp) ht).mp hcon⟩
  intro ⟨r, hr, hkey⟩
  obtain ⟨sp, hsp, rfl⟩ := mem_map.mp hr
  exact ⟨sp, hsp, (Span.contains_iff (h.fits sp hsp) ht).mpr hkey⟩

theorem not_allows_of_isContradiction {t : List D} (h : c.isContradiction = true) : ¬ c.Allows d t := by
  intro ⟨sp, hsp, _⟩
  rw [length_eq_zero_iff.mp (of_decide_eq_true h)] at hsp
  cases hsp

end Constraint

/-- A span that counts as unconstrained and is not empty has both boundaries inclusive. -/
theorem Span.boundaries_of_isUnconstrained (hun : sp.isUnconstrained ctx.datums = true) (hne : sp.nonEmpty ctx = true) :
    (sp.start = [] ∨ sp.start = [ctx.datums.null]) ∧ sp.startBoundary = .includeBoundary ∧ sp.stop = [] ∧
      sp.stopBoundary = .includeBoundary := by
  obtain ⟨start, sb, stop, eb⟩ := sp
  simp only [Span.isUnconstrained, Key.isNull, Bool.and_eq_true, Bool.or_eq_true, List.isEmpty_iff,
    decide_eq_true_eq] at hun
  obtain ⟨hstart, rfl⟩ := hun
  rcases hstart with hnil | hnull
  · subst hnil
    cases sb <;> cases eb
    · exact ⟨.inl rfl, rfl, rfl, rfl⟩
    all_goals exact absurd hne Bool.false_ne_true
  obtain ⟨rfl, rfl⟩ := hnull
  cases eb with
  | includeBoundary => exact ⟨.inr rfl, rfl, rfl, rfl⟩
  | excludeBoundary => exact absurd hne (by simp [Span.nonEmpty, Key.compare, Key.compareFrom, Span.stopExt,
      KeyExtension.toCmp])

theorem Span.contains_of_isUnconstrained (hun : sp.isUnconstrained ctx.datums = true)
    (hne : sp.nonEmpty ctx = true) (hnull : ¬ sp.EndlessNull ctx) (t : List D) : sp.Contains ctx t := by
  obtain ⟨hstart, hsb, hstop, heb⟩ := Span.boundaries_of_isUnconstrained hun hne
  rw [Span.Contains, hsb, heb, hstop]
  refine ⟨?_, by cases t <;> simp [comparePrefix]⟩
  rcases hstart with hnil | hnil
  · rw [hnil]
    cases t <;> simp [comparePrefix]
  have hasc : ¬ (ctx.columns.getD 0 0).descending = true := fun hdesc => hnull ⟨hdesc, hnil, hsb, hstop⟩
  rw [hnil]
  cases t with
  | nil => simp [comparePrefix]
  | cons a t =>
    have hle := ctx.datums.null_le a
    have hcmp : ctx.compare 0 a ctx.datums.null ≠ .lt := by
      unfold KeyContext.compare
      split
      · simp
      · exact fun hlt => absurd (threeWay_lt_iff.mp hlt) (not_lt.mpr hle)
    rw [comparePrefix]
    cases hc : ctx.compare 0 a ctx.datums.null with
    | lt => exact absurd hc hcmp
    | eq => cases t <;> simp [comparePrefix]
    | gt => simp

namespace Constraint

variable {d : Datums D R} {c other : Constraint D} {t : List D}

theorem allows_of_isUnconstrained (h : c.WellFormed d) (hnull : ∀ sp ∈ c.spans, ¬ sp.EndlessNull ⟨d, c.columns⟩)
    (hun : c.isUnconstrained d = true) : c.Allows d t := by
  unfold isUnconstrained at hun
  split at hun
  · next sp hsp =>
    have hmem : sp ∈ c.spans := hsp ▸ mem_cons_self
    have hcon : sp.Contains ⟨d, c.columns⟩ t :=
      Span.contains_of_isUnconstrained hun (h.nonEmpty sp hmem) (hnull sp hmem) t
    exact ⟨sp, hmem, hcon⟩
  · cases hun

/-- What both operations promise of their result: a well-formed constraint over the same columns
    that allows the tuples of which `want` holds. -/
def Denotes (d : Datums D R) (columns : List OrderingColumn) (want : List D → Prop) (result : Constraint D) : Prop :=
  result.columns = columns ∧ result.WellFormed d ∧ ∀ t, t.length = columns.length → (result.Allows d t ↔ want t)

theorem unionWith_denotes (hcols : c.columns = other.columns) (hc : c.WellFormed d) (ho : other.WellFormed d)
    (hnull : ∀ sp ∈ c.spans, ¬ sp.EndlessNull ⟨d, c.columns⟩) :
    ∃ result, unionWith d c other = .ok result ∧
      Denotes d c.columns (fun t => c.Allows d t ∨ other.Allows d t) result := by
  unfold unionWith
  rw [if_neg (not_not_intro hcols)]
  split
  · next hfast =>
    refine ⟨c, rfl, rfl, hc, fun t _ => ?_⟩
    rcases (Bool.or_eq_true _ _).mp hfast with hun | hcon
    · exact iff_of_true (allows_of_isUnconstrained hc hnull hun) (.inl (allows_of_isUnconstrained hc hnull hun))
    · exact (or_iff_left (not_allows_of_isContradiction hcon)).symm
  have hother : Tidy ⟨d, c.columns⟩ other.spans := hcols ▸ wellFormed_iff_tidy.mp ho
  obtain ⟨htidy, hcover⟩ := unionLoop_spec c.spans other.spans [] (wellFormed_iff_tidy.mp hc) hother
    ⟨Canonical.nil, by simp⟩ (by simp)
  have hresult : WellFormed d ⟨c.columns, unionLoop ⟨d, c.columns⟩ c.spans other.spans []⟩ :=
    wellFormed_iff_tidy.mpr htidy
  refine ⟨_, rfl, rfl, hresult, fun t ht => ?_⟩
  have hcov := allows_iff_cover hresult ht
  simp only [allows_iff_cover hc ht, allows_iff_cover ho (hcols ▸ ht), ← hcols]
  rw [hcov, hcover]
  simp [ranges]

theorem intersectWith_denotes (hcols : c.columns = other.columns) (hc : c.WellFormed d) (ho : other.WellFormed d)
    (hnull : ∀ sp ∈ other.spans, ¬ sp.EndlessNull ⟨d, c.columns⟩) :
    ∃ result, intersectWith d c other = .ok result ∧
      Denotes d c.columns (fun t => c.Allows d t ∧ other.Allows d t) result := by
  unfold intersectWith
  rw [if_neg (not_not_intro hcols)]
  split
  · next hfast =>
    refine ⟨c, rfl, rfl, hc, fun t _ => ?_⟩
    rcases (Bool.or_eq_true _ _).mp hfast with hcon | hun
    · have hnone := not_allows_of_isContradiction (d := d) (t := t) hcon
      exact iff_of_false hnone (fun h => hnone h.1)
    · exact (and_iff_left (allows_of_isUnconstrained ho (hcols ▸ hnull) hun)).symm
  have hother : Tidy ⟨d, c.columns⟩ other.spans := hcols ▸ wellFormed_iff_tidy.mp ho
  obtain ⟨htidy, hcover⟩ := intersectLoop_spec c.spans other.spans [] (wellFormed_iff_tidy.mp hc) hother
    ⟨Canonical.nil, by simp⟩ (by simp)
  have hresult : WellFormed d ⟨c.columns, intersectLoop ⟨d, c.columns⟩ c.spans other.spans []⟩ :=
    wellFormed_iff_tidy.mpr htidy
  refine ⟨_, rfl, rfl, hresult, fun t ht => ?_⟩
  have hcov := allows_iff_cover hresult ht
  simp only [allows_iff_cover hc ht, allows_iff_cover ho (hcols ▸ ht), ← hcols]
  rw [hcov, hcover]
  simp [ranges]

/-- The union and the intersection of two constraints over the same columns denote the union and the
    intersection of the tuples they allow, and are well formed again. -/
theorem unionWith_intersectWith_exact (d : Datums D R) (c other : Constraint D) (hcols : c.columns = other.columns)
    (hc : c.WellFormed d) (ho : other.WellFormed d)
    (hnull : ∀ sp, sp ∈ c.spans ∨ sp ∈ other.spans → ¬ sp.EndlessNull ⟨d, c.columns⟩) :
    (∃ result, unionWith d c other = .ok result ∧
      Denotes d c.columns (fun t => c.Allows d t ∨ other.Allows d t) result) ∧
    ∃ result, intersectWith d c other = .ok result ∧
      Denotes d c.columns (fun t => c.Allows d t ∧ other.Allows d t) result :=
  ⟨unionWith_denotes hcols hc ho fun sp hsp => hnull sp (.inl hsp),
    intersectWith_denotes hcols hc ho fun sp hsp => hnull sp (.inr hsp)⟩

/-- Integers with NULL first. -/
def intDatums : Datums (Option Nat) Nat where
  rank
    | none => 0
    | some n => n + 1
  null := none
  null_le d := by cases d <;> simp

/-- Over an ascending and a descending column, [/1 - /5) and (/3/4 - /7] [/9 - ]. -/
theorem unionWith_intersectWith_exact_overlap :
    let c : Constraint (Option Nat) := ⟨[1, -2], [⟨[some 1], .includeBoundary, [some 5], .excludeBoundary⟩]⟩
    let other : Constraint (Option Nat) :=
      ⟨[1, -2], [⟨[some 3, some 4], .excludeBoundary, [some 7], .includeBoundary⟩,
        ⟨[some 9], .includeBoundary, [], .includeBoundary⟩]⟩
    (∃ result, unionWith intDatums c other = .ok result ∧
      Denotes intDatums c.columns (fun t => c.Allows intDatums t ∨ other.Allows intDatums t) result) ∧
    ∃ result, intersectWith intDatums c other = .ok result ∧
      Denotes intDatums c.columns (fun t => c.Allows intDatums t ∧ other.Allows intDatums t) result := by
  refine unionWith_intersectWith_exact intDatums _ _ rfl ⟨?_, ?_, ?_⟩ ⟨?_, ?_, ?_⟩ ?_
  · simp [Span.Fits]
  · decide +kernel
  · decide +kernel
  · simp [Span.Fits]
  · decide +kernel
  · decide +kernel
  · intro sp hsp ⟨hdesc, _⟩
    exact absurd hdesc (by decide)

end Constraint

end Ratel.Opt
