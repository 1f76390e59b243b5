import Ratel.Lib.Ordering
import Ratel.Lib.Ranges

/- Sorted lists of spans of an inverted index, and the three merges over them. Each goes through two
   lists at once with the rest of one span in hand, and exchanges the lists so that this span comes
   from the left. The union joins spans that touch; the other two do not, so the lists are sorted and
   do not overlap, but their spans may touch. A merge is correct if it covers the union, intersection
   or difference of what its arguments cover. -/
namespace Ratel.Inverted

open Ratel.Lib List

variable {α : Type} [LinearOrder α]

/-- `[start, stop)`. -/
abbrev Span (α : Type) := Range α

def cmpExcEndWithIncStart (left right : Span α) : Ordering := threeWay left.stop right.start

def cmpEnds (left right : Span α) : Ordering := threeWay left.stop right.stop

/-- `extendSpanEnd`: the longer span, if it is longer. -/
def extendSpanEnd (left right : Span α) (cmpExcEndIncStart : Ordering) : Option (Span α) :=
  if cmpExcEndIncStart = .eq then some { left with stop := right.stop }
  else if left.stop < right.stop then some { left with stop := right.stop }
  else none

/-! Union. -/

/-- `makeMergeSpan` while the right is not exhausted: the span to merge into and what is left of the
    list it came from and of the other. -/
def makeMergeSpan (left : List (Span α)) (r : Span α) (right : List (Span α)) :
    Span α × List (Span α) × List (Span α) :=
  match left with
  | [] => (r, right, [])
  | l :: left => if r.start < l.start then (r, right, l :: left) else (l, left, r :: right)

theorem makeMergeSpan_length (left : List (Span α)) (r : Span α) (right : List (Span α)) :
    (makeMergeSpan left r right).2.1.length + (makeMergeSpan left r right).2.2.length = left.length + right.length := by
  unfold makeMergeSpan
  split
  · simp
  split
  · simp only [length_cons]
    omega
  · simp only [length_cons]
    omega

/-- The loop of `unionSpans`. -/
def unionLoop (mergeSpan : Span α) (left right : List (Span α)) : List (Span α) :=
  match right with
  | [] => mergeSpan :: left
  | r :: right =>
    match cmpExcEndWithIncStart mergeSpan r with
    | .lt =>
      let next := makeMergeSpan left r right
      mergeSpan :: unionLoop next.1 next.2.1 next.2.2
    | cmp =>
      match extendSpanEnd mergeSpan r cmp with
      | some mergeSpan => unionLoop mergeSpan right left
      | none => unionLoop mergeSpan left right
termination_by left.length + right.length
decreasing_by
  · have := makeMergeSpan_length left r right
    simp only [length_cons]
    omega
  · simp only [length_cons]
    omega
  · simp

def unionSpans (left right : List (Span α)) : List (Span α) :=
  match left, right with
  | [], right => right
  | left, [] => left
  | left, r :: right =>
    let next := makeMergeSpan left r right
    unionLoop next.1 next.2.1 next.2.2

/-! Intersection. -/

/-- The loop of `intersectSpans` with a span in hand, and with none. -/
def intersectLoop (mergeSpan : Option (Span α)) (left right : List (Span α)) : List (Span α) :=
  match mergeSpan, left, right with
  | some m, left, r :: right =>
    match cmpExcEndWithIncStart m r with
    | .gt =>
      match cmpEnds m r with
      | .lt => ⟨r.start, m.stop⟩ :: intersectLoop (some ⟨m.stop, r.stop⟩) right left
      | .eq => ⟨r.start, m.stop⟩ :: intersectLoop none left right
      | .gt => ⟨r.start, r.stop⟩ :: intersectLoop (some ⟨r.stop, m.stop⟩) left right
    | _ => intersectLoop none left (r :: right)
  | none, l :: left, r :: right =>
    let next := makeMergeSpan (l :: left) r right
    intersectLoop (some next.1) next.2.1 next.2.2
  | _, _, _ => []
termination_by 2 * (left.length + right.length) + (if mergeSpan.isSome then 1 else 0)
decreasing_by
  all_goals simp only [length_cons, Option.isSome_some, Option.isSome_none, if_true, Bool.false_eq_true, if_false]
  · omega
  · omega
  · omega
  · omega
  · have := makeMergeSpan_length (l :: left) r right
    simp only [length_cons] at this
    omega

def intersectSpans (left right : List (Span α)) : List (Span α) := intersectLoop none left right

/-! Difference. -/

def partBefore (mergeSpan r : Span α) : List (Span α) :=
  if mergeSpan.start < r.start then [⟨mergeSpan.start, r.start⟩] else []

/-- The loop of `subtractSpans`. It reads the next span of the left without a check that there is one. -/
def subtractLoop (mergeSpan : Option (Span α)) (left right : List (Span α)) : Option (List (Span α)) :=
  match mergeSpan, left, right with
  | some m, left, [] => some (m :: left)
  | none, left, [] => some left
  | none, [], _ :: _ => none
  | none, l :: left, r :: right => subtractLoop (some l) left (r :: right)
  | some m, left, r :: right =>
    match cmpExcEndWithIncStart m r with
    | .gt =>
      match cmpEnds m r with
      | .eq => (subtractLoop none left right).map (partBefore m r ++ ·)
      | _ => (subtractLoop (some ⟨r.stop, m.stop⟩) left right).map (partBefore m r ++ ·)
    | _ => (subtractLoop none left (r :: right)).map (m :: ·)
termination_by 2 * (left.length + right.length) + (if mergeSpan.isSome then 1 else 0)
decreasing_by
  all_goals simp only [length_cons, Option.isSome_some, Option.isSome_none, if_true, Bool.false_eq_true, if_false]
  all_goals omega

/-- `subtractSpans`, which asks that the right be a subset of the left. -/
def subtractSpans (left right : List (Span α)) : Option (List (Span α)) := subtractLoop none left right

/-! What the merges cover. -/

/-- The span in hand is from the left and starts first. -/
structure InHand (m : Span α) (left right : List (Span α)) : Prop where
  valid : m.Valid
  leftOrdered : Ordered left
  rightOrdered : Ordered right
  before : ∀ x ∈ left, m.stop ≤ x.start
  first : ∀ x ∈ right, m.start ≤ x.start

/-- The span taken is the first of one of the lists; the other list is as it was. -/
theorem makeMergeSpan_cases (left : List (Span α)) (r : Span α) (right : List (Span α)) :
    let next := makeMergeSpan left r right
    (next.1 :: next.2.1 = left ∧ next.2.2 = r :: right) ∨ (next.1 :: next.2.1 = r :: right ∧ next.2.2 = left) := by
  unfold makeMergeSpan
  split
  · exact .inr ⟨rfl, rfl⟩
  split
  · exact .inr ⟨rfl, rfl⟩
  · exact .inl ⟨rfl, rfl⟩

variable {left right l out : List (Span α)} {r m p : Span α}

theorem makeMergeSpan_inHand (hl : Ordered left) (hr : Ordered (r :: right)) :
    let next := makeMergeSpan left r right
    InHand next.1 next.2.1 next.2.2 := by
  obtain ⟨hrv, hrb, hrr⟩ := ordered_cons.mp hr
  unfold makeMergeSpan
  split
  · exact ⟨hrv, hrr, .nil, hrb, by simp⟩
  next l left =>
  obtain ⟨hlv, hlb, hll⟩ := ordered_cons.mp hl
  split
  · next hlt => exact ⟨hrv, hrr, hl, hrb, fun x hx => hlt.le.trans (hl.head_le x hx)⟩
  · next hge => exact ⟨hlv, hll, hr, hlb, fun x hx => (not_lt.mp hge).trans (hr.head_le x hx)⟩

/-- A span in hand that is made longer. -/
theorem keys_extend (hstart : m.start ≤ r.start) (htouch : r.start ≤ m.stop) (hstop : m.stop ≤ r.stop) :
    Range.keys ⟨m.start, r.stop⟩ = m.keys ∪ r.keys := by
  rw [Range.keys, Range.keys, Range.keys, Set.Ico_union_Ico' htouch ((hstart.trans htouch).trans hstop),
    min_eq_left hstart, max_eq_right hstop]

theorem makeMergeSpan_cover (left : List (Span α)) (r : Span α) (right : List (Span α)) :
    let next := makeMergeSpan left r right
    next.1.keys ∪ cover next.2.1 ∪ cover next.2.2 = cover left ∪ cover (r :: right) := by
  intro next
  rw [← cover_cons]
  rcases makeMergeSpan_cases left r right with h | h
  · rw [h.1, h.2]
  · rw [h.1, h.2, Set.union_comm]

/-- What `extendSpanEnd` does with a span that starts at the end of the one in hand or before it. -/
theorem extendSpanEnd_some {m' : Span α} (hr : r.Valid)
    (h : extendSpanEnd m r (cmpExcEndWithIncStart m r) = some m') : m' = ⟨m.start, r.stop⟩ ∧ m.stop < r.stop := by
  unfold extendSpanEnd at h
  split at h
  · next heq =>
    cases h
    have heq : m.stop = r.start := threeWay_eq_iff.mp heq
    exact ⟨rfl, heq ▸ hr⟩
  split at h
  · next hlt =>
    cases h
    exact ⟨rfl, hlt⟩
  · cases h

theorem extendSpanEnd_none (h : extendSpanEnd m r (cmpExcEndWithIncStart m r) = none) :
    r.stop ≤ m.stop := by
  unfold extendSpanEnd at h
  split at h
  · cases h
  split at h
  · cases h
  · next hge => exact not_lt.mp hge

/-- The union in the loop: what is covered, and that the first span starts where the one in hand did. -/
theorem unionLoop_spec (m : Span α) (left right : List (Span α)) (h : InHand m left right) :
    cover (unionLoop m left right) = m.keys ∪ cover left ∪ cover right ∧ Ordered (unionLoop m left right) ∧
      ∀ x ∈ unionLoop m left right, m.start ≤ x.start := by
  fun_induction unionLoop m left right with
  | case1 m left =>
    have hord : Ordered (m :: left) := ordered_cons.mpr ⟨h.valid, h.before, h.leftOrdered⟩
    exact ⟨by simp, hord, hord.head_le⟩
  | case2 m left r right hcmp next ih =>
    obtain ⟨ihcover, ihord, ihstart⟩ := ih (makeMergeSpan_inHand h.leftOrdered h.rightOrdered)
    have hlt : m.stop < r.start := threeWay_lt_iff.mp hcmp
    -- the next span in hand is the first of the left or the one that did not reach
    have hstart : m.stop ≤ next.1.start := by
      rcases makeMergeSpan_cases left r right with hnext | hnext
      · exact h.before _ (hnext.1 ▸ mem_cons_self)
      · have heq : next.1 = r := (cons_eq_cons.mp hnext.1).1
        exact heq ▸ hlt.le
    have hord : Ordered (m :: unionLoop next.1 next.2.1 next.2.2) :=
      ordered_cons.mpr ⟨h.valid, fun b hb => hstart.trans (ihstart b hb), ihord⟩
    refine ⟨?_, hord, hord.head_le⟩
    rw [cover_cons, ihcover, makeMergeSpan_cover, Set.union_assoc]
  | case3 m left r right m' hcmp hext ih =>
    obtain ⟨hrv, hrb, hrr⟩ := ordered_cons.mp h.rightOrdered
    obtain ⟨rfl, hlt⟩ := extendSpanEnd_some hrv hext
    have hfirst : m.start ≤ r.start := h.first r mem_cons_self
    have htouch : r.start ≤ m.stop := not_lt.mp fun hlt => hcmp (threeWay_lt_iff.mpr hlt)
    have hle := le_of_lt h.valid
    obtain ⟨ihcover, ihord, ihstart⟩ :=
      ih ⟨h.valid.trans hlt, hrr, h.leftOrdered, hrb, fun x hx => hle.trans (h.before x hx)⟩
    refine ⟨?_, ihord, ihstart⟩
    rw [ihcover, keys_extend hfirst htouch hlt.le, cover_cons]
    ac_rfl
  | case4 m left r right hcmp hext ih =>
    obtain ⟨hrv, hrb, hrr⟩ := ordered_cons.mp h.rightOrdered
    have hinside : r.keys ⊆ m.keys :=
      Set.Ico_subset_Ico (h.first r mem_cons_self) (extendSpanEnd_none hext)
    obtain ⟨ihcover, ihord, ihstart⟩ :=
      ih ⟨h.valid, h.leftOrdered, hrr, h.before, fun x hx => h.first x (mem_cons_of_mem r hx)⟩
    refine ⟨?_, ihord, ihstart⟩
    rw [ihcover, cover_cons, ← Set.union_assoc, Set.union_right_comm m.keys (cover left) r.keys,
      Set.union_eq_left.mpr hinside]

theorem unionSpans_spec (hl : Ordered left) (hr : Ordered right) :
    cover (unionSpans left right) = cover left ∪ cover right ∧ Ordered (unionSpans left right) := by
  unfold unionSpans
  split
  · exact ⟨by simp, hr⟩
  · exact ⟨by simp, hl⟩
  next r right =>
  obtain ⟨hcover, hord, _⟩ := unionLoop_spec _ _ _ (makeMergeSpan_inHand hl hr)
  exact ⟨hcover.trans (makeMergeSpan_cover _ _ _), hord⟩

/-- The span lies in one of the list. -/
def Inside (l : List (Span α)) (p : Span α) : Prop := ∃ x ∈ l, x.start ≤ p.start ∧ p.stop ≤ x.stop

theorem Inside.head {x : Span α} (hstart : x.start ≤ p.start) (hstop : p.stop ≤ x.stop) :
    Inside (x :: l) p := ⟨x, mem_cons_self, hstart, hstop⟩

theorem Inside.tail (x : Span α) (h : Inside l p) : Inside (x :: l) p := by
  obtain ⟨y, hy, h⟩ := h
  exact ⟨y, mem_cons_of_mem x hy, h⟩

theorem inside_cons {x : Span α} :
    Inside (x :: l) p ↔ (x.start ≤ p.start ∧ p.stop ≤ x.stop) ∨ Inside l p := by
  simp [Inside]

/-- Pieces of two lists, each in one span of either. -/
structure Intersects (l r out : List (Span α)) : Prop where
  covers : cover out = cover l ∩ cover r
  ordered : Ordered out
  insideLeft : ∀ p ∈ out, Inside l p
  insideRight : ∀ p ∈ out, Inside r p

theorem Intersects.swap {r : List (Span α)} (h : Intersects l r out) : Intersects r l out :=
  ⟨h.covers.trans (Set.inter_comm _ _), h.ordered, h.insideRight, h.insideLeft⟩

/-- A piece before the pieces of what the lists have after it. -/
theorem Intersects.cons {r l' r' : List (Span α)} (h : Intersects l' r' out) (hp : p.Valid)
    (hlater : ∀ k, k ∈ cover l' → k ∈ cover r' → p.stop ≤ k)
    (hcover : p.keys ∪ cover l' ∩ cover r' = cover l ∩ cover r)
    (hl : ∀ x, Inside l' x → Inside l x) (hr : ∀ x, Inside r' x → Inside r x) (hpl : Inside l p) (hpr : Inside r p) :
    Intersects l r (p :: out) := by
  refine ⟨?_, ordered_cons.mpr ⟨hp, fun b hb => ?_, h.ordered⟩, ?_, ?_⟩
  · rw [cover_cons, h.covers, hcover]
  · have hmem := h.ordered.start_mem hb
    rw [h.covers] at hmem
    exact hlater _ hmem.1 hmem.2
  · exact forall_mem_cons.mpr ⟨hpl, fun x hx => hl x (h.insideLeft x hx)⟩
  · exact forall_mem_cons.mpr ⟨hpr, fun x hx => hr x (h.insideRight x hx)⟩

/-- The span in hand, if there is one, is where it should be. -/
def Ready (mergeSpan : Option (Span α)) (left right : List (Span α)) : Prop :=
  match mergeSpan with
  | some m => InHand m left right
  | none => Ordered left ∧ Ordered right

theorem intersectLoop_spec (mergeSpan : Option (Span α)) (left right : List (Span α)) (h : Ready mergeSpan left right) :
    Intersects (mergeSpan.toList ++ left) right (intersectLoop mergeSpan left right) := by
  fun_induction intersectLoop mergeSpan left right with
  | case1 m left r right hcmp hends ih =>
    obtain ⟨hrv, hrb, hrr⟩ := ordered_cons.mp h.rightOrdered
    have hgt : r.start < m.stop := threeWay_gt_iff.mp hcmp
    have hlt : m.stop < r.stop := threeWay_lt_iff.mp hends
    have hfirst := h.first r mem_cons_self
    have hrest := (ih ⟨hlt, hrr, h.leftOrdered, hrb, h.before⟩).swap
    refine hrest.cons hgt (fun k hk _ => le_of_mem_cover h.before hk) ?_ (fun x hx => hx.tail m) (fun x hx => ?_)
      (.head hfirst le_rfl) (.head le_rfl hlt.le)
    · ext k
      have hright := fun hk : k ∈ cover right => le_of_mem_cover hrb hk
      simp only [Option.toList, singleton_append, cover_cons, Set.mem_union, Set.mem_inter_iff, Range.mem_keys]
      grind
    · rcases inside_cons.mp hx with hx | hx
      · exact .head (hgt.le.trans hx.1) hx.2
      · exact hx.tail r
  | case2 m left r right hcmp hends ih =>
    obtain ⟨hrv, hrb, hrr⟩ := ordered_cons.mp h.rightOrdered
    have hgt : r.start < m.stop := threeWay_gt_iff.mp hcmp
    have heq : m.stop = r.stop := threeWay_eq_iff.mp hends
    have hfirst := h.first r mem_cons_self
    have hrest := ih ⟨h.leftOrdered, hrr⟩
    refine hrest.cons hgt (fun k hk _ => le_of_mem_cover h.before hk) ?_ (fun x hx => hx.tail m) (fun x hx => hx.tail r)
      (.head hfirst le_rfl) (.head le_rfl heq.le)
    ext k
    have hright := fun hk : k ∈ cover right => le_of_mem_cover hrb hk
    simp only [Option.toList, singleton_append, nil_append, cover_cons, Set.mem_union, Set.mem_inter_iff,
      Range.mem_keys]
    grind
  | case3 m left r right hcmp hends ih =>
    obtain ⟨hrv, hrb, hrr⟩ := ordered_cons.mp h.rightOrdered
    have hvalid : r.start < r.stop := hrv
    have hgt : r.stop < m.stop := threeWay_gt_iff.mp hends
    have hfirst := h.first r mem_cons_self
    have hrest := ih ⟨hgt, h.leftOrdered, hrr, h.before, hrb⟩
    refine hrest.cons hrv (fun k _ hk => le_of_mem_cover hrb hk) ?_ (fun x hx => ?_) (fun x hx => hx.tail r)
      (.head hfirst hgt.le) (.head le_rfl le_rfl)
    · ext k
      have hright := fun hk : k ∈ cover right => le_of_mem_cover hrb hk
      simp only [Option.toList, singleton_append, cover_cons, Set.mem_union, Set.mem_inter_iff, Range.mem_keys]
      grind
    · rcases inside_cons.mp hx with hx | hx
      · exact .head ((hfirst.trans hrv.le).trans hx.1) hx.2
      · exact hx.tail m
  | case4 m left r right hcmp ih =>
    have hle : m.stop ≤ r.start := not_lt.mp fun hlt => hcmp (threeWay_gt_iff.mpr hlt)
    have hrest := ih ⟨h.leftOrdered, h.rightOrdered⟩
    refine ⟨hrest.covers.trans ?_, hrest.ordered, fun p hp => (hrest.insideLeft p hp).tail m, hrest.insideRight⟩
    ext k
    have hright := fun hk : k ∈ cover (r :: right) =>
      le_of_mem_cover (fun x hx => hle.trans (h.rightOrdered.head_le x hx)) hk
    simp only [Option.toList, singleton_append, nil_append, cover_cons m, Set.mem_union, Set.mem_inter_iff,
      Range.mem_keys]
    grind
  | case5 l left r right next ih =>
    have hrest := ih (makeMergeSpan_inHand h.1 h.2)
    generalize intersectLoop (some next.1) next.2.1 next.2.2 = out at hrest ⊢
    simp only [Option.toList, singleton_append] at hrest ⊢
    rcases makeMergeSpan_cases (l :: left) r right with hnext | hnext
    · rwa [hnext.1, hnext.2] at hrest
    · rw [hnext.1, hnext.2] at hrest
      exact hrest.swap
  | case6 mergeSpan left right hsome hnone =>
    refine ⟨?_, .nil, by simp, by simp⟩
    cases right with
    | nil => simp
    | cons r right =>
      cases mergeSpan with
      | some m => exact (hsome m r right rfl rfl).elim
      | none =>
        cases left with
        | nil => simp
        | cons l left => exact (hnone l left r right rfl rfl rfl).elim

theorem intersectSpans_spec (hl : Ordered left) (hr : Ordered right) :
    Intersects left right (intersectSpans left right) :=
  intersectLoop_spec none left right ⟨hl, hr⟩

/-- What `subtractSpans` has to return. -/
structure Subtracts (l r out : List (Span α)) : Prop where
  covers : cover out = cover l \ cover r
  ordered : Ordered out

/-- The rest of the right lies in the rest of the left. -/
structure Subset (mergeSpan : Option (Span α)) (left right : List (Span α)) : Prop where
  leftOrdered : Ordered (mergeSpan.toList ++ left)
  rightOrdered : Ordered right
  inside : ∀ r ∈ right, Inside (mergeSpan.toList ++ left) r

/-- The first of the right lies in the span in hand if that reaches it. -/
theorem Subset.head (h : Subset (some m) left (r :: right))
    (hgt : r.start < m.stop) : m.start ≤ r.start ∧ r.stop ≤ m.stop := by
  obtain ⟨_, hbefore, _⟩ := ordered_cons.mp h.leftOrdered
  rcases inside_cons.mp (h.inside r mem_cons_self) with hin | hin
  · exact hin
  · obtain ⟨x, hx, hstart, _⟩ := hin
    exact absurd (hgt.trans_le (hbefore x hx)) (not_lt.mpr hstart)

/-- Spans of the right that start behind the span in hand lie in the rest of the left. -/
theorem inside_left (hr : r.Valid) (hle : m.stop ≤ r.start) (h : Inside (m :: left) r) : Inside left r := by
  rcases inside_cons.mp h with hin | hin
  · exact absurd (hr.trans_le hin.2) (not_lt.mpr hle)
  · exact hin

/-- What is left of the span in hand before the span that is taken away. -/
theorem Subtracts.cut {l' : List (Span α)} (hr : r.Valid)
    (hbefore : ∀ x ∈ left, m.stop ≤ x.start) (hafter : ∀ x ∈ right, r.stop ≤ x.start) (hin : m.start ≤ r.start)
    (hstop : r.stop ≤ m.stop) (hl' : cover l' = Range.keys ⟨r.stop, m.stop⟩ ∪ cover left) (h : Subtracts l' right out) :
    Subtracts (m :: left) (r :: right) (partBefore m r ++ out) := by
  have hrv : r.start < r.stop := hr
  have hlater : ∀ x ∈ out, r.stop ≤ x.start := by
    intro x hx
    have hmem := h.ordered.start_mem hx
    rw [h.covers, hl'] at hmem
    rcases hmem.1 with hk | hk
    · exact hk.1
    · exact hstop.trans (le_of_mem_cover hbefore hk)
  unfold partBefore
  refine ⟨?_, ?_⟩
  · rw [cover_append, h.covers, hl']
    ext k
    have hleft := fun hk : k ∈ cover left => le_of_mem_cover hbefore hk
    have hright := fun hk : k ∈ cover right => le_of_mem_cover hafter hk
    split
    · simp only [cover_cons, cover_nil, Set.mem_union, Set.mem_sdiff, Range.mem_keys]
      grind
    · simp only [cover_cons, cover_nil, Set.mem_union, Set.mem_sdiff, Range.mem_keys]
      grind
  · split
    · next hlt => exact ordered_cons.mpr ⟨hlt, fun x hx => hrv.le.trans (hlater x hx), h.ordered⟩
    · exact h.ordered

theorem subtractLoop_spec (mergeSpan : Option (Span α)) (left right : List (Span α)) (h : Subset mergeSpan left right) :
    ∃ out, subtractLoop mergeSpan left right = some out ∧ Subtracts (mergeSpan.toList ++ left) right out := by
  fun_induction subtractLoop mergeSpan left right with
  | case1 m left => exact ⟨_, rfl, by simp, h.leftOrdered⟩
  | case2 left => exact ⟨_, rfl, by simp, h.leftOrdered⟩
  | case3 r right =>
    obtain ⟨x, hx, _⟩ := h.inside r mem_cons_self
    cases hx
  | case4 l left r right ih => exact ih ⟨h.leftOrdered, h.rightOrdered, h.inside⟩
  | case5 m left r right hcmp hends ih =>
    -- both spans end here
    obtain ⟨hmv, hbefore, hleft⟩ := ordered_cons.mp h.leftOrdered
    obtain ⟨hrv, hafter, hright⟩ := ordered_cons.mp h.rightOrdered
    have heq : m.stop = r.stop := threeWay_eq_iff.mp hends
    obtain ⟨hstart, hstop⟩ := h.head (threeWay_gt_iff.mp hcmp)
    obtain ⟨out, hout, hspec⟩ := ih ⟨hleft, hright, fun x hx => inside_left (hright.valid x hx)
      (heq ▸ hafter x hx) (h.inside x (mem_cons_of_mem r hx))⟩
    refine ⟨_, by rw [hout, Option.map_some], hspec.cut hrv hbefore hafter hstart hstop ?_⟩
    rw [heq]
    simp [Range.keys]
  | case6 m left r right hcmp hends ih =>
    obtain ⟨hmv, hbefore, hleft⟩ := ordered_cons.mp h.leftOrdered
    obtain ⟨hrv, hafter, hright⟩ := ordered_cons.mp h.rightOrdered
    obtain ⟨hstart, hstop⟩ := h.head (threeWay_gt_iff.mp hcmp)
    have hlt : r.stop < m.stop := lt_of_le_of_ne hstop fun heq => hends (threeWay_eq_iff.mpr heq.symm)
    obtain ⟨out, hout, hspec⟩ := ih ⟨ordered_cons.mpr ⟨hlt, hbefore, hleft⟩, hright, fun x hx => by
      rcases inside_cons.mp (h.inside x (mem_cons_of_mem r hx)) with hin | hin
      · exact .head (hafter x hx) hin.2
      · exact hin.tail _⟩
    exact ⟨_, by rw [hout, Option.map_some], hspec.cut hrv hbefore hafter hstart hstop (cover_cons _ _)⟩
  | case7 m left r right hcmp ih =>
    -- the span taken away starts behind the one in hand
    obtain ⟨hmv, hbefore, hleft⟩ := ordered_cons.mp h.leftOrdered
    have hle : m.stop ≤ r.start := not_lt.mp fun hlt => hcmp (threeWay_gt_iff.mpr hlt)
    have hafter : ∀ x ∈ r :: right, m.stop ≤ x.start := fun x hx => hle.trans (h.rightOrdered.head_le x hx)
    obtain ⟨out, hout, hspec⟩ := ih ⟨hleft, h.rightOrdered, fun x hx =>
      inside_left (h.rightOrdered.valid x hx) (hafter x hx) (h.inside x hx)⟩
    refine ⟨_, by rw [hout, Option.map_some], ?_, ordered_cons.mpr ⟨hmv, fun x hx => ?_, hspec.ordered⟩⟩
    · have hdisj : Disjoint m.keys (cover (r :: right)) :=
        Set.disjoint_left.mpr fun k hk hk' => absurd (le_of_mem_cover hafter hk') (not_le.mpr hk.2)
      show cover (m :: out) = cover (m :: left) \ cover (r :: right)
      rw [cover_cons, cover_cons, hspec.covers, Set.union_sdiff_distrib, sdiff_eq_left.mpr hdisj]
      rfl
    · have hmem := hspec.ordered.start_mem hx
      rw [hspec.covers] at hmem
      exact le_of_mem_cover hbefore hmem.1

theorem subtractSpans_spec (hl : Ordered left) (hr : Ordered right) (hin : ∀ r ∈ right, Inside left r) :
    ∃ out, subtractSpans left right = some out ∧ Subtracts left right out :=
  subtractLoop_spec none left right ⟨hl, hr, hin⟩

end Ratel.Inverted
