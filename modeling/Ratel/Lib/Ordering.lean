import Mathlib.Order.Compare
import Mathlib.Data.Prod.Lex
import Mathlib.Data.List.Lex
import Mathlib.Order.WithBot

/- The three-way comparison of a linear order, and how it passes through lexicographic pairs and
   lists, duals and an added least element. -/
namespace Ratel.Lib

variable {α β : Type*} [LinearOrder α] [LinearOrder β]

/-- The comparison of a linear order, decided by that order's own instance. -/
def threeWay (a b : α) : Ordering := cmp a b

variable {a b : α}

theorem threeWay_lt_iff : threeWay a b = .lt ↔ a < b := cmp_eq_lt_iff a b

theorem threeWay_eq_iff : threeWay a b = .eq ↔ a = b := cmp_eq_eq_iff a b

theorem threeWay_gt_iff : threeWay a b = .gt ↔ b < a := cmp_eq_gt_iff a b

theorem threeWay_swap (a b : α) : threeWay b a = (threeWay a b).swap := (cmp_swap a b).symm

theorem threeWay_isLE_iff : (threeWay a b).isLE ↔ a ≤ b := by
  rw [← not_lt, ← threeWay_gt_iff]
  cases threeWay a b <;> simp

theorem isGT_threeWay : (threeWay a b).isGT = true ↔ b < a := by
  rw [← threeWay_gt_iff]
  cases threeWay a b <;> simp

theorem isLT_threeWay : (threeWay a b).isLT = true ↔ a < b := by
  rw [← threeWay_lt_iff]
  cases threeWay a b <;> simp

theorem isGE_threeWay : (threeWay a b).isGE = true ↔ b ≤ a := by
  rw [← not_lt, ← threeWay_lt_iff]
  cases threeWay a b <;> simp

/-- A comparison by ranks is a total preorder. -/
theorem transCmp_threeWay {γ : Type*} (rank : γ → α) : Std.TransCmp fun a b => threeWay (rank a) (rank b) where
  eq_swap := threeWay_swap _ _
  isLE_trans hab hbc := threeWay_isLE_iff.mpr (le_trans (threeWay_isLE_iff.mp hab) (threeWay_isLE_iff.mp hbc))

theorem threeWay_toLex (a b : α) (x y : β) :
    threeWay (toLex (a, x)) (toLex (b, y)) = (threeWay a b).then (threeWay x y) := by
  rcases lt_trichotomy a b with h | h | h
  · rw [threeWay_lt_iff.mpr h, threeWay_lt_iff.mpr (Prod.Lex.toLex_lt_toLex.mpr (.inl h))]
    rfl
  · subst h
    simp [threeWay, cmp, cmpUsing, Prod.Lex.toLex_lt_toLex]
  · rw [threeWay_gt_iff.mpr h, threeWay_gt_iff.mpr (Prod.Lex.toLex_lt_toLex.mpr (.inl h))]
    rfl

/-- A comparison passes through a strictly monotone map, and is turned by an antitone one. -/
theorem threeWay_map {f : α → β} (hf : StrictMono f) (a b : α) : threeWay (f a) (f b) = threeWay a b := by
  rcases lt_trichotomy a b with h | h | h
  · exact (threeWay_lt_iff.mpr (hf h)).trans (threeWay_lt_iff.mpr h).symm
  · exact (threeWay_eq_iff.mpr (congrArg f h)).trans (threeWay_eq_iff.mpr h).symm
  · exact (threeWay_gt_iff.mpr (hf h)).trans (threeWay_gt_iff.mpr h).symm

theorem threeWay_map_anti {f : α → β} (hf : StrictAnti f) (a b : α) : threeWay (f a) (f b) = threeWay b a :=
  threeWay_map (f := fun x : αᵒᵈ => f (OrderDual.ofDual x)) hf.dual_left (OrderDual.toDual a) (OrderDual.toDual b)

theorem threeWay_coe_toDual (a b : α) :
    threeWay ((OrderDual.toDual a : αᵒᵈ) : WithBot αᵒᵈ) (OrderDual.toDual b : αᵒᵈ) = threeWay b a :=
  threeWay_map_anti (fun _ _ h => WithBot.coe_lt_coe.mpr (OrderDual.toDual_lt_toDual.mpr h)) a b

theorem threeWay_cons (a b : α) (x y : List α) :
    threeWay (a :: x) (b :: y) = (threeWay a b).then (threeWay x y) := by
  rcases lt_trichotomy a b with h | h | h
  · rw [threeWay_lt_iff.mpr h, threeWay_lt_iff.mpr (List.Lex.rel h)]
    rfl
  · subst h
    rw [threeWay_eq_iff.mpr rfl]
    rcases lt_trichotomy x y with h | h | h
    · exact (threeWay_lt_iff.mpr (List.Lex.cons h)).trans (threeWay_lt_iff.mpr h).symm
    · rw [h]
      exact (threeWay_eq_iff.mpr rfl).trans (threeWay_eq_iff.mpr rfl).symm
    · exact (threeWay_gt_iff.mpr (List.Lex.cons h)).trans (threeWay_gt_iff.mpr h).symm
  · rw [threeWay_gt_iff.mpr h, threeWay_gt_iff.mpr (List.Lex.rel h)]
    rfl

end Ratel.Lib
