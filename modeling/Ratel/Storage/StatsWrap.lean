import Mathlib.Data.BitVec
import Mathlib.Tactic.Ring
import Ratel.Storage.Stats

/- The laws of `Add`, `Subtract` and `AgeTo`, over any commutative ring of counters: the
   64-bit integers of the code wrap around, and those of the exact model do not. Aging
   multiplies two counters by a difference of whole seconds; such differences telescope, so a
   record may be moved to a time in any number of steps, and sums may be taken at any time
   that both records have been moved to. -/
namespace Ratel.Storage

namespace Counters

variable {R : Type} [CommRing R]

/-! Aging. -/

theorem ageTo_ageTo (ms : Counters R) (t₁ t₂ : Int) : (ms.ageTo t₁).ageTo t₂ = ms.ageTo t₂ := by
  simp only [Counters.ext_iff, ageTo, gcBytes, total, Int.cast_sub, true_and, and_true]
  constructor <;> ring

theorem ageTo_self (ms : Counters R) : ms.ageTo ms.lastUpdateNanos = ms := by simp [ageTo]

theorem forward_eq_ageTo (ms : Counters R) (t : Int) : ms.forward t = ms.ageTo (max ms.lastUpdateNanos t) := by
  unfold forward
  split
  · rename_i hle
    rw [max_eq_left hle, ageTo_self]
  · rename_i hlt
    rw [max_eq_right (not_le.mp hlt).le]

theorem zero_ageTo (t : Int) : (zero : Counters R).ageTo t = { zero with lastUpdateNanos := t } := by
  simp [ageTo, gcBytes, total, zero]

/-- The operations on counters that aging may be exchanged with. -/
def Linear (op : R → R → R) : Prop := ∃ k : R, ∀ x y, op x y = x + k * y

theorem linear_add : Linear fun x y : R => x + y := ⟨1, fun x y => by rw [one_mul]⟩

theorem zip_ageTo {op : R → R → R} (hop : Linear op) {a b : Counters R} (h : a.lastUpdateNanos = b.lastUpdateNanos)
    (t : Int) : (zip op a b).ageTo t = zip op (a.ageTo t) (b.ageTo t) := by
  obtain ⟨k, hk⟩ := hop
  simp only [Counters.ext_iff, zip, ageTo, gcBytes, total, hk, h, true_and, and_true]
  constructor <;> ring

/-- Records are combined at the later of their times. -/
theorem combine_eq (op : R → R → R) (a b : Counters R) : combine op a b =
    zip op (a.ageTo (max a.lastUpdateNanos b.lastUpdateNanos)) (b.ageTo (max a.lastUpdateNanos b.lastUpdateNanos)) := by
  rw [combine, forward_eq_ageTo, forward_eq_ageTo]
  have htime : ∀ t, (a.ageTo t).lastUpdateNanos = t := fun _ => rfl
  rw [htime, max_eq_right (le_max_right _ _)]

theorem combine_time (op : R → R → R) (a b : Counters R) :
    (combine op a b).lastUpdateNanos = max a.lastUpdateNanos b.lastUpdateNanos := by
  rw [combine_eq]
  rfl

/-- At any other time too, the combined record is that of the two at that time. -/
theorem combine_ageTo {op : R → R → R} (hop : Linear op) (a b : Counters R) (t : Int) :
    (combine op a b).ageTo t = zip op (a.ageTo t) (b.ageTo t) := by
  rw [combine_eq, zip_ageTo hop, ageTo_ageTo, ageTo_ageTo]
  rfl

/-! The laws, first for records at one time. -/

section
variable (a b c : Counters R)

theorem zip_comm (h : a.lastUpdateNanos = b.lastUpdateNanos) : zip (· + ·) a b = zip (· + ·) b a := by
  ext <;> first | exact h | exact add_comm _ _

theorem zip_assoc : zip (· + ·) (zip (· + ·) a b) c = zip (· + ·) a (zip (· + ·) b c) := by
  ext <;> first | rfl | exact add_assoc _ _ _

theorem zip_zero (t : Int) : zip (· + ·) a { zero with lastUpdateNanos := t } = a := by
  ext <;> first | rfl | exact add_zero _

theorem zip_cancel : zip (· - ·) (zip (· + ·) a b) b = a := by
  ext <;> first | rfl | exact add_sub_cancel_right _ _

theorem add_swap : a.add b = b.add a := by
  rw [add, add, combine_eq, combine_eq, max_comm]
  exact zip_comm _ _ rfl

theorem add_regroup : (a.add b).add c = a.add (b.add c) := by
  simp only [add]
  rw [combine_eq _ (combine _ a b), combine_eq _ a (combine _ b c), combine_time, combine_time, combine_ageTo linear_add,
    combine_ageTo linear_add, max_assoc, zip_assoc]

theorem add_zero_stats (h : 0 ≤ a.lastUpdateNanos) : a.add zero = a := by
  have htime : max a.lastUpdateNanos (zero : Counters R).lastUpdateNanos = a.lastUpdateNanos := max_eq_left h
  rw [add, combine_eq, htime, ageTo_self, zero_ageTo, zip_zero]

theorem subtract_add : (a.add b).subtract b = a.ageTo (max a.lastUpdateNanos b.lastUpdateNanos) := by
  rw [subtract, add, combine_eq, combine_time, combine_ageTo linear_add, max_assoc, max_self, zip_cancel]

theorem add_ageTo (t : Int) : (a.add b).ageTo t = (a.ageTo t).add (b.ageTo t) := by
  have htime : max (a.ageTo t).lastUpdateNanos (b.ageTo t).lastUpdateNanos = t := max_self t
  rw [add, add, combine_ageTo linear_add, combine_eq, htime, ageTo_ageTo, ageTo_ageTo]

end

/-- The laws in words of 64 bits. Only the identity needs a time that is not before that of
    the zero record. -/
theorem wrapping_laws (a b c : Counters (BitVec 64)) (ha : 0 ≤ a.lastUpdateNanos) (t₁ t₂ : Int) :
    a.add b = b.add a ∧ (a.add b).add c = a.add (b.add c) ∧ (a.add zero = a ∧ zero.add a = a) ∧
      (a.add b).subtract b = a.ageTo (max a.lastUpdateNanos b.lastUpdateNanos) ∧
      (a.add b).ageTo t₁ = (a.ageTo t₁).add (b.ageTo t₁) ∧ (a.ageTo t₁).ageTo t₂ = a.ageTo t₂ :=
  ⟨add_swap a b, add_regroup a b c, ⟨add_zero_stats a ha, (add_swap _ _).trans (add_zero_stats a ha)⟩, subtract_add a b,
    add_ageTo a b t₁, ageTo_ageTo a t₁ t₂⟩

/-- The largest count of live bytes and a record of a second later: the sum overflows to the
    least count, and the subtraction comes back from there. -/
theorem wrapping_laws_overflow :
    let a : Counters (BitVec 64) := { zero with liveBytes := .intMax 64, lastUpdateNanos := 999999999 }
    let b : Counters (BitVec 64) := { zero with liveBytes := 1, lastUpdateNanos := 1000000000 }
    a.liveBytes.toInt = 2 ^ 63 - 1 ∧ (a.add b).liveBytes.toInt = -2 ^ 63 ∧ (a.add b).subtract b = a.ageTo 1000000000 :=
  ⟨by decide, by decide, (wrapping_laws _ _ zero (by decide) 0 0).2.2.2.1⟩

end Counters

end Ratel.Storage
