import Ratel.Lib.Lex

/- Digit strings in a radix, most significant digit first, as whole numbers and as fractions. A
   fraction has one string without trailing zeros, and such strings compare like their fractions
   (`MinDigits.frac_lt`). Of two fractions that do not start with a zero, each times a power of the
   radix, the one with the smaller power is smaller (`scaled_lt`). -/
namespace Ratel.Lib

open List

/-- The number that the digits stand for. -/
def ofDigits (B : Nat) (l : List Nat) : Nat := l.foldl (fun n x => n * B + x) 0

/-- The digits as those of a number below one. -/
def frac (B : Nat) : List Nat → ℚ
  | [] => 0
  | x :: xs => (x + frac B xs) / B

/-- At least one digit, and none too many at the end. -/
def MinDigits (B : Nat) : List Nat → Prop
  | [] => False
  | [x] => 0 < x ∧ x < B
  | x :: y :: xs => x < B ∧ MinDigits B (y :: xs)

variable {B : Nat}

theorem foldl_digits (n : Nat) : ∀ l : List Nat, l.foldl (fun n x => n * B + x) n = n * B ^ l.length + ofDigits B l
  | [] => by simp [ofDigits]
  | x :: l => by
    have hl := foldl_digits (n * B + x) l
    have hx := foldl_digits (0 * B + x) l
    simp only [foldl_cons, ofDigits, length_cons] at hl hx ⊢
    rw [hl, hx]
    ring

theorem ofDigits_cons (x : Nat) (l : List Nat) : ofDigits B (x :: l) = x * B ^ l.length + ofDigits B l := by
  rw [ofDigits, foldl_cons, foldl_digits]
  simp

theorem frac_mul_pow (hB : 0 < B) : ∀ l : List Nat, frac B l * (B : ℚ) ^ l.length = ofDigits B l
  | [] => by simp [frac, ofDigits]
  | x :: l => by
    rw [frac, ofDigits_cons, length_cons, pow_succ]
    push_cast
    rw [← frac_mul_pow hB l]
    field_simp

theorem frac_append_zero : ∀ l : List Nat, frac B (l ++ [0]) = frac B l
  | [] => by simp [frac]
  | x :: l => by simp [frac, frac_append_zero l]

/-- Trailing zeros do not change a fraction. -/
theorem frac_rdropWhile (l : List Nat) : frac B (l.rdropWhile (· = 0)) = frac B l := by
  induction l using List.reverseRecOn with
  | nil => rfl
  | append_singleton l x ih =>
    by_cases hx : x = 0
    · subst hx
      rw [rdropWhile_concat_pos _ _ _ (by simp), ih, frac_append_zero]
    · rw [rdropWhile_concat_neg _ _ _ (by simpa using hx)]

theorem minDigits_of_getLast : ∀ {l : List Nat} (hne : l ≠ []), (∀ x ∈ l, x < B) → l.getLast hne ≠ 0 → MinDigits B l
  | [x], _, hlt, hlast => ⟨Nat.pos_of_ne_zero hlast, hlt x (by simp)⟩
  | x :: y :: l, _, hlt, hlast =>
    ⟨hlt x (by simp), minDigits_of_getLast (by simp) (fun z hz => hlt z (mem_cons_of_mem x hz))
      (by rwa [getLast_cons (by simp)] at hlast)⟩

namespace MinDigits

theorem lt_base : ∀ {l : List Nat}, MinDigits B l → ∀ x ∈ l, x < B
  | [x], h, y, hy => by
    rw [mem_singleton.mp hy]
    exact h.2
  | x :: y :: l, h, z, hz => by
    rcases mem_cons.mp hz with heq | hz
    · exact heq ▸ h.1
    · exact h.2.lt_base z hz

variable {x : Nat} {l : List Nat}

theorem prepend (hx : x < B) (h : MinDigits B l) : MinDigits B (x :: l) := by
  cases l with
  | nil => exact h.elim
  | cons y l => exact ⟨hx, h⟩

theorem last_ne_zero : ∀ {l : List Nat}, MinDigits B l → l.getLast? ≠ some 0
  | [x], h => by
    have := h.1
    simp only [getLast?_singleton, ne_eq, Option.some.injEq]
    omega
  | x :: y :: l, h => by
    exact h.2.last_ne_zero

theorem pos_base (h : MinDigits B l) : 0 < B := by
  cases l with
  | nil => exact h.elim
  | cons x l => exact Nat.zero_lt_of_lt (h.lt_base x mem_cons_self)

theorem frac_bounds : ∀ {l : List Nat}, MinDigits B l → 0 < frac B l ∧ frac B l < 1
  | [x], h => by
    have hx : (0 : ℚ) < x := by exact_mod_cast h.1
    have hxB : (x : ℚ) < B := by exact_mod_cast h.2
    have hB : (0 : ℚ) < B := hx.trans hxB
    simp only [frac, add_zero]
    exact ⟨div_pos hx hB, (div_lt_one hB).mpr hxB⟩
  | x :: y :: l, h => by
    have hB : (0 : ℚ) < B := by exact_mod_cast h.pos_base
    have hx : (x : ℚ) + 1 ≤ B := by exact_mod_cast h.1
    obtain ⟨hpos, hlt⟩ := h.2.frac_bounds
    exact ⟨div_pos (by linarith) hB, (div_lt_one hB).mpr (by linarith)⟩

/-- The fraction of what follows the first digit. -/
theorem frac_tail_bounds (h : MinDigits B (x :: l)) : 0 ≤ frac B l ∧ frac B l < 1 := by
  cases l with
  | nil => simp [frac]
  | cons y l => exact ⟨h.2.frac_bounds.1.le, h.2.frac_bounds.2⟩

theorem frac_lt_of_digit_lt {y : Nat} {r : List Nat} (hl : MinDigits B (x :: l)) (hr : MinDigits B (y :: r))
    (h : x < y) : frac B (x :: l) < frac B (y :: r) := by
  have hB : (0 : ℚ) < B := by exact_mod_cast hl.pos_base
  have hxy : (x : ℚ) + 1 ≤ y := by exact_mod_cast h
  have h1 := hl.frac_tail_bounds
  have h2 := hr.frac_tail_bounds
  exact div_lt_div_of_pos_right (by linarith) hB

/-- MinDigits strings in order have fractions in order. -/
theorem frac_lt : ∀ {l r : List Nat}, MinDigits B l → MinDigits B r → l < r → frac B l < frac B r
  | [], _, hl, _, _ => hl.elim
  | _ :: _, [], _, hr, _ => hr.elim
  | x :: l, y :: r, hl, hr, h => by
    have hB : (0 : ℚ) < B := by exact_mod_cast hl.pos_base
    rcases cons_lt_cons_iff.mp h with hlt | heq
    · exact hl.frac_lt_of_digit_lt hr hlt
    obtain ⟨rfl, hlt⟩ := heq
    refine div_lt_div_of_pos_right (add_lt_add_right ?_ _) hB
    match l, r, hl, hr, hlt with
    | [], _ :: _, _, hr, _ => exact hr.2.frac_bounds.1
    | _ :: _, _ :: _, hl, hr, hlt => exact hl.2.frac_lt hr.2 hlt

/-- A string that starts with a digit other than zero. -/
theorem inv_le_frac (h : MinDigits B (x :: l)) (hx : 0 < x) : (B : ℚ)⁻¹ ≤ frac B (x :: l) := by
  have hB : (0 : ℚ) < B := by exact_mod_cast h.pos_base
  have hx1 : (1 : ℚ) ≤ x := by exact_mod_cast hx
  have htail := h.frac_tail_bounds.1
  rw [inv_eq_one_div]
  exact div_le_div_of_nonneg_right (by linarith) hB.le

end MinDigits

/-- A number with a smaller exponent is smaller, whatever its digits. -/
theorem scaled_lt {l r : List Nat} {x : Nat} {e e' : ℤ} (hl : MinDigits B l) (hr : MinDigits B (x :: r)) (hx : 0 < x)
    (h : e < e') : frac B l * (B : ℚ) ^ e < frac B (x :: r) * (B : ℚ) ^ e' := by
  have hB : (1 : ℚ) ≤ B := by exact_mod_cast hl.pos_base
  have hB0 : (0 : ℚ) < B := by linarith
  calc frac B l * (B : ℚ) ^ e < 1 * (B : ℚ) ^ e := mul_lt_mul_of_pos_right hl.frac_bounds.2 (zpow_pos hB0 _)
    _ ≤ (B : ℚ) ^ (e' - 1) := by
        rw [one_mul]
        exact zpow_le_zpow_right₀ hB (by omega)
    _ = (B : ℚ)⁻¹ * (B : ℚ) ^ e' := by
        rw [zpow_sub_one₀ hB0.ne', mul_comm]
    _ ≤ frac B (x :: r) * (B : ℚ) ^ e' := mul_le_mul_of_nonneg_right (hr.inv_le_frac hx) (zpow_pos hB0 _).le

end Ratel.Lib
