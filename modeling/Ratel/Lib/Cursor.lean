import Mathlib.Order.Basic
import Mathlib.Data.List.MinMax

/- Cursors over a finite set of positions of a linear order, as a library: the least
   element of a list that satisfies a test, the greatest one, and what they say about
   the neighbours of a position. A cursor is at a position, before all of them or
   after all of them; stepping forward and back are inverse on the positions. -/
namespace Ratel.Lib

open List

variable {κ : Type} [LinearOrder κ]

/-- The least element of `l` that passes `test`. -/
def least (l : List κ) (test : κ → Bool) : Option κ := (l.filter test).min?

/-- The greatest element of `l` that passes `test`. -/
def greatest (l : List κ) (test : κ → Bool) : Option κ := (l.filter test).max?

variable {l : List κ} {test : κ → Bool} {q : κ}

theorem least_eq_some_iff :
    least l test = some q ↔ (q ∈ l ∧ test q) ∧ ∀ r ∈ l, test r → q ≤ r := by
  rw [least, min?_eq_some_iff]
  simp [mem_filter]

theorem least_eq_none_iff : least l test = none ↔ ∀ r ∈ l, test r = false := by
  rw [least, min?_eq_none_iff]
  simp

theorem greatest_eq_some_iff :
    greatest l test = some q ↔ (q ∈ l ∧ test q) ∧ ∀ r ∈ l, test r → r ≤ q := by
  rw [greatest, max?_eq_some_iff]
  simp [mem_filter]

theorem greatest_eq_none_iff :
    greatest l test = none ↔ ∀ r ∈ l, test r = false := by
  rw [greatest, max?_eq_none_iff]
  simp

/-! Both directions at once. -/

/-- Whether `b` is where `a` is, or further in a direction. -/
def Upto : Bool → κ → κ → Prop
  | false, a, b => a ≤ b
  | true, a, b => b ≤ a

/-- Whether `b` is further than `a` in a direction. -/
def Ahead : Bool → κ → κ → Prop
  | false, a, b => a < b
  | true, a, b => b < a

/-- The first element of `l` in a direction that passes `test`. -/
def first : Bool → List κ → (κ → Bool) → Option κ
  | false => least
  | true => greatest

variable {reverse : Bool} {a b c : κ}

instance : ∀ reverse (a b : κ), Decidable (Upto reverse a b)
  | false, a, b => inferInstanceAs (Decidable (a ≤ b))
  | true, a, b => inferInstanceAs (Decidable (b ≤ a))

instance : ∀ reverse (a b : κ), Decidable (Ahead reverse a b)
  | false, a, b => inferInstanceAs (Decidable (a < b))
  | true, a, b => inferInstanceAs (Decidable (b < a))

theorem Upto.refl (reverse : Bool) (a : κ) : Upto reverse a a := by
  cases reverse <;> exact le_refl a

theorem Ahead.upto (h : Ahead reverse a b) : Upto reverse a b := by
  cases reverse <;> exact le_of_lt h

theorem Upto.ahead (h : Upto reverse a b) (hne : b ≠ a) : Ahead reverse a b := by
  cases reverse with
  | false => exact lt_of_le_of_ne h hne.symm
  | true => exact lt_of_le_of_ne h hne

theorem Ahead.trans_upto (h : Ahead reverse a b) (h' : Upto reverse b c) : Ahead reverse a c := by
  cases reverse with
  | false => exact lt_of_lt_of_le h h'
  | true => exact lt_of_le_of_lt h' h

theorem not_ahead_self (reverse : Bool) (a : κ) : ¬ Ahead reverse a a := by
  cases reverse <;> exact lt_irrefl a

theorem first_eq_some_iff : first reverse l test = some q ↔ (q ∈ l ∧ test q) ∧ ∀ r ∈ l, test r → Upto reverse q r := by
  cases reverse with
  | false => exact least_eq_some_iff
  | true => exact greatest_eq_some_iff

theorem first_eq_none_iff : first reverse l test = none ↔ ∀ r ∈ l, test r = false := by
  cases reverse with
  | false => exact least_eq_none_iff
  | true => exact greatest_eq_none_iff

/-- Lists that a strict order sorts are determined by their elements. -/
theorem eq_of_pairwise {α : Type} {r : α → α → Prop} (hasymm : ∀ a b, r a b → ¬ r b a) {l m : List α}
    (hl : l.Pairwise r) (hm : m.Pairwise r) (h : ∀ a, a ∈ l ↔ a ∈ m) : l = m := by
  have hne : ∀ {a b : α}, r a b → a ≠ b := fun hab heq => hasymm _ _ hab (heq ▸ hab)
  refine List.Perm.eq_of_pairwise (fun a b _ _ hab hba => absurd hba (hasymm a b hab)) hl hm ?_
  exact (perm_ext_iff_of_nodup (hl.imp hne) (hm.imp hne)).mpr h

/-- In a list with descending ranks, the first element at or below a bound is the highest. -/
theorem find?_descending {α : Type} (rank : α → κ) : ∀ {l : List α}, l.Pairwise (fun a b => rank b < rank a) →
    ∀ {bound : κ} {a : α}, l.find? (fun a => decide (rank a ≤ bound)) = some a ↔
      (a ∈ l ∧ rank a ≤ bound) ∧ ∀ b ∈ l, rank b ≤ bound → rank b ≤ rank a
  | [], _, _, _ => by simp
  | c :: l, h, bound, a => by
    obtain ⟨hc, hl⟩ := pairwise_cons.mp h
    by_cases hle : rank c ≤ bound
    · rw [find?_cons_of_pos (by simpa using hle)]
      constructor
      · rintro ⟨⟩
        refine ⟨⟨mem_cons_self, hle⟩, fun b hb _ => ?_⟩
        rcases mem_cons.mp hb with rfl | hb
        · exact le_refl _
        · exact (hc b hb).le
      · rintro ⟨⟨ha, _⟩, hmax⟩
        rcases mem_cons.mp ha with rfl | ha
        · rfl
        · exact absurd (hmax c mem_cons_self hle) (not_le.mpr (hc a ha))
    rw [find?_cons_of_neg (by simpa using hle), find?_descending rank hl]
    constructor
    · rintro ⟨⟨ha, hba⟩, hmax⟩
      refine ⟨⟨mem_cons_of_mem _ ha, hba⟩, fun b hb hbb => ?_⟩
      rcases mem_cons.mp hb with rfl | hb
      · exact absurd hbb hle
      · exact hmax b hb hbb
    · rintro ⟨⟨ha, hba⟩, hmax⟩
      rcases mem_cons.mp ha with rfl | ha
      · exact absurd hba hle
      · exact ⟨⟨ha, hba⟩, (forall_mem_cons.mp hmax).2⟩

omit [LinearOrder κ] in
/-- Dropping an element from a test makes it pass less often. -/
theorem countP_lt_of_dropped {P Q : κ → Bool} : ∀ {l : List κ}, q ∈ l → (∀ r, Q r → P r) → P q →
    Q q = false → l.countP Q < l.countP P
  | [], hq, _, _, _ => absurd hq not_mem_nil
  | a :: l, hq, hsub, hP, hQ => by
    rw [countP_cons, countP_cons]
    have hle : l.countP Q ≤ l.countP P := countP_mono_left fun r _ => hsub r
    rcases mem_cons.mp hq with rfl | hq
    · simp only [hP, hQ, Bool.false_eq_true, if_true, if_false]
      omega
    have hlt := countP_lt_of_dropped hq hsub hP hQ
    by_cases ha : Q a
    · simp only [ha, hsub a ha, if_true]
      omega
    · simp only [ha, Bool.false_eq_true, if_false]
      omega

/-- A cursor over the positions of a list. -/
inductive Cursor (κ : Type)
  | before
  | on (p : κ)
  | after
deriving DecidableEq, Repr

namespace Cursor

/-- The position a forward move finds, or the end. -/
def orAfter : Option κ → Cursor κ
  | some p => on p
  | none => after

/-- The position a backward move finds, or the start. -/
def orBefore : Option κ → Cursor κ
  | some p => on p
  | none => before

/-- The position a move finds, or the end in its direction. -/
def found : Bool → Option κ → Cursor κ
  | false => orAfter
  | true => orBefore

/-- Step to the next position of `l`. -/
def next (l : List κ) : Cursor κ → Cursor κ
  | before => orAfter (least l fun _ => true)
  | on p => orAfter (least l fun q => decide (p < q))
  | after => after

/-- Step to the previous position of `l`. -/
def prev (l : List κ) : Cursor κ → Cursor κ
  | before => before
  | on p => orBefore (greatest l fun q => decide (q < p))
  | after => orBefore (greatest l fun _ => true)

theorem next_prev {l : List κ} {p : κ} (hp : p ∈ l) : next l (prev l (on p)) = on p := by
  rw [prev]
  cases hq : greatest l fun q => decide (q < p) with
  | none =>
    rw [greatest_eq_none_iff] at hq
    have hleast : least l (fun _ => true) = some p := by
      rw [least_eq_some_iff]
      refine ⟨⟨hp, rfl⟩, fun r hr _ => ?_⟩
      simpa using hq r hr
    simp [orBefore, next, hleast, orAfter]
  | some q =>
    rw [greatest_eq_some_iff] at hq
    obtain ⟨⟨_, hqp⟩, hmax⟩ := hq
    have hleast : (least l fun r => decide (q < r)) = some p := by
      rw [least_eq_some_iff]
      refine ⟨⟨hp, by simpa using hqp⟩, fun r hr hqr => ?_⟩
      by_contra hlt
      have hrq := hmax r hr (by simpa using hlt)
      simp only [decide_eq_true_eq] at hqr
      exact absurd hqr (not_lt.mpr hrq)
    simp [orBefore, next, hleast, orAfter]

end Cursor

end Ratel.Lib
