import Mathlib.Data.List.TakeWhile
import Mathlib.Order.Basic

/- Binary search for the first index at which a predicate holds, as `sort.Search` computes
   it, and what it comes to on a list that the predicate splits in two. -/
namespace Ratel.Lib

open List

section
variable (f : Nat → Bool)

/-- The loop of the search between two bounds. Every round brings them closer. -/
def searchLoop : Nat → Nat → Nat → Nat
  | 0, i, _ => i
  | fuel + 1, i, j =>
    if i < j then
      let h := (i + j) / 2
      if f h then searchLoop fuel i h else searchLoop fuel (h + 1) j
    else i

/-- The first index below `n` at which `f` holds, or `n`. -/
def search (n : Nat) : Nat := searchLoop f n 0 n

variable {f} {n : Nat}

theorem searchLoop_spec (hmono : ∀ a b, a ≤ b → f a = true → f b = true) :
    ∀ (fuel i j : Nat), j - i ≤ fuel → i ≤ j → (∀ a < i, f a = false) → (∀ a, j ≤ a → a < n → f a = true) →
      i ≤ searchLoop f fuel i j ∧ searchLoop f fuel i j ≤ j ∧ (∀ a < searchLoop f fuel i j, f a = false) ∧
        ∀ a, searchLoop f fuel i j ≤ a → a < n → f a = true
  | 0, i, j, hfuel, hij, hbelow, habove => by
    have heq : i = j := by omega
    exact ⟨le_rfl, hij, hbelow, fun a ha => habove a (heq ▸ ha)⟩
  | fuel + 1, i, j, hfuel, hij, hbelow, habove => by
    rw [searchLoop]
    by_cases hlt : i < j
    · simp only [hlt, if_true]
      by_cases hf : f ((i + j) / 2) = true
      · rw [if_pos hf]
        obtain ⟨hi, hj, h⟩ := searchLoop_spec hmono fuel i ((i + j) / 2) (by omega) (by omega) hbelow
          fun a ha _ => hmono _ a ha hf
        exact ⟨hi, by omega, h⟩
      rw [if_neg hf]
      have hbelow' : ∀ a < (i + j) / 2 + 1, f a = false := by
        intro a ha
        by_contra hne
        exact hf (hmono a _ (by omega) (by simpa using hne))
      obtain ⟨hi, hj, h⟩ := searchLoop_spec hmono fuel ((i + j) / 2 + 1) j (by omega) (by omega) hbelow' habove
      exact ⟨by omega, hj, h⟩
    · rw [if_neg hlt]
      have heq : i = j := by omega
      exact ⟨le_rfl, hij, hbelow, fun a ha => habove a (heq ▸ ha)⟩

theorem search_spec (hmono : ∀ a b, a ≤ b → f a = true → f b = true) :
    search f n ≤ n ∧ (∀ a < search f n, f a = false) ∧ ∀ a, search f n ≤ a → a < n → f a = true := by
  obtain ⟨_, hle, hbelow, habove⟩ := searchLoop_spec (n := n) hmono n 0 n (by omega) (by omega)
    (fun a ha => absurd ha (Nat.not_lt_zero a)) fun a ha hn => absurd hn (by omega)
  exact ⟨hle, hbelow, habove⟩

end

section
variable {α : Type} (p : α → Bool)

def searchIn (l : List α) : Nat := search (fun i => (l[i]?).all p) l.length

variable {p}

/-- On a list whose elements meet the predicate from some point on, what comes before the
    index found are the elements that do not. -/
theorem mem_take_searchIn {l : List α} (h : l.Pairwise fun a b => p a = true → p b = true) {a : α} :
    a ∈ l.take (searchIn p l) ↔ a ∈ l ∧ p a = false := by
  have hmono : ∀ a b : Nat, a ≤ b → (l[a]?).all p = true → (l[b]?).all p = true := by
    intro a b hab ha
    by_cases hb : b < l.length
    · have ha' : a < l.length := by omega
      simp only [getElem?_eq_getElem hb, getElem?_eq_getElem ha'] at ha ⊢
      by_cases heq : a = b
      · subst heq
        exact ha
      · exact pairwise_iff_getElem.mp h a b ha' hb (by omega) ha
    · simp [getElem?_eq_none (not_lt.mp hb)]
  obtain ⟨hle, hbelow, habove⟩ : searchIn p l ≤ l.length ∧ (∀ a < searchIn p l, (l[a]?).all p = false) ∧
      ∀ a, searchIn p l ≤ a → a < l.length → (l[a]?).all p = true := search_spec hmono
  have htake : ∀ a ∈ l.take (searchIn p l), p a = false := by
    intro a ha
    obtain ⟨i, hi, rfl⟩ := getElem_of_mem ha
    rw [length_take] at hi
    have hnot := hbelow i (by omega)
    rw [getElem?_eq_getElem (by omega)] at hnot
    rw [getElem_take]
    exact hnot
  have hdrop : ∀ a ∈ l.drop (searchIn p l), p a = true := by
    intro a ha
    obtain ⟨i, hi, rfl⟩ := getElem_of_mem ha
    rw [length_drop] at hi
    have hmeets := habove (searchIn p l + i) (Nat.le_add_right _ _) (by omega)
    rw [getElem?_eq_getElem (by omega)] at hmeets
    rw [getElem_drop]
    exact hmeets
  constructor
  · exact fun ha => ⟨mem_of_mem_take ha, htake a ha⟩
  intro ⟨ha, hnot⟩
  rw [← take_append_drop (searchIn p l) l] at ha
  exact (mem_append.mp ha).resolve_right fun hd => absurd (hdrop a hd) (by simp [hnot])

end

end Ratel.Lib
