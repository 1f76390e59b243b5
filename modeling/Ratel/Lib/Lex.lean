import Mathlib

/- Words over a linearly ordered alphabet, compared lexicographically, and codes
   into them. `Parts x y` says that `x` and `y` differ at a position where both
   have a letter, `x`'s being the smaller: the part of `x < y` that survives
   whatever is appended to either word. A code all of whose words part
   (`OrderedCode`) is therefore prefix-free and order-preserving, and so is the
   code of sequences it generates, except that a sequence and its extension do
   not part; what a key format puts after the last symbol decides those. -/
namespace Ratel.Lib

open List

variable {α : Type*} [LinearOrder α] {x y z : List α}

/-- `x` and `y` differ at a position where both have a letter, `x`'s the smaller. -/
def Parts (x y : List α) : Prop :=
  ∃ p a b s t, x = p ++ a :: s ∧ y = p ++ b :: t ∧ a < b

namespace Parts

theorem of_lt {a b : α} (h : a < b) (s t : List α) : Parts (a :: s) (b :: t) :=
  ⟨[], a, b, s, t, rfl, rfl, h⟩

/-- What follows the parting position does not matter. -/
theorem append (h : Parts x y) (s t : List α) : Parts (x ++ s) (y ++ t) := by
  obtain ⟨p, a, b, u, v, rfl, rfl, hab⟩ := h
  exact ⟨p, a, b, u ++ s, v ++ t, by simp, by simp, hab⟩

theorem append_left (h : Parts x y) (p : List α) : Parts (p ++ x) (p ++ y) := by
  obtain ⟨q, a, b, u, v, rfl, rfl, hab⟩ := h
  exact ⟨p ++ q, a, b, u, v, by simp, by simp, hab⟩

theorem cons (h : Parts x y) (c : α) : Parts (c :: x) (c :: y) := h.append_left [c]

theorem lt (h : Parts x y) : x < y := by
  obtain ⟨p, a, b, s, t, rfl, rfl, hab⟩ := h
  induction p with
  | nil => exact List.Lex.rel hab
  | cons c p ih => exact List.Lex.cons ih

theorem not_prefix (h : Parts x y) : ¬ x <+: y := by
  obtain ⟨p, a, b, s, t, rfl, rfl, hab⟩ := h
  intro hp
  rw [prefix_append_right_inj, cons_prefix_cons] at hp
  exact absurd hp.1 (ne_of_lt hab)

theorem not_prefix' (h : Parts x y) : ¬ y <+: x := by
  obtain ⟨p, a, b, s, t, rfl, rfl, hab⟩ := h
  intro hp
  rw [prefix_append_right_inj, cons_prefix_cons] at hp
  exact absurd hp.1 (ne_of_gt hab)

theorem ne (h : Parts x y) : x ≠ y := ne_of_lt h.lt

end Parts

/-- A smaller word is a proper prefix of the larger or parts from it. -/
theorem prefix_or_parts_of_lt : ∀ {x y : List α}, x < y → (∃ a s, y = x ++ a :: s) ∨ Parts x y
  | [], [], h => absurd h (lt_irrefl _)
  | [], b :: t, _ => .inl ⟨b, t, rfl⟩
  | a :: s, [], h => absurd h (by simp)
  | a :: s, b :: t, h => by
    rcases cons_lt_cons_iff.mp h with hab | ⟨rfl, hst⟩
    · exact .inr (Parts.of_lt hab s t)
    rcases prefix_or_parts_of_lt hst with ⟨c, u, rfl⟩ | hp
    · exact .inl ⟨c, u, rfl⟩
    · exact .inr (hp.cons a)

theorem prefix_le (h : x <+: y) : x ≤ y := by
  obtain ⟨t, rfl⟩ := h
  cases t with
  | nil => simp
  | cons a t =>
    apply le_of_lt
    induction x with
    | nil => exact nil_lt_cons a t
    | cons c x ih => exact List.Lex.cons ih

theorem lt_append_cons (x : List α) (a : α) (s : List α) : x < x ++ a :: s :=
  lt_of_le_of_ne (prefix_le ⟨a :: s, rfl⟩) (by simp)

theorem cons_le_cons {a b : α} {s t : List α} : a :: s ≤ b :: t ↔ a < b ∨ a = b ∧ s ≤ t := by
  rw [← not_lt, ← not_lt, cons_lt_cons_iff]
  constructor
  · intro h
    push Not at h
    rcases lt_or_eq_of_le h.1 with hab | rfl
    · exact .inl hab
    · exact .inr ⟨rfl, not_lt.mpr (h.2 rfl)⟩
  rintro (hab | ⟨rfl, hst⟩) (hba | ⟨hba, hts⟩)
  · exact lt_asymm hab hba
  · exact absurd (hba ▸ hab) (lt_irrefl _)
  · exact lt_irrefl _ hba
  · exact hst hts

/-! Codes. -/

/-- Words of smaller symbols part from words of larger ones. -/
def OrderedCode {ι : Type*} [LT ι] (enc : ι → List α) : Prop :=
  ∀ i j, i < j → Parts (enc i) (enc j)

section Code
variable {ι : Type*} [LinearOrder ι] {enc : ι → List α} (hc : OrderedCode enc)
include hc

theorem OrderedCode.lt_iff {i j : ι} {s t : List α} (hne : i ≠ j) :
    enc i ++ s < enc j ++ t ↔ i < j := by
  refine ⟨fun h => ?_, fun h => ((hc i j h).append s t).lt⟩
  by_contra hn
  have hji : j < i := lt_of_le_of_ne (not_lt.mp hn) (Ne.symm hne)
  exact lt_asymm h ((hc j i hji).append t s).lt

/-- No word continues another: equal concatenations have equal first symbols. -/
theorem OrderedCode.append_inj {i j : ι} {s t : List α} (h : enc i ++ s = enc j ++ t) :
    i = j ∧ s = t := by
  rcases lt_trichotomy i j with hij | rfl | hij
  · exact absurd h ((hc i j hij).append s t).ne
  · exact ⟨rfl, append_cancel_left h⟩
  · exact absurd h.symm ((hc j i hij).append t s).ne

/-- Sequences that part are encoded by words that part. -/
theorem Parts.flatMap {p q : List ι} (h : Parts p q) : Parts (p.flatMap enc) (q.flatMap enc) := by
  obtain ⟨c, i, j, u, v, rfl, rfl, hij⟩ := h
  simp only [flatMap_append]
  exact ((hc i j hij).append _ _).append_left _

/-- If the encoding of `p` starts that of `q` followed by `r`, then `p` starts
    `q`, or `p` runs past `q` and what is left of it starts `r`. -/
theorem OrderedCode.flatMap_prefix : ∀ {p q : List ι} {r : List α}, p.flatMap enc <+: q.flatMap enc ++ r →
    p <+: q ∨ ∃ i u, p = q ++ i :: u ∧ (i :: u).flatMap enc <+: r
  | [], _, _, _ => .inl nil_prefix
  | i :: u, [], r, h => .inr ⟨i, u, rfl, by simpa using h⟩
  | i :: u, j :: v, r, h => by
    simp only [flatMap_cons, append_assoc] at h
    obtain ⟨t, ht⟩ := h
    rw [append_assoc] at ht
    obtain ⟨rfl, hrest⟩ := hc.append_inj ht
    rcases flatMap_prefix ⟨t, hrest⟩ with hp | ⟨k, w, rfl, hk⟩
    · exact .inl (cons_prefix_cons.mpr ⟨rfl, hp⟩)
    · exact .inr ⟨k, w, rfl, hk⟩

end Code

/-! Bytes, and fixed-width big-endian numerals over them. -/

theorem uint8_lt_iff {a b : UInt8} : a < b ↔ a.toNat < b.toNat := UInt8.lt_iff_toNat_lt

theorem uint8_le_iff {a b : UInt8} : a ≤ b ↔ a.toNat ≤ b.toNat := UInt8.le_iff_toNat_le

instance uint8Order : LinearOrder UInt8 where
  le_refl a := uint8_le_iff.mpr le_rfl
  le_trans a b c h k := uint8_le_iff.mpr ((uint8_le_iff.mp h).trans (uint8_le_iff.mp k))
  lt_iff_le_not_ge a b := by rw [uint8_lt_iff, uint8_le_iff, uint8_le_iff]; omega
  le_antisymm a b h k := UInt8.toNat_inj.mp (le_antisymm (uint8_le_iff.mp h) (uint8_le_iff.mp k))
  le_total a b := by rw [uint8_le_iff, uint8_le_iff]; exact le_total _ _
  toDecidableLE := inferInstance
  toDecidableLT := inferInstance
  toDecidableEq := inferInstance

theorem lt_append_zero_iff {a b : List UInt8} : a < b ++ [0] ↔ a ≤ b := by
  refine ⟨fun h => ?_, fun h => lt_of_le_of_lt h (lt_append_cons b 0 [])⟩
  by_contra hk
  rcases prefix_or_parts_of_lt (not_le.mp hk) with ⟨c, s, rfl⟩ | hp
  · refine absurd h (not_lt.mpr ?_)
    rcases (UInt8.zero_le : 0 ≤ c).eq_or_lt with rfl | h0
    · exact prefix_le ⟨s, by simp⟩
    · exact ((Parts.of_lt h0 [] s).append_left b).lt.le
  · have := (hp.append [0] []).lt
    rw [append_nil] at this
    exact absurd h (not_lt.mpr this.le)

/-- The `n` low base-256 digits of `v`, most significant first. -/
def bigEndian : Nat → Nat → List UInt8
  | 0, _ => []
  | n + 1, v => bigEndian n (v / 256) ++ [UInt8.ofNat v]

def fromBigEndian (b : List UInt8) : Nat := b.foldl (fun s d => s * 256 + d.toNat) 0

@[simp] theorem bigEndian_length : ∀ n v, (bigEndian n v).length = n
  | 0, _ => rfl
  | n + 1, v => by rw [bigEndian, length_append, bigEndian_length n]; rfl

theorem fromBigEndian_bigEndian : ∀ {n v : Nat}, v < 256 ^ n → fromBigEndian (bigEndian n v) = v
  | 0, v, h => by
    have hv : v = 0 := by simpa using h
    rw [hv]; rfl
  | n + 1, v, h => by
    have hq : v / 256 < 256 ^ n := by omega
    have ih : (bigEndian n (v / 256)).foldl (fun s d => s * 256 + d.toNat) 0 = v / 256 :=
      fromBigEndian_bigEndian hq
    rw [fromBigEndian, bigEndian, foldl_append, ih, foldl_cons, foldl_nil, UInt8.toNat_ofNat']
    omega

/-- Numerals of one width are ordered as their numbers are. -/
theorem bigEndian_parts : ∀ {n v w : Nat}, v < w → w < 256 ^ n → Parts (bigEndian n v) (bigEndian n w)
  | 0, v, w, h, hw => by omega
  | n + 1, v, w, h, hw => by
    have hq : w / 256 < 256 ^ n := by omega
    rw [bigEndian, bigEndian]
    rcases Nat.lt_or_ge (v / 256) (w / 256) with hlt | hge
    · exact (bigEndian_parts hlt hq).append _ _
    -- equal leading digits: the last digit decides
    have heq : v / 256 = w / 256 := by omega
    rw [heq]
    apply Parts.append_left
    apply Parts.of_lt
    rw [uint8_lt_iff, UInt8.toNat_ofNat', UInt8.toNat_ofNat']
    omega

end Ratel.Lib
