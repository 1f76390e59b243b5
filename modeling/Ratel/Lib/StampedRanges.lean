import Mathlib
import Ratel.Lib.Ranges

/- Lists of ranges with a value for all their keys: a piecewise constant partial function,
   kept as its pieces. `stamps` collects the values the pieces have for a key, each as often as
   it occurs, so that one equation between multisets says both that two lists of pieces give
   the key the same value and that they give it equally many. It adds up over lists and does
   not see their order. `InOrder` is a list of non-empty pieces in the order of their keys:
   it has at most one value for a key (`InOrder.card_stamps`), and a piece that keeps that so
   can be put at its place (`InOrder.insertByStart`). -/
namespace Ratel.Lib

open List hiding Disjoint
open Multiset hiding mem_cons

/-- A range of keys with one value for all of them. -/
structure Stamped (α τ : Type) where
  keys : Range α
  ts : τ
deriving DecidableEq, Repr

section

variable {α τ : Type} [LinearOrder α]

instance (r : Range α) (k : α) : Decidable (k ∈ r.keys) := inferInstanceAs (Decidable (_ ∧ _))

/-- The values a list of pieces has for a key. -/
def stamps : List (Stamped α τ) → α → Multiset τ
  | [], _ => 0
  | e :: es, k => (if k ∈ e.keys.keys then {e.ts} else 0) + stamps es k

/-- Non-empty pieces, one after the other. -/
structure InOrder (es : List (Stamped α τ)) : Prop where
  valid : ∀ e ∈ es, e.keys.Valid
  apart : es.Pairwise fun a b => a.keys.stop ≤ b.keys.start

/-- Puts a piece behind those that do not start after it. -/
def insertByStart (e : Stamped α τ) : List (Stamped α τ) → List (Stamped α τ)
  | [] => [e]
  | x :: xs => if x.keys.start ≤ e.keys.start then x :: insertByStart e xs else e :: x :: xs

variable {es old : List (Stamped α τ)} {e x : Stamped α τ} {k : α} {t : τ}

@[simp] theorem stamps_nil (k : α) : stamps ([] : List (Stamped α τ)) k = 0 := rfl

theorem stamps_cons (e : Stamped α τ) (es : List (Stamped α τ)) (k : α) :
    stamps (e :: es) k = stamps [e] k + stamps es k := by
  simp [stamps]

theorem stamps_append (es old : List (Stamped α τ)) (k : α) :
    stamps (es ++ old) k = stamps es k + stamps old k := by
  induction es with
  | nil => simp
  | cons e es ih =>
    rw [cons_append, stamps_cons, ih, stamps_cons e es, add_assoc]

theorem stamps_perm (h : es.Perm old) (k : α) : stamps es k = stamps old k := by
  induction h with
  | nil => rfl
  | @cons e es old _ ih => rw [stamps_cons e es, stamps_cons e old, ih]
  | swap a b l =>
    exact add_left_comm _ _ _
  | trans _ _ ih₁ ih₂ => exact ih₁.trans ih₂

theorem stamps_of_mem (h : k ∈ e.keys.keys) : stamps [e] k = {e.ts} := by
  simp only [stamps, if_pos h, add_zero]

theorem stamps_of_not_mem (h : k ∉ e.keys.keys) : stamps [e] k = 0 := by
  simp only [stamps, if_neg h, add_zero]

/-- The value of a piece under a map. -/
theorem map_stamps {f : τ → τ} {p : Range α} {u : τ} (h : k ∈ p.keys → f t = u) :
    (stamps [⟨p, t⟩] k).map f = stamps [⟨p, u⟩] k := by
  by_cases hk : k ∈ p.keys
  · rw [stamps_of_mem (e := ⟨p, t⟩) hk, stamps_of_mem (e := ⟨p, u⟩) hk, Multiset.map_singleton, h hk]
  · rw [stamps_of_not_mem (e := ⟨p, t⟩) hk, stamps_of_not_mem (e := ⟨p, u⟩) hk, Multiset.map_zero]

theorem mem_stamps : t ∈ stamps es k ↔ ∃ e ∈ es, k ∈ e.keys.keys ∧ e.ts = t := by
  induction es with
  | nil => simp
  | cons e es ih =>
    rw [stamps_cons, mem_add, ih]
    by_cases hk : k ∈ e.keys.keys
    · rw [stamps_of_mem hk, Multiset.mem_singleton, eq_comm]
      simp only [mem_cons, exists_eq_or_imp, hk, true_and]
    · rw [stamps_of_not_mem hk]
      simp only [mem_cons, exists_eq_or_imp, hk, false_and, notMem_zero]

theorem stamps_eq_zero_iff : stamps es k = 0 ↔ ∀ e ∈ es, k ∉ e.keys.keys := by
  rw [eq_zero_iff_forall_notMem]
  constructor
  · intro h e he hk
    exact h e.ts (mem_stamps.mpr ⟨e, he, hk, rfl⟩)
  intro h t ht
  obtain ⟨e, he, hk, _⟩ := mem_stamps.mp ht
  exact h e he hk

/-- Pieces that give a key one value at most give it one only. -/
theorem stamps_eq_of_card {u : τ} (h : (stamps es k).card ≤ 1) (ht : t ∈ stamps es k) (hu : u ∈ stamps es k) :
    t = u := by
  have hone : (stamps es k).card = 1 := le_antisymm h (Multiset.card_pos_iff_exists_mem.mpr ⟨t, ht⟩)
  obtain ⟨v, hv⟩ := Multiset.card_eq_one.mp hone
  rw [hv, Multiset.mem_singleton] at ht hu
  rw [ht, hu]

theorem stamps_empty {a b : α} (h : b ≤ a) (t : τ) : stamps [⟨⟨a, b⟩, t⟩] k = 0 :=
  stamps_of_not_mem fun hk => absurd (lt_of_lt_of_le hk.2 h) (not_lt.mpr hk.1)

/-- Two pieces with one value, the second where the first stops, are one piece. -/
theorem stamps_join {a b c : α} (hab : a ≤ b) (hbc : b ≤ c) (t : τ) :
    stamps [⟨⟨a, b⟩, t⟩] k + stamps [⟨⟨b, c⟩, t⟩] k = stamps [⟨⟨a, c⟩, t⟩] k := by
  by_cases hk : k < b
  · have hright : k ∉ (⟨b, c⟩ : Range α).keys := fun h => absurd hk (not_lt.mpr h.1)
    rw [stamps_of_not_mem (e := ⟨⟨b, c⟩, t⟩) hright, add_zero]
    by_cases hak : a ≤ k
    · rw [stamps_of_mem (e := ⟨⟨a, b⟩, t⟩) ⟨hak, hk⟩, stamps_of_mem (e := ⟨⟨a, c⟩, t⟩) ⟨hak, lt_of_lt_of_le hk hbc⟩]
    · rw [stamps_of_not_mem (e := ⟨⟨a, b⟩, t⟩) fun h => hak h.1, stamps_of_not_mem (e := ⟨⟨a, c⟩, t⟩) fun h => hak h.1]
  have hleft : k ∉ (⟨a, b⟩ : Range α).keys := fun h => hk h.2
  rw [stamps_of_not_mem (e := ⟨⟨a, b⟩, t⟩) hleft, zero_add]
  have hbk : b ≤ k := not_lt.mp hk
  by_cases hkc : k < c
  · rw [stamps_of_mem (e := ⟨⟨b, c⟩, t⟩) ⟨hbk, hkc⟩, stamps_of_mem (e := ⟨⟨a, c⟩, t⟩) ⟨hab.trans hbk, hkc⟩]
  · rw [stamps_of_not_mem (e := ⟨⟨b, c⟩, t⟩) fun h => hkc h.2, stamps_of_not_mem (e := ⟨⟨a, c⟩, t⟩) fun h => hkc h.2]

/-- Pieces that share no key give none two values. -/
theorem card_stamps_of_disjoint : ∀ {es : List (Stamped α τ)},
    es.Pairwise (fun a b => Disjoint a.keys.keys b.keys.keys) → ∀ k, (stamps es k).card ≤ 1
  | [], _, _ => by simp
  | e :: es, h, k => by
    obtain ⟨he, hes⟩ := pairwise_cons.mp h
    rw [stamps_cons, card_add]
    by_cases hk : k ∈ e.keys.keys
    · have hrest : stamps es k = 0 := stamps_eq_zero_iff.mpr fun x hx => Set.disjoint_left.mp (he x hx) hk
      rw [stamps_of_mem hk, hrest, card_singleton, card_zero]
    · rw [stamps_of_not_mem hk, card_zero, zero_add]
      exact card_stamps_of_disjoint hes k

namespace InOrder

theorem nil : InOrder ([] : List (Stamped α τ)) := ⟨by simp, .nil⟩

theorem sublist (h : InOrder es) (hs : old.Sublist es) : InOrder old :=
  ⟨fun e he => h.valid e (hs.subset he), h.apart.sublist hs⟩

theorem of_cons (h : InOrder (e :: es)) : InOrder es := h.sublist (sublist_cons_self e es)

theorem head_le (h : InOrder (e :: es)) (hx : x ∈ es) : e.keys.stop ≤ x.keys.start :=
  rel_of_pairwise_cons h.apart hx

theorem stop_le {left right : List (Stamped α τ)} (h : InOrder es) (hs : es = left ++ right) (he : e ∈ left)
    (hx : x ∈ right) : e.keys.stop ≤ x.keys.start :=
  (pairwise_append.mp (hs ▸ h.apart)).2.2 e he x hx

theorem nodup (h : InOrder es) : es.Nodup := by
  refine h.apart.imp_of_mem ?_
  rintro a _ ha _ hab rfl
  exact not_lt.mpr hab (h.valid a ha)

theorem card_stamps (h : InOrder es) (k : α) : (stamps es k).card ≤ 1 :=
  card_stamps_of_disjoint (h.apart.imp fun hab => Set.disjoint_left.mpr fun _ ha hb =>
    not_lt.mpr hb.1 (lt_of_lt_of_le ha.2 hab)) k

/-- No two pieces start at the same key. -/
theorem eq_of_start (h : InOrder es) (he : e ∈ es) (hx : x ∈ es) (hs : e.keys.start = x.keys.start) :
    e = x := by
  refine inj_on_of_nodup_map (f := (·.keys.start)) (pairwise_map.mpr ?_) he hx hs
  refine h.apart.imp_of_mem fun {a b} ha _ hab => ?_
  exact ne_of_lt (lt_of_lt_of_le (h.valid a ha) hab)

end InOrder

theorem insertByStart_perm (e : Stamped α τ) (es : List (Stamped α τ)) :
    (insertByStart e es).Perm (e :: es) := by
  induction es with
  | nil => exact List.Perm.refl _
  | cons x xs ih =>
    unfold insertByStart
    split
    · exact (ih.cons x).trans (List.Perm.swap e x xs)
    · exact List.Perm.refl _

/-- Pieces that give no key two values do not overlap. -/
theorem apart_of_card (he : e.keys.Valid) (hv : x.keys.Valid) (hx : x ∈ es)
    (hone : ∀ k, (stamps (e :: es) k).card ≤ 1) : e.keys.stop ≤ x.keys.start ∨ x.keys.stop ≤ e.keys.start := by
  by_contra hboth
  rw [not_or, not_le, not_le] at hboth
  obtain ⟨hxe, hex⟩ := hboth
  obtain ⟨k, hke, hkx⟩ :=
    (Range.overlapsExclusive_iff_meet he hv).mp (Range.overlapsExclusive_iff.mpr ⟨hex, hxe⟩)
  have htwo := hone k
  have hpos : 0 < (stamps es k).card :=
    Multiset.card_pos_iff_exists_mem.mpr ⟨x.ts, mem_stamps.mpr ⟨x, hx, hkx, rfl⟩⟩
  rw [stamps_cons, card_add, stamps_of_mem hke, card_singleton] at htwo
  omega

namespace InOrder

theorem insertByStart (h : InOrder es) (he : e.keys.Valid)
    (hone : ∀ k, (stamps (e :: es) k).card ≤ 1) : InOrder (insertByStart e es) := by
  have hdisj : ∀ x ∈ es, e.keys.stop ≤ x.keys.start ∨ x.keys.stop ≤ e.keys.start :=
    fun x hx => apart_of_card he (h.valid x hx) hx hone
  clear hone
  have hmem : ∀ y, y ∈ Lib.insertByStart e es ↔ y = e ∨ y ∈ es := fun y =>
    (insertByStart_perm e es).mem_iff.trans mem_cons
  refine ⟨fun y hy => ?_, ?_⟩
  · rcases (hmem y).mp hy with heq | hy
    · rw [heq]; exact he
    · exact h.valid y hy
  clear hmem
  induction es with
  | nil => exact pairwise_singleton _ _
  | cons x xs ih =>
    have hx : x.keys.Valid := h.valid x (by simp)
    unfold Lib.insertByStart
    split
    case isTrue hle =>
      refine pairwise_cons.mpr ⟨fun y hy => ?_, ih h.of_cons fun y hy => hdisj y (by simp [hy])⟩
      rcases mem_cons.mp ((insertByStart_perm e xs).mem_iff.mp hy) with heq | hy
      · rw [heq]
        exact (hdisj x (by simp)).resolve_left (not_le.mpr (lt_of_le_of_lt hle he))
      · exact h.head_le hy
    case isFalse hlt =>
      have hex : e.keys.stop ≤ x.keys.start :=
        (hdisj x (by simp)).resolve_right fun hle => hlt (hx.le.trans hle)
      exact pairwise_cons.mpr ⟨forall_mem_cons.mpr ⟨hex, fun y hy => hex.trans (hx.le.trans (h.head_le hy))⟩, h.apart⟩

/-- The pieces that overlap a range stand together. -/
theorem split (h : InOrder es) {r : Range α} :
    ∃ left right, es = left ++ es.filter (fun e => e.keys.overlapsExclusive r) ++ right ∧
      (∀ e ∈ left, e.keys.stop ≤ r.start) ∧ ∀ e ∈ right, r.stop ≤ e.keys.start := by
  induction es with
  | nil => exact ⟨[], [], rfl, by simp, by simp⟩
  | cons e es ih =>
    obtain ⟨left, right, heq, hleft, hright⟩ := ih h.of_cons
    by_cases hstop : e.keys.stop ≤ r.start
    · -- the piece lies before the range
      have hno : ¬ e.keys.overlapsExclusive r = true := fun ho =>
        not_lt.mpr hstop (Range.overlapsExclusive_iff.mp ho).2
      refine ⟨e :: left, right, ?_, forall_mem_cons.mpr ⟨hstop, hleft⟩, hright⟩
      rw [filter_cons, if_neg hno, cons_append, cons_append, ← heq]
    by_cases hstart : e.keys.start < r.stop
    · -- the piece overlaps: then no later one lies before the range
      have ho : e.keys.overlapsExclusive r = true :=
        Range.overlapsExclusive_iff.mpr ⟨hstart, not_le.mp hstop⟩
      have hnil : left = [] := by
        rw [eq_nil_iff_forall_not_mem]
        intro x hx
        have hmem : x ∈ es := by
          rw [heq]
          simp [hx]
        have hxv : x.keys.start < x.keys.stop := h.of_cons.valid x hmem
        exact hstop ((h.head_le hmem).trans (hxv.le.trans (hleft x hx)))
      subst hnil
      refine ⟨[], right, ?_, by simp, hright⟩
      rw [filter_cons, if_pos ho, nil_append, cons_append]
      rw [nil_append] at heq
      rw [← heq]
    · -- the piece lies behind the range, and with it all that follow
      have he : e.keys.Valid := h.valid e (by simp)
      have hbehind : ∀ x ∈ e :: es, r.stop ≤ x.keys.start := forall_mem_cons.mpr
        ⟨not_lt.mp hstart, fun x hx => (not_lt.mp hstart).trans (he.le.trans (h.head_le hx))⟩
      refine ⟨[], e :: es, ?_, by simp, hbehind⟩
      have hnone : (e :: es).filter (fun e => e.keys.overlapsExclusive r) = [] := by
        rw [filter_eq_nil_iff]
        intro x hx ho
        exact absurd (Range.overlapsExclusive_iff.mp ho).1 (not_lt.mpr (hbehind x hx))
      rw [hnone, nil_append, nil_append]

end InOrder

end

end Ratel.Lib
