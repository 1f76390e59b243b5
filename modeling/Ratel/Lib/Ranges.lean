import Mathlib.Order.Interval.Set.LinearOrder
import Mathlib.Order.MinMax
import Mathlib.Data.Set.Lattice
import Mathlib.Data.List.Nodup
import Mathlib.Data.List.Pairwise

/- Half-open ranges over a linear order, lists of them, and the sets they cover. A list is
   canonical if its ranges are non-empty and in order and no two of them touch: then it is
   the only such list that covers its set (`Canonical.ext`), a range lies in the set only if
   it lies in one of the ranges (`Canonical.subset_iff`), and taking a range away from every
   range of the list leaves a canonical list (`Canonical.minus`). -/
namespace Ratel.Lib

open List

/-- The keys from `start` up to but without `stop`. -/
structure Range (α : Type) where
  start : α
  stop : α
deriving DecidableEq, Repr

namespace Range

variable {α : Type} [LinearOrder α]

def Valid (r : Range α) : Prop := r.start < r.stop

instance (r : Range α) : Decidable r.Valid := inferInstanceAs (Decidable (_ < _))

def keys (r : Range α) : Set α := Set.Ico r.start r.stop

def overlapsInclusive (a b : Range α) : Bool := decide (a.start ≤ b.stop) && decide (b.start ≤ a.stop)

def overlapsExclusive (a b : Range α) : Bool := decide (a.start < b.stop) && decide (b.start < a.stop)

/-- The second range lies in the first. -/
def contains (out inner : Range α) : Bool := decide (out.start ≤ inner.start) && decide (inner.stop ≤ out.stop)

/-- The smallest range over two. -/
def merge (l r : Range α) : Range α :=
  ⟨if r.start < l.start then r.start else l.start, if l.stop < r.stop then r.stop else l.stop⟩

variable {a b r : Range α}

@[simp] theorem mem_keys {k : α} : k ∈ r.keys ↔ r.start ≤ k ∧ k < r.stop := Iff.rfl

theorem Valid.start_mem (h : r.Valid) : r.start ∈ r.keys := ⟨le_rfl, h⟩

theorem overlapsInclusive_iff : a.overlapsInclusive b = true ↔ a.start ≤ b.stop ∧ b.start ≤ a.stop := by
  simp [overlapsInclusive]

theorem overlapsExclusive_iff : a.overlapsExclusive b = true ↔ a.start < b.stop ∧ b.start < a.stop := by
  simp [overlapsExclusive]

theorem contains_iff : a.contains b = true ↔ a.start ≤ b.start ∧ b.stop ≤ a.stop := by
  simp [contains]

theorem merge_start (l r : Range α) : (l.merge r).start = min l.start r.start := by
  unfold merge
  by_cases h : r.start < l.start
  · simp [h, h.le]
  · simp [not_lt.mp h]

theorem merge_stop (l r : Range α) : (l.merge r).stop = max l.stop r.stop := by
  unfold merge
  by_cases h : l.stop < r.stop
  · simp [h, h.le]
  · simp [not_lt.mp h]

theorem Valid.merge (ha : a.Valid) (b : Range α) : (a.merge b).Valid := by
  unfold Valid
  rw [merge_start, merge_stop]
  exact lt_of_le_of_lt (min_le_left _ _) (lt_of_lt_of_le ha (le_max_left _ _))

/-- Ranges with a common key overlap. -/
theorem overlapsExclusive_iff_meet (ha : a.Valid) (hb : b.Valid) :
    a.overlapsExclusive b = true ↔ ∃ k, k ∈ a.keys ∧ k ∈ b.keys := by
  rw [overlapsExclusive_iff]
  constructor
  · intro h
    exact ⟨max a.start b.start, ⟨le_max_left _ _, max_lt ha h.2⟩, le_max_right _ _, max_lt h.1 hb⟩
  · intro ⟨k, hka, hkb⟩
    exact ⟨lt_of_le_of_lt hka.1 hkb.2, lt_of_le_of_lt hkb.1 hka.2⟩

theorem contains_iff_subset (hb : b.Valid) : a.contains b = true ↔ b.keys ⊆ a.keys := by
  rw [contains_iff]
  exact (Set.Ico_subset_Ico_iff hb).symm

/-- Ranges that overlap or touch leave no key out between them. -/
theorem keys_merge (h : a.overlapsInclusive b = true) :
    (a.merge b).keys = a.keys ∪ b.keys := by
  obtain ⟨hab, hba⟩ := overlapsInclusive_iff.mp h
  rw [keys, merge_start, merge_stop]
  exact (Set.Ico_union_Ico' hba hab).symm

/-- What is left of a range when another is taken away. -/
def minus (r nr : Range α) : List (Range α) :=
  if ¬ nr.overlapsExclusive r then [nr]
  else match decide (r.start ≤ nr.start), decide (nr.stop ≤ r.stop) with
    | true, true => []
    | true, false => [⟨r.stop, nr.stop⟩]
    | false, true => [⟨nr.start, r.start⟩]
    | false, false => [⟨nr.start, r.start⟩, ⟨r.stop, nr.stop⟩]

end Range

/-! Lists of ranges. -/

section
variable {α : Type} [LinearOrder α]

/-- The keys of all ranges of a list. -/
def cover (l : List (Range α)) : Set α := {k | ∃ r ∈ l, k ∈ r.keys}

@[mk_iff]
structure Canonical (l : List (Range α)) : Prop where
  valid : ∀ r ∈ l, r.Valid
  apart : l.Pairwise fun a b => a.stop < b.start

variable {l l' : List (Range α)} {r : Range α}

@[simp] theorem cover_nil : cover ([] : List (Range α)) = ∅ := by
  simp [cover]

@[simp] theorem cover_cons (r : Range α) (l : List (Range α)) : cover (r :: l) = r.keys ∪ cover l := by
  ext k
  simp [cover]

@[simp] theorem cover_append (l l' : List (Range α)) : cover (l ++ l') = cover l ∪ cover l' := by
  ext k
  simp [cover, or_and_right, exists_or]

theorem Canonical.nil : Canonical ([] : List (Range α)) := ⟨by simp, .nil⟩

theorem canonical_cons : Canonical (r :: l) ↔ r.Valid ∧ (∀ b ∈ l, r.stop < b.start) ∧ Canonical l := by
  rw [canonical_iff, canonical_iff, forall_mem_cons, pairwise_cons]
  tauto

theorem canonical_append : Canonical (l ++ l') ↔ Canonical l ∧ Canonical l' ∧ ∀ a ∈ l, ∀ b ∈ l', a.stop < b.start := by
  rw [canonical_iff, canonical_iff, canonical_iff, forall_mem_append, pairwise_append]
  tauto

theorem Canonical.sublist (h : Canonical l) (hsub : List.Sublist l' l) : Canonical l' :=
  ⟨fun r hr => h.valid r (hsub.subset hr), h.apart.sublist hsub⟩

/-- A range meets the set if it overlaps one of the ranges. -/
theorem meets_cover_iff (hl : ∀ a ∈ l, a.Valid) (hr : r.Valid) :
    (∃ k, k ∈ r.keys ∧ k ∈ cover l) ↔ ∃ a ∈ l, a.overlapsExclusive r = true := by
  constructor
  · intro ⟨k, hkr, a, ha, hka⟩
    exact ⟨a, ha, (Range.overlapsExclusive_iff_meet (hl a ha) hr).mpr ⟨k, hka, hkr⟩⟩
  intro ⟨a, ha, h⟩
  obtain ⟨k, hka, hkr⟩ := (Range.overlapsExclusive_iff_meet (hl a ha) hr).mp h
  exact ⟨k, hkr, a, ha, hka⟩

variable {a : Range α}

theorem Canonical.eq_or_apart (h : Canonical l) {b : Range α} (ha : a ∈ l) (hb : b ∈ l) :
    a = b ∨ a.stop < b.start ∨ b.stop < a.start := by
  let R (a b : Range α) : Prop := a = b ∨ a.stop < b.start ∨ b.stop < a.start
  have : Std.Symm R := ⟨fun _ _ hab => hab.imp Eq.symm Or.symm⟩
  have hpairs : l.Pairwise R := h.apart.imp fun hab => .inr (.inl hab)
  exact hpairs.forall_of_forall (fun _ _ => .inl rfl) ha hb

theorem Canonical.below_last (h : Canonical l) {last : Range α} (hlast : l.getLast? = some last) (ha : a ∈ l) :
    a = last ∨ a.stop < last.start := by
  obtain ⟨init, rfl⟩ := getLast?_eq_some_iff.mp hlast
  rcases mem_append.mp ha with ha | ha
  · exact .inr ((canonical_append.mp h).2.2 a ha last (by simp))
  · exact .inl (mem_singleton.mp ha)

theorem Canonical.above_head (h : Canonical l) {first : Range α} (hfirst : l.head? = some first) (ha : a ∈ l) :
    a = first ∨ first.stop < a.start := by
  obtain ⟨rest, rfl⟩ := head?_eq_some_iff.mp hfirst
  rcases mem_cons.mp ha with ha | ha
  · exact .inl ha
  · exact .inr ((canonical_cons.mp h).2.1 a ha)

/-- The end of a range of a canonical list is not in the set. -/
theorem Canonical.stop_not_mem (h : Canonical l) (ha : a ∈ l) : a.stop ∉ cover l := by
  intro ⟨b, hb, hkey⟩
  rcases h.eq_or_apart ha hb with heq | hne
  · subst heq
    exact lt_irrefl _ hkey.2
  rcases hne with hlt | hlt
  · exact absurd hkey.1 (not_le.mpr hlt)
  · exact absurd (hkey.2.trans hlt) (not_lt.mpr (h.valid a ha).le)

/-- A range lies in the set only if it lies in one of the ranges. -/
theorem Canonical.subset_iff (h : Canonical l) (hr : r.Valid) :
    r.keys ⊆ cover l ↔ ∃ a ∈ l, a.contains r = true := by
  constructor
  · intro hsub
    obtain ⟨a, ha, hstart⟩ := hsub hr.start_mem
    refine ⟨a, ha, Range.contains_iff.mpr ⟨hstart.1, ?_⟩⟩
    by_contra hlt
    exact h.stop_not_mem ha (hsub ⟨hstart.2.le, not_le.mp hlt⟩)
  · intro ⟨a, ha, hcontains⟩ k hk
    exact ⟨a, ha, (Range.contains_iff_subset hr).mp hcontains hk⟩

/-- The first key of a canonical list. -/
theorem Canonical.head_start_le (h : Canonical (r :: l)) {k : α} (hk : k ∈ cover (r :: l)) : r.start ≤ k := by
  obtain ⟨hr, hbelow, _⟩ := canonical_cons.mp h
  rw [cover_cons] at hk
  rcases hk with hk | hk
  · exact hk.1
  · obtain ⟨b, hb, hkb⟩ := hk
    exact (hr.le.trans (hbelow b hb).le).trans hkb.1

theorem Canonical.head_mem (h : Canonical (r :: l)) : r.start ∈ cover (r :: l) := by
  rw [cover_cons]
  exact .inl (h.valid r mem_cons_self).start_mem

theorem Canonical.tail_eq (h : Canonical (r :: l)) : cover l = cover (r :: l) \ r.keys := by
  obtain ⟨_, hbelow, _⟩ := canonical_cons.mp h
  rw [cover_cons, Set.union_sdiff_left]
  refine (sdiff_eq_left.mpr (Set.disjoint_left.mpr fun k hl hk => ?_)).symm
  obtain ⟨b, hb, hkb⟩ := hl
  exact absurd (hk.2.trans (hbelow b hb)) (not_lt.mpr hkb.1)

/-- A set is covered by one canonical list at most. -/
theorem Canonical.ext : ∀ {l l' : List (Range α)}, Canonical l → Canonical l' → cover l = cover l' → l = l'
  | [], [], _, _, _ => rfl
  | [], _ :: _, _, h', heq => by
    have hmem := h'.head_mem
    rw [← heq] at hmem
    simp at hmem
  | _ :: _, [], h, _, heq => by
    have hmem := h.head_mem
    rw [heq] at hmem
    simp at hmem
  | a :: l, b :: l', h, h', heq => by
    have hstart : a.start = b.start :=
      le_antisymm (h.head_start_le (heq ▸ h'.head_mem)) (h'.head_start_le (heq ▸ h.head_mem))
    -- The end of the shorter one would be in the set of the other.
    have hstop : a.stop = b.stop := by
      refine le_antisymm (not_lt.mp fun hlt => ?_) (not_lt.mp fun hlt => ?_)
      · refine h'.stop_not_mem mem_cons_self (heq ▸ ?_)
        rw [cover_cons]
        exact .inl ⟨hstart ▸ (h'.valid b mem_cons_self).le, hlt⟩
      refine h.stop_not_mem mem_cons_self (heq ▸ ?_)
      rw [cover_cons]
      exact .inl ⟨hstart ▸ (h.valid a mem_cons_self).le, hlt⟩
    have hab : a = b := by
      cases a
      simp only at hstart hstop
      rw [hstart, hstop]
    subst hab
    have htail : cover l = cover l' := by rw [h.tail_eq, h'.tail_eq, heq]
    rw [(canonical_cons.mp h).2.2.ext (canonical_cons.mp h').2.2 htail]

/-- A range splits a canonical list in the ranges before it, those it overlaps or touches,
    and those after it. -/
theorem Canonical.parts : ∀ {t : List (Range α)}, Canonical t → ∀ r : Range α, ∃ l m u, t = l ++ (m ++ u) ∧
    (∀ a ∈ l, a.stop < r.start) ∧ (∀ a ∈ m, a.overlapsInclusive r = true) ∧ ∀ a ∈ u, r.stop < a.start
  | [], _, r => ⟨[], [], [], rfl, by simp, by simp, by simp⟩
  | nr :: t, hc, r => by
    obtain ⟨hnr, hbelow, ht⟩ := canonical_cons.mp hc
    obtain ⟨l, m, u, rfl, hl, hm, hu⟩ := ht.parts r
    by_cases hbefore : nr.stop < r.start
    · exact ⟨nr :: l, m, u, rfl, forall_mem_cons.mpr ⟨hbefore, hl⟩, hm, hu⟩
    -- Nothing later is before the range.
    have hnil : l = [] := by
      cases l with
      | nil => rfl
      | cons a l =>
        have hlt := hbelow a (by simp)
        have hvalid := ht.valid a (by simp)
        exact absurd (hlt.trans (lt_trans hvalid (hl a mem_cons_self))) hbefore
    subst hnil
    by_cases hafter : r.stop < nr.start
    · have habove : ∀ a ∈ m ++ u, r.stop < a.start := fun a ha =>
        hafter.trans (lt_trans hnr (hbelow a ha))
      exact ⟨[], [], nr :: (m ++ u), rfl, by simp, by simp, forall_mem_cons.mpr ⟨hafter, habove⟩⟩
    have hover : nr.overlapsInclusive r = true :=
      Range.overlapsInclusive_iff.mpr ⟨not_lt.mp hafter, not_lt.mp hbefore⟩
    exact ⟨[], nr :: m, u, rfl, by simp, forall_mem_cons.mpr ⟨hover, hm⟩, hu⟩

theorem Canonical.nodup {t : List (Range α)} (hc : Canonical t) : t.Nodup :=
  hc.apart.imp_of_mem fun ha _ hlt heq => by
    subst heq
    exact absurd hlt (not_lt.mpr (le_of_lt (hc.valid _ ha)))

/-! Taking a range away. -/

theorem minus_of_not_overlaps {nr : Range α} (h : ¬ nr.overlapsExclusive r = true) : r.minus nr = [nr] := by
  simp [Range.minus, h]

/-- The keys from `b` to `c`, if there are any. -/
theorem canonical_piece (b c : α) : Canonical (if b < c then [⟨b, c⟩] else []) := by
  split
  · next hbc => exact canonical_cons.mpr ⟨hbc, by simp, .nil⟩
  · exact .nil

theorem cover_piece (b c : α) : cover (if b < c then [⟨b, c⟩] else []) = Set.Ico b c := by
  split
  · simp [Range.keys]
  · next hbc => rw [cover_nil, Set.Ico_eq_empty hbc]

theorem minus_of_overlaps {nr : Range α} (h : nr.overlapsExclusive r = true) :
    r.minus nr = (if nr.start < r.start then [⟨nr.start, r.start⟩] else []) ++
      if r.stop < nr.stop then [⟨r.stop, nr.stop⟩] else [] := by
  by_cases hs : r.start ≤ nr.start <;> by_cases he : nr.stop ≤ r.stop <;> simp [Range.minus, h, hs, he, ← not_le]

/-- The pieces of a range lie in it, without the keys taken away. -/
theorem Canonical.minus_one {nr : Range α} (hnr : nr.Valid) (hr : r.Valid) :
    Canonical (r.minus nr) ∧ cover (r.minus nr) = nr.keys \ r.keys ∧
      ∀ p ∈ r.minus nr, nr.start ≤ p.start ∧ p.stop ≤ nr.stop := by
  by_cases h : nr.overlapsExclusive r = true
  · obtain ⟨hlt, hlt'⟩ := Range.overlapsExclusive_iff.mp h
    rw [minus_of_overlaps h]
    refine ⟨canonical_append.mpr ⟨canonical_piece _ _, canonical_piece _ _, fun a ha b hb => ?_⟩, ?_,
      forall_mem_append.mpr ⟨?_, ?_⟩⟩
    · rw [mem_ite_nil_right, mem_singleton] at ha hb
      rw [ha.2, hb.2]
      exact hr
    · rw [cover_append, cover_piece, cover_piece]
      ext k
      simp only [Set.mem_union, Set.mem_sdiff, Range.mem_keys, not_and, not_lt]
      constructor
      · rintro (hk | hk)
        · exact ⟨⟨hk.1, hk.2.trans hlt'⟩, fun h => absurd hk.2 (not_lt.mpr h)⟩
        · exact ⟨⟨hlt.le.trans hk.1, hk.2⟩, fun _ => hk.1⟩
      intro hk
      by_cases hbefore : k < r.start
      · exact .inl ⟨hk.1.1, hbefore⟩
      · exact .inr ⟨hk.2 (not_lt.mp hbefore), hk.1.2⟩
    · split <;> simp [hlt'.le]
    · split <;> simp [hlt.le]
  · rw [minus_of_not_overlaps h]
    refine ⟨canonical_cons.mpr ⟨hnr, by simp, Canonical.nil⟩, ?_, by simp⟩
    rw [cover_cons, cover_nil, Set.union_empty]
    refine (sdiff_eq_left.mpr (Set.disjoint_left.mpr fun k hk hl => ?_)).symm
    exact h ((Range.overlapsExclusive_iff_meet hnr hr).mpr ⟨k, hk, hl⟩)

theorem Canonical.minus (h : Canonical l) (hr : r.Valid) :
    Canonical (l.flatMap r.minus) ∧ cover (l.flatMap r.minus) = cover l \ r.keys := by
  induction l with
  | nil => exact ⟨h, by simp⟩
  | cons nr l ih =>
    obtain ⟨hnr, hbelow, hl⟩ := canonical_cons.mp h
    obtain ⟨hpieces, hcover, hinside⟩ := Canonical.minus_one hnr hr
    obtain ⟨ihc, ihcover⟩ := ih hl
    refine ⟨canonical_append.mpr ⟨hpieces, ihc, fun a ha b hb => ?_⟩, ?_⟩
    · obtain ⟨nr', hnr', hb⟩ := mem_flatMap.mp hb
      obtain ⟨_, _, hinside'⟩ := Canonical.minus_one (hl.valid nr' hnr') hr
      exact lt_of_le_of_lt (hinside a ha).2 (lt_of_lt_of_le (hbelow nr' hnr') (hinside' b hb).1)
    · rw [flatMap_cons, cover_append, hcover, ihcover, cover_cons, Set.union_sdiff_distrib]

/-! Lists whose ranges may touch. -/

/-- Non-empty ranges in order, none of which overlap. -/
@[mk_iff]
structure Ordered (l : List (Range α)) : Prop where
  valid : ∀ r ∈ l, r.Valid
  inOrder : l.Pairwise fun a b => a.stop ≤ b.start

theorem Ordered.nil : Ordered ([] : List (Range α)) := ⟨by simp, .nil⟩

theorem ordered_cons : Ordered (r :: l) ↔ r.Valid ∧ (∀ b ∈ l, r.stop ≤ b.start) ∧ Ordered l := by
  rw [ordered_iff, ordered_iff, forall_mem_cons, pairwise_cons]
  tauto

theorem Ordered.singleton (h : r.Valid) : Ordered [r] := ordered_cons.mpr ⟨h, by simp, .nil⟩

theorem Ordered.head_le (h : Ordered (r :: l)) : ∀ x ∈ r :: l, r.start ≤ x.start := by
  obtain ⟨hr, hbelow, _⟩ := ordered_cons.mp h
  exact forall_mem_cons.mpr ⟨le_refl _, fun x hx => (le_of_lt hr).trans (hbelow x hx)⟩

/-- The keys of a list whose ranges all start at a bound or after it. -/
theorem le_of_mem_cover {b k : α} (hl : ∀ a ∈ l, b ≤ a.start) (hk : k ∈ cover l) : b ≤ k := by
  obtain ⟨a, ha, hka⟩ := hk
  exact (hl a ha).trans hka.1

/-- Ranges start in the set that they cover. -/
theorem Ordered.start_mem (h : Ordered l) (ha : a ∈ l) : a.start ∈ cover l :=
  ⟨a, ha, (h.valid a ha).start_mem⟩

end

end Ratel.Lib
