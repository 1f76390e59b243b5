import Ratel.Interval

/- A `RangeList` against the set it stands for. Its buckets are read as one list of ranges;
   `Sub` takes the range away from each of them, and `Add` replaces the ranges it overlaps
   by one. There is one exception: `findNode` leaves a bucket that begins where the new
   range ends to `Add` as not overlapped, and a range put at the end of the bucket before
   it then touches the next range without being merged (`add_touching`). In all other
   cases `Add` is right (`add_added`), and `Sub` and the queries always are. -/
namespace Ratel.Interval

open Lib List Range

section
variable {α : Type} [LinearOrder α] {a b : α} {r nr : Range α}

theorem compare_le_neg_one : compare a b ≤ -1 ↔ a < b := by
  unfold compare
  split
  · simp [*]
  · split <;> simp [*]

theorem compare_le_zero : compare a b ≤ 0 ↔ a ≤ b := by
  unfold compare
  split_ifs with hlt heq
  · simp [hlt.le]
  · simp [heq]
  · simp [lt_of_le_of_ne (not_lt.mp hlt) (Ne.symm heq)]

theorem zero_le_compare : 0 ≤ compare a b ↔ b ≤ a := by
  unfold compare
  split_ifs with hlt heq
  · simp [hlt]
  all_goals simp [not_lt.mp hlt]

theorem one_le_compare : 1 ≤ compare a b ↔ b < a := by
  unfold compare
  split_ifs with hlt heq
  · simp [hlt.le]
  · simp [heq]
  · simp [lt_of_le_of_ne (not_lt.mp hlt) (Ne.symm heq)]

/-! Before and after a range. -/

/-- A range ends before another begins. If touching counts as overlapping, it must not touch. -/
def Before (inclusive : Bool) (nr r : Range α) : Prop := if inclusive then nr.stop < r.start else nr.stop ≤ r.start

/-- A range begins after another ends. -/
def After (inclusive : Bool) (nr r : Range α) : Prop := if inclusive then r.stop < nr.start else r.stop ≤ nr.start

theorem overlaps_iff (inclusive : Bool) (nr r : Range α) :
    (if inclusive then nr.overlapsInclusive r else nr.overlapsExclusive r) = true ↔
      ¬ Before inclusive nr r ∧ ¬ After inclusive nr r := by
  cases inclusive with
  | true => simp [Before, After, overlapsInclusive_iff, and_comm]
  | false => simp [Before, After, overlapsExclusive_iff, and_comm]

theorem passed_iff (inclusive : Bool) (nr r : Range α) :
    compare r.stop nr.start ≤ (if inclusive then -1 else 0) ↔ After inclusive nr r := by
  cases inclusive with
  | true => simp [After, compare_le_neg_one]
  | false => simp [After, compare_le_zero]

theorem reached_iff (inclusive : Bool) (nr r : Range α) :
    compare nr.stop r.start ≥ (if inclusive then 0 else 1) ↔ ¬ Before inclusive nr r := by
  cases inclusive with
  | true => simp [Before, zero_le_compare]
  | false => simp [Before, one_le_compare]

/-- Ranges below one that ends before a range end before it too. -/
theorem Before.below {inclusive : Bool} {last : Range α} (h : Before inclusive last r) (hlast : last.Valid)
    (hlt : nr.stop < last.start) : Before inclusive nr r := by
  have hle : nr.stop < last.stop := hlt.trans hlast
  cases inclusive with
  | true => exact hle.trans h
  | false => exact hle.le.trans h

theorem After.above {inclusive : Bool} {first : Range α} (h : After inclusive first r) (hfirst : first.Valid)
    (hlt : first.stop < nr.start) : After inclusive nr r := by
  have hle : first.start < nr.start := hfirst.trans hlt
  cases inclusive with
  | true => exact lt_trans h hle
  | false => exact le_trans h hle.le

theorem not_overlapsExclusive_of_before (h : Before false nr r) : ¬ nr.overlapsExclusive r = true := by
  rw [overlapsExclusive_iff]
  exact fun hlt => absurd hlt.2 (not_lt.mpr h)

theorem not_overlapsExclusive_of_after (h : After false nr r) : ¬ nr.overlapsExclusive r = true := by
  rw [overlapsExclusive_iff]
  exact fun hlt => absurd hlt.1 (not_lt.mpr h)

/-! Finding the place. -/

/-- The slot found: everything before it is before the range, and unless it overlaps, what
    is in it is after the range. -/
theorem Node.findIdx_spec (r : Range α) (inclusive : Bool) : ∀ n : Node α,
    (n.findIdx r inclusive).1 ≤ n.length ∧ (∀ nr ∈ n.take (n.findIdx r inclusive).1, Before inclusive nr r) ∧
      ((n.findIdx r inclusive).2 = true → ∃ nr, n[(n.findIdx r inclusive).1]? = some nr ∧
        ¬ Before inclusive nr r ∧ ¬ After inclusive nr r) ∧
      ((n.findIdx r inclusive).2 = false → ∀ nr, n[(n.findIdx r inclusive).1]? = some nr → After inclusive nr r)
  | [] => by simp [findIdx]
  | nr :: slots => by
    rw [findIdx]
    by_cases hover : (if inclusive then nr.overlapsInclusive r else nr.overlapsExclusive r) = true
    · simp only [hover, if_true]
      exact ⟨Nat.zero_le _, by simp, fun _ => ⟨nr, rfl, (overlaps_iff inclusive nr r).mp hover⟩, by simp⟩
    by_cases hpassed : compare r.stop nr.start ≤ (if inclusive then -1 else 0)
    · simp only [hover, hpassed, if_true, if_false, Bool.false_eq_true]
      refine ⟨Nat.zero_le _, by simp, by simp, fun _ nr' hnr' => ?_⟩
      cases hnr'
      exact (passed_iff inclusive nr r).mp hpassed
    simp only [hover, hpassed, if_false, Bool.false_eq_true]
    obtain ⟨hle, hbefore, hfound, hnot⟩ := findIdx_spec r inclusive slots
    have hnr : Before inclusive nr r := by
      by_contra hb
      exact hover ((overlaps_iff inclusive nr r).mpr ⟨hb, fun ha => hpassed ((passed_iff inclusive nr r).mpr ha)⟩)
    refine ⟨Nat.succ_le_succ hle, ?_, hfound, hnot⟩
    exact forall_mem_cons.mpr ⟨hnr, hbefore⟩

/-- A bucket as it stands in a list of several: with ranges, but no more of them than slots. -/
abbrev Node.Fits (n : Node α) : Prop := n ≠ [] ∧ n.length ≤ rangeListNodeBucketSize

/-- The buckets of a list: none is empty, unless it is the only one, and none has more
    ranges than slots. -/
structure Buckets (nodes : List (Node α)) : Prop where
  used : nodes = [[]] ∨ ∀ n ∈ nodes, n ≠ []
  room : ∀ n ∈ nodes, n.length ≤ rangeListNodeBucketSize

omit [LinearOrder α] in
theorem Buckets.all_used {nodes : List (Node α)} {n : Node α} (h : Buckets nodes) (hn : n ∈ nodes) (hne : n ≠ []) :
    ∀ n ∈ nodes, n ≠ [] :=
  h.used.resolve_left fun hone => hne (mem_singleton.mp (hone ▸ hn))

/-- What `findNode` finds. -/
structure Found (r : Range α) (inclusive : Bool) (nodes before rest : List (Node α)) (inCur : Bool) : Prop where
  split : nodes = before ++ rest
  earlier : ∀ nr ∈ before.flatten, Before inclusive nr r
  used : ∀ n ∈ before, n ≠ []
  current : ∀ n after, rest = n :: after → n ≠ [] → ∃ first last, n.head? = some first ∧ n.getLast? = some last ∧
    ¬ Before inclusive last r ∧ inCur = decide (compare first.start r.stop ≤ if inclusive then -1 else 0)
  none : (∀ n after, rest = n :: after → n = []) → inCur = false

namespace RangeList

variable {inclusive : Bool} {nodes : List (Node α)} {n : Node α} {i : Nat} {l : List (Range α)}

theorem findNode_found {r : Range α} : ∀ {nodes acc before rest : List (Node α)} {inCur : Bool},
    Canonical nodes.flatten → findNode r inclusive acc nodes = (before, rest, inCur) →
      ∃ passed, before = acc ++ passed ∧ Found r inclusive nodes passed rest inCur
  | [], acc, _, _, _, _, h => by
    cases h
    exact ⟨[], (append_nil _).symm, rfl, by simp, by simp, by simp, fun _ => rfl⟩
  | n :: nodes, acc, before, rest, inCur, hc, h => by
    rw [findNode] at h
    by_cases hn : n = []
    · subst hn
      cases h
      exact ⟨[], (append_nil _).symm, rfl, by simp, by simp, fun n' after heq hne => absurd (by cases heq; rfl) hne,
        fun _ => rfl⟩
    obtain ⟨first, hfirst⟩ : ∃ first, n.head? = some first := ⟨_, head?_eq_some_head hn⟩
    obtain ⟨last, hlast⟩ : ∃ last, n.getLast? = some last := ⟨_, getLast?_eq_some_getLast hn⟩
    simp only [hfirst, hlast] at h
    by_cases hreached : Before inclusive last r
    · rw [if_neg fun hge => (reached_iff inclusive last r).mp hge hreached] at h
      obtain ⟨hcn, hcnodes, _⟩ := canonical_append.mp hc
      obtain ⟨passed, rfl, hfound⟩ := findNode_found hcnodes h
      refine ⟨n :: passed, by simp, ?_, ?_, ?_, hfound.current, hfound.none⟩
      · rw [hfound.split, cons_append]
      · intro nr hnr
        rcases mem_append.mp hnr with hmem | hmem
        · rcases hcn.below_last hlast hmem with heq | hlt
          · exact heq ▸ hreached
          · exact hreached.below (hcn.valid last (mem_of_getLast? hlast)) hlt
        · exact hfound.earlier nr hmem
      · exact forall_mem_cons.mpr ⟨hn, hfound.used⟩
    · rw [if_pos ((reached_iff inclusive last r).mpr hreached)] at h
      cases h
      refine ⟨[], (append_nil _).symm, rfl, by simp, by simp, fun n' after heq _ => ?_, fun hnone => ?_⟩
      · cases heq
        exact ⟨first, last, hfirst, hlast, hreached, rfl⟩
      · exact absurd (hnone n _ rfl) hn

theorem findNode_spec {r : Range α} {before rest : List (Node α)} {inCur : Bool}
    (hc : Canonical nodes.flatten) (h : findNode r inclusive [] nodes = (before, rest, inCur)) :
    Found r inclusive nodes before rest inCur := by
  obtain ⟨passed, hpassed, hfound⟩ := findNode_found hc h
  exact hpassed ▸ hfound

/-! Inserting. -/

omit [LinearOrder α] in
theorem shiftInto_spec {after : List (Node α)} (toShift : Range α) (hafter : ∀ n ∈ after, n.Fits) :
    (shiftInto toShift after).flatten = toShift :: after.flatten ∧ ∀ n ∈ shiftInto toShift after, n.Fits := by
  cases after with
  | nil => simp [shiftInto, Node.Fits, rangeListNodeBucketSize]
  | cons next rest =>
    obtain ⟨hnext, hrest⟩ := forall_mem_cons.mp hafter
    rw [shiftInto]
    by_cases hfull : next.full = true
    · simp only [hfull, not_true_eq_false, if_false]
      exact ⟨by simp, forall_mem_cons.mpr ⟨by simp [Node.Fits, rangeListNodeBucketSize], hafter⟩⟩
    simp only [hfull, Bool.false_eq_true, not_false_eq_true, if_true]
    refine ⟨by simp, forall_mem_cons.mpr ⟨⟨by simp, ?_⟩, hrest⟩⟩
    have hne : next.length ≠ rangeListNodeBucketSize := by simpa [Node.full] using hfull
    have hle := hnext.2
    rw [length_cons]
    omega

omit [LinearOrder α] in
theorem insertAtIdx_spec {after : List (Node α)} (r : Range α) (hi : i ≤ n.length)
    (hn : n.length ≤ rangeListNodeBucketSize) (hafter : ∀ n ∈ after, n.Fits) :
    ((insertAtIdx n after r i).1 :: (insertAtIdx n after r i).2).flatten =
      n.take i ++ r :: (n.drop i ++ after.flatten) ∧
      ∀ n' ∈ (insertAtIdx n after r i).1 :: (insertAtIdx n after r i).2, n'.Fits := by
  unfold insertAtIdx
  by_cases hfull : n.full = true
  · have hlen : n.length = rangeListNodeBucketSize := by simpa [Node.full] using hfull
    have hpos : 0 < n.length := by rw [hlen]; decide
    obtain ⟨init, last, hlast⟩ : ∃ init last, n = init ++ [last] :=
      ⟨n.dropLast, n.getLast (ne_nil_of_length_pos hpos), (dropLast_concat_getLast _).symm⟩
    simp only [hfull, if_true]
    by_cases hend : i = n.length
    · obtain ⟨hflat, hok⟩ := shiftInto_spec r hafter
      simp only [hend, if_true]
      refine ⟨by simp [hflat], forall_mem_cons.mpr ⟨⟨by simp [hlast], hn⟩, hok⟩⟩
    obtain ⟨hflat, hok⟩ := shiftInto_spec last hafter
    have hget : n.getLast?.getD r = last := by simp [hlast]
    have hdrop : n.dropLast.drop i ++ [last] = n.drop i := by
      have hi' : i ≤ init.length := by
        rw [hlast, length_append] at hi hend
        simp only [length_cons, length_nil] at hi hend
        omega
      simp [hlast, drop_append_of_le_length hi']
    simp only [hend, if_false, hget]
    refine ⟨?_, forall_mem_cons.mpr ⟨⟨by simp, ?_⟩, hok⟩⟩
    · rw [flatten_cons, hflat, ← hdrop]
      simp
    · simp only [length_append, length_take, length_cons, length_drop, length_dropLast]
      omega
  · have hlen : n.length ≠ rangeListNodeBucketSize := by simpa [Node.full] using hfull
    simp only [hfull, Bool.false_eq_true, if_false]
    refine ⟨by simp, forall_mem_cons.mpr ⟨⟨by simp, ?_⟩, hafter⟩⟩
    simp only [length_append, length_take, length_cons, length_drop]
    omega

/-! Merging. -/

theorem mergeSlots_length : ∀ (l : List (Range α)) (newR : Range α), (mergeSlots newR l).2.1.length ≤ l.length
  | [], _ => le_rfl
  | mergeR :: l, newR => by
    rw [mergeSlots]
    split
    · exact (mergeSlots_length l _).trans (Nat.le_succ _)
    · exact le_rfl

/-- Merging into a range that starts before all others: it grows to the right, over the
    ranges it reaches. -/
structure Merged (newR : Range α) (l : List (Range α)) (newR' : Range α) (rest : List (Range α)) (count : Nat) : Prop where
  start : newR'.start = newR.start
  valid : newR'.Valid
  split : ∃ merged, l = merged ++ rest ∧ merged.length = count
  above : ∀ b ∈ rest, newR'.stop < b.start
  keys : newR'.keys ∪ cover rest = newR.keys ∪ cover l

theorem mergeSlots_merged : ∀ {l : List (Range α)} {newR : Range α}, newR.Valid → Canonical l →
    (∀ b ∈ l, newR.start ≤ b.start) →
      Merged newR l (mergeSlots newR l).1 (mergeSlots newR l).2.1 (mergeSlots newR l).2.2
  | [], newR, hvalid, _, _ => ⟨rfl, hvalid, ⟨[], rfl, rfl⟩, by simp [mergeSlots], rfl⟩
  | mergeR :: l, newR, hvalid, hc, hstart => by
    obtain ⟨hmergeR, hbelow, hl⟩ := canonical_cons.mp hc
    have hle := hstart mergeR mem_cons_self
    rw [mergeSlots]
    by_cases hover : newR.overlapsInclusive mergeR = true
    · simp only [hover, if_true]
      have hstart' : (newR.merge mergeR).start = newR.start := by rw [merge_start, min_eq_left hle]
      obtain ⟨hs, hv, ⟨merged, hsplit, hcount⟩, habove, hkeys⟩ := mergeSlots_merged (hvalid.merge mergeR) hl
        fun b hb => hstart'.le.trans (hstart b (mem_cons_of_mem _ hb))
      refine ⟨hs.trans hstart', hv, ⟨mergeR :: merged, by rw [cons_append, ← hsplit], by simp [hcount]⟩, habove, ?_⟩
      rw [hkeys, keys_merge hover, cover_cons, Set.union_assoc]
    simp only [hover, Bool.false_eq_true, if_false]
    have hlt : newR.stop < mergeR.start := by
      by_contra hnot
      exact hover (Range.overlapsInclusive_iff.mpr ⟨hle.trans (le_of_lt hmergeR), not_lt.mp hnot⟩)
    refine ⟨rfl, hvalid, ⟨[], rfl, rfl⟩, ?_, rfl⟩
    exact forall_mem_cons.mpr ⟨hlt, fun b hb => hlt.trans (lt_trans hmergeR (hbelow b hb))⟩

theorem mergeSlots_append (l l' : List (Range α)) : ∀ newR : Range α, mergeSlots newR (l ++ l') =
    if (mergeSlots newR l).2.1 = [] then
      ((mergeSlots (mergeSlots newR l).1 l').1, (mergeSlots (mergeSlots newR l).1 l').2.1,
        (mergeSlots newR l).2.2 + (mergeSlots (mergeSlots newR l).1 l').2.2)
    else ((mergeSlots newR l).1, (mergeSlots newR l).2.1 ++ l', (mergeSlots newR l).2.2) := by
  induction l with
  | nil =>
    simp [mergeSlots]
  | cons mergeR l ih =>
    intro newR
    rw [cons_append, mergeSlots, mergeSlots]
    by_cases hover : newR.overlapsInclusive mergeR = true
    · simp only [hover, if_true, ih]
      split
      · exact congrArg _ (congrArg _ (Nat.add_right_comm _ _ _))
      · rfl
    · simp [hover]

/-- Merging buckets is merging the ranges in them. -/
theorem mergeNodes_spec : ∀ {nodes : List (Node α)} (newR : Range α), (∀ n ∈ nodes, n.Fits) →
    mergeSlots newR nodes.flatten =
      ((mergeNodes newR nodes).1, (mergeNodes newR nodes).2.1.flatten, (mergeNodes newR nodes).2.2) ∧
      ∀ n ∈ (mergeNodes newR nodes).2.1, n.Fits
  | [], newR, _ => by simp [mergeNodes, mergeSlots]
  | n :: nodes, newR, hnodes => by
    obtain ⟨hn, hnodes⟩ := forall_mem_cons.mp hnodes
    obtain ⟨ih, ihnodes⟩ := mergeNodes_spec (mergeSlots newR n).1 hnodes
    have hlen : (mergeSlots newR n).2.1.length ≤ n.length := mergeSlots_length n newR
    rw [flatten_cons, mergeSlots_append, mergeNodes]
    cases hm : mergeSlots newR n with
    | mk newR' p =>
      obtain ⟨slots, count⟩ := p
      rw [hm] at ih ihnodes hlen
      cases slots with
      | nil =>
        rw [if_pos rfl]
        exact ⟨by rw [ih], ihnodes⟩
      | cons s slots =>
        exact ⟨by simp, forall_mem_cons.mpr ⟨⟨by simp, hlen.trans hn.2⟩, hnodes⟩⟩

/-- Merging from a slot on is merging the ranges of all buckets from there on. -/
theorem mergeAt_spec (rl : RangeList α) (before : List (Node α)) {after : List (Node α)} (i : Nat)
    (nr r : Range α) (hn : n.length ≤ rangeListNodeBucketSize) (hi : i < n.length)
    (hafter : ∀ n ∈ after, n.Fits) :
    let m := mergeSlots (nr.merge r) (n.drop (i + 1) ++ after.flatten)
    ∃ n' after', rl.mergeAt before n after i nr r = ⟨before ++ n' :: after', rl.len - m.2.2⟩ ∧
      (n' :: after').flatten = n.take i ++ m.1 :: m.2.1 ∧
      ∀ n ∈ n' :: after', Node.Fits n := by
  simp only [mergeSlots_append]
  have hlen := mergeSlots_length (n.drop (i + 1)) (nr.merge r)
  unfold mergeAt
  cases hm : mergeSlots (nr.merge r) (n.drop (i + 1)) with
  | mk newR p =>
    obtain ⟨slots, count⟩ := p
    rw [hm] at hlen
    simp only [length_drop] at hlen
    cases slots with
    | nil =>
      obtain ⟨hmerge, hnodes⟩ := mergeNodes_spec newR hafter
      rw [if_pos rfl, hmerge]
      refine ⟨n.take i ++ [(mergeNodes newR after).1], _, by simp only [Nat.sub_sub], by simp,
        forall_mem_cons.mpr ⟨⟨by simp, ?_⟩, hnodes⟩⟩
      simp only [length_append, length_take, length_cons, length_nil]
      omega
    | cons s slots =>
      refine ⟨_, _, rfl, by simp, forall_mem_cons.mpr ⟨⟨by simp, ?_⟩, hafter⟩⟩
      simp only [length_append, length_take, length_cons] at hlen ⊢
      omega

/-! Adding. -/

/-- A list in good order. -/
structure Good (rl : RangeList α) : Prop where
  buckets : Buckets rl.nodes
  canonical : Canonical rl.nodes.flatten
  len : rl.len = rl.nodes.flatten.length

theorem new_good : (new : RangeList α).Good :=
  ⟨⟨.inl rfl, by simp [new]⟩, by simpa [new] using Canonical.nil, by simp [new]⟩

/-- The new range ends where the bucket found begins, and the bucket before has room. -/
def TouchesNext (rl : RangeList α) (r : Range α) : Prop :=
  (∃ prev ∈ (findNode r true [] rl.nodes).1.getLast?, prev.full = false) ∧
    ∃ n ∈ (findNode r true [] rl.nodes).2.1.head?, ∃ first ∈ n.head?, first.start = r.stop

/-- What `Add` does to the set. -/
structure Added (rl : RangeList α) (r : Range α) (rl' : RangeList α) (grew : Bool) : Prop where
  good : rl'.Good
  covers : cover rl'.nodes.flatten = cover rl.nodes.flatten ∪ r.keys
  grew : grew = true ↔ ¬ r.keys ⊆ cover rl.nodes.flatten

variable {rl : RangeList α} {before rest : List (Node α)} {inCur : Bool}

/-- A range between two parts of a canonical list. -/
theorem canonical_between {l' : List (Range α)} (hc : Canonical (l ++ l')) (hr : r.Valid)
    (hbefore : ∀ a ∈ l, a.stop < r.start) (hafter : ∀ b ∈ l', r.stop < b.start) :
    Canonical (l ++ r :: l') ∧ cover (l ++ r :: l') = cover (l ++ l') ∪ r.keys ∧ ¬ r.keys ⊆ cover (l ++ l') := by
  obtain ⟨hl, hl', hbetween⟩ := canonical_append.mp hc
  refine ⟨canonical_append.mpr ⟨hl, canonical_cons.mpr ⟨hr, hafter, hl'⟩, fun a ha b hb => ?_⟩, ?_, fun hsub => ?_⟩
  · exact (mem_cons.mp hb).elim (fun heq => heq ▸ hbefore a ha) (hbetween a ha b)
  · rw [cover_append, cover_cons, cover_append, Set.union_assoc, Set.union_comm r.keys]
  obtain ⟨a, ha, hstart⟩ := hsub hr.start_mem
  rcases mem_append.mp ha with ha | ha
  · exact absurd (hbefore a ha) (not_lt.mpr hstart.2.le)
  · exact absurd ((hafter a ha).trans_le hstart.1) (not_lt.mpr (le_of_lt hr))

omit [LinearOrder α] in
/-- Buckets before and from the one found on make up a list again. -/
theorem buckets_of_parts {before : List (Node α)} (hbefore : ∀ n ∈ before, n ≠ [])
    (hroom : ∀ n ∈ before, n.length ≤ rangeListNodeBucketSize)
    (hnodes : ∀ n ∈ nodes, n.Fits) : Buckets (before ++ nodes) := by
  have ⟨hused, hfit⟩ := forall₂_and.mp hnodes
  exact ⟨.inr (forall_mem_append.mpr ⟨hbefore, hused⟩), forall_mem_append.mpr ⟨hroom, hfit⟩⟩

/-- What happened to the ranges of a list happened to the list. -/
theorem added_of_ranges {len : Nat} {l' : List (Range α)} (hflat : rl.nodes.flatten = l) (hflat' : nodes.flatten = l')
    (hbuckets : Buckets nodes) (hlen : len = l'.length)
    (h : Canonical l' ∧ cover l' = cover l ∪ r.keys ∧ ¬ r.keys ⊆ cover l) : Added rl r ⟨nodes, len⟩ true := by
  subst hflat hflat'
  exact ⟨⟨hbuckets, h.1, hlen⟩, h.2.1, iff_of_true rfl h.2.2⟩

/-- What follows the bucket found. -/
theorem Good.after (hgood : rl.Good) {after : List (Node α)} (hsplit : rl.nodes = before ++ n :: after) :
    n.length ≤ rangeListNodeBucketSize ∧ (∀ n ∈ before, n.length ≤ rangeListNodeBucketSize) ∧ ∀ n ∈ after, n.Fits := by
  have hroom := hgood.buckets.room
  rw [hsplit] at hroom
  refine ⟨hroom n (by simp), fun n hn => hroom n (by simp [hn]), fun n' hn' => ⟨?_, hroom n' (by simp [hn'])⟩⟩
  rcases hgood.buckets.used with hone | hused
  · -- The only bucket has none after it.
    rw [hsplit, append_eq_singleton_iff] at hone
    simp_all
  · exact hused n' (by simp [hsplit, hn'])

/-- A range that is not in the bucket found comes before what is in the slot found. -/
theorem above_of_passed (hgood : rl.Good) {after : List (Node α)}
    (hfound : Found r inclusive rl.nodes before (n :: after) inCur) (hi : i ≤ n.length)
    (htake : ∀ nr ∈ n.take i, Before inclusive nr r) (hpast : ∀ nr, n[i]? = some nr → After inclusive nr r) :
    ∀ b ∈ n.drop i ++ after.flatten, After inclusive b r := by
  have hc := hgood.canonical
  rw [hfound.split, flatten_append, flatten_cons, ← take_append_drop i n, append_assoc] at hc
  have hc' := (canonical_append.mp (canonical_append.mp hc).2.1).2.1
  cases hd : n.drop i with
  | nil =>
    have hend : i = n.length := le_antisymm hi (drop_eq_nil_iff.mp hd)
    by_cases hn : n = []
    · -- An empty bucket is the only one.
      rcases hgood.buckets.used with hone | hused
      · rw [hfound.split, append_eq_singleton_iff] at hone
        simp_all
      · exact absurd hn (hused n (by simp [hfound.split]))
    · obtain ⟨_, last, _, hlast, hreached, _⟩ := hfound.current n after rfl hn
      rw [hend, take_length] at htake
      exact absurd (htake last (mem_of_getLast? hlast)) hreached
  | cons nr rest =>
    have hget : n[i]? = some nr := by
      rw [← head?_drop, hd]
      rfl
    have hnr := hpast nr hget
    rw [hd, cons_append] at hc'
    obtain ⟨hvalid, hbelow, _⟩ := canonical_cons.mp hc'
    exact forall_mem_cons.mpr ⟨hnr, fun b hb => hnr.above hvalid (hbelow b hb)⟩

/-- The first range that overlaps the new one, grown over it and over those that follow. -/
theorem merged_added {m : List (Range α)} {newR : Range α} {rest : List (Range α)} {count : Nat} (hr : r.Valid)
    (hc : Canonical (l ++ nr :: m)) (hbelow : ∀ a ∈ l, a.stop < r.start) (hover : nr.overlapsInclusive r = true)
    (hcontains : ¬ nr.contains r = true) (hmerged : Merged (nr.merge r) m newR rest count) :
    Canonical (l ++ newR :: rest) ∧ cover (l ++ newR :: rest) = cover (l ++ nr :: m) ∪ r.keys ∧
      ¬ r.keys ⊆ cover (l ++ nr :: m) := by
  obtain ⟨hl, hl', hbetween⟩ := canonical_append.mp hc
  obtain ⟨_, _, hm⟩ := canonical_cons.mp hl'
  obtain ⟨hover₁, hover₂⟩ := Range.overlapsInclusive_iff.mp hover
  obtain ⟨hstart, hvalid, ⟨merged, hsplit, _⟩, hrest, hkeys⟩ := hmerged
  refine ⟨canonical_append.mpr ⟨hl, canonical_cons.mpr ⟨hvalid, hrest, ?_⟩, fun a ha b hb => ?_⟩, ?_, ?_⟩
  · exact hm.sublist (hsplit ▸ sublist_append_right merged rest)
  · have hnewR : a.stop < newR.start := by
      rw [hstart, merge_start]
      exact lt_min (hbetween a ha nr mem_cons_self) (hbelow a ha)
    rcases mem_cons.mp hb with hb | hb
    · exact hb ▸ hnewR
    · exact hnewR.trans (lt_trans hvalid (hrest b hb))
  · rw [cover_append, cover_append, cover_cons, cover_cons, hkeys, keys_merge hover, Set.union_assoc,
      Set.union_assoc, Set.union_assoc, Set.union_comm r.keys]
  rw [hc.subset_iff hr]
  intro ⟨a, ha, hcontained⟩
  obtain ⟨hlo, hhi⟩ := Range.contains_iff.mp hcontained
  -- Another range around the new one would meet the one that overlaps it.
  rcases hc.eq_or_apart ha (by simp : nr ∈ l ++ nr :: m) with heq | hne
  · exact hcontains (heq ▸ hcontained)
  rcases hne with hlt | hlt
  · exact absurd (hhi.trans_lt hlt) (not_lt.mpr hover₁)
  · exact absurd (hlt.trans_le hlo) (not_lt.mpr hover₂)

/-- Merging starts from a range that is before all that follow. -/
theorem mergeSlots_from {m : List (Range α)} (hc : Canonical (nr :: m)) (r : Range α) :
    Merged (nr.merge r) m (mergeSlots (nr.merge r) m).1 (mergeSlots (nr.merge r) m).2.1
      (mergeSlots (nr.merge r) m).2.2 := by
  obtain ⟨hnr, habove, hm⟩ := canonical_cons.mp hc
  refine mergeSlots_merged (hnr.merge r) hm fun b hb => ?_
  rw [merge_start]
  exact (min_le_left _ _).trans (le_of_lt (lt_trans hnr (habove b hb)))

theorem mergeAt_added (hgood : rl.Good) (hr : r.Valid) {after : List (Node α)}
    (hfound : Found r true rl.nodes before (n :: after) inCur) (hi : i < n.length)
    (hbelow : ∀ a ∈ before.flatten ++ n.take i, a.stop < r.start) (hover : nr.overlapsInclusive r = true)
    (hcontains : ¬ nr.contains r = true)
    (hflat : rl.nodes.flatten = before.flatten ++ n.take i ++ nr :: (n.drop (i + 1) ++ after.flatten)) :
    Added rl r (rl.mergeAt before n after i nr r) true := by
  obtain ⟨hn, hroom, hafter⟩ := hgood.after hfound.split
  have hc := hflat ▸ hgood.canonical
  have hmerged := mergeSlots_from (canonical_append.mp hc).2.1 r
  obtain ⟨n', after', heq, hflat', hnodes⟩ := mergeAt_spec rl before i nr r hn hi hafter
  generalize mergeSlots (nr.merge r) (n.drop (i + 1) ++ after.flatten) = p at hmerged heq hflat'
  obtain ⟨newR, rest, count⟩ := p
  simp only at hmerged heq hflat'
  obtain ⟨merged, hmsplit, hcount⟩ := hmerged.split
  rw [heq]
  refine added_of_ranges hflat (by rw [flatten_append, hflat', append_assoc])
    (buckets_of_parts hfound.used hroom hnodes) ?_ (merged_added hr hc hbelow hover hcontains hmerged)
  rw [hgood.len, hflat]
  have hlen := congrArg List.length hmsplit
  simp only [length_append, length_cons] at hlen ⊢
  omega

theorem addAt_added (hgood : rl.Good) (hr : r.Valid) (hfound : Found r true rl.nodes before rest inCur) :
    Added rl r (rl.addAt before rest r).1 (rl.addAt before rest r).2 := by
  have hflat : rl.nodes.flatten = before.flatten ++ rest.flatten := by rw [hfound.split, flatten_append]
  have hc := hflat ▸ hgood.canonical
  have hbefore : ∀ a ∈ before.flatten, a.stop < r.start := hfound.earlier
  cases rest with
  | nil =>
    have hroom : ∀ n ∈ before, n.length ≤ rangeListNodeBucketSize := fun n hn =>
      hgood.buckets.room n (by simp [hfound.split, hn])
    exact added_of_ranges hflat (by simp) (buckets_of_parts hfound.used hroom (by simp [Node.Fits, rangeListNodeBucketSize]))
      (by simp [hgood.len, hflat]) (canonical_between hc hr hbefore (by simp))
  | cons n after =>
    obtain ⟨hn, hroom, hafter⟩ := hgood.after hfound.split
    rw [flatten_cons] at hflat hc
    obtain ⟨hi, htake, hover, hpast⟩ := Node.findIdx_spec r true n
    have hlen := hgood.len
    rw [hflat] at hlen
    cases hidx : n.findIdx r true with
    | mk i ok =>
      rw [hidx] at hi htake hover hpast
      have hsplit : before.flatten ++ (n ++ after.flatten) =
          (before.flatten ++ n.take i) ++ (n.drop i ++ after.flatten) := by
        rw [append_assoc, ← append_assoc (n.take i), take_append_drop]
      have hbelow : ∀ a ∈ before.flatten ++ n.take i, a.stop < r.start := forall_mem_append.mpr ⟨hbefore, htake⟩
      cases ok with
      | false =>
        have habove : ∀ b ∈ n.drop i ++ after.flatten, r.stop < b.start :=
          above_of_passed hgood hfound hi htake (hpast rfl)
        obtain ⟨hins, hnodes⟩ := insertAtIdx_spec r hi hn hafter
        rw [hsplit] at hc hflat hlen
        have hadd : rl.addAt before (n :: after) r =
            (⟨before ++ (insertAtIdx n after r i).1 :: (insertAtIdx n after r i).2, rl.len + 1⟩, true) := by
          simp only [addAt, hidx]
        rw [hadd]
        refine added_of_ranges hflat (by rw [flatten_append, hins, append_assoc])
          (buckets_of_parts hfound.used hroom hnodes) ?_ (canonical_between hc hr hbelow habove)
        rw [hlen]
        simp only [length_append, length_cons]
        omega
      | true =>
        obtain ⟨nr, hget, hnotBefore, hnotAfter⟩ := hover rfl
        obtain ⟨hlt, hnr⟩ := List.getElem?_eq_some_iff.mp hget
        have hdrop : n.drop i = nr :: n.drop (i + 1) := by rw [drop_eq_getElem_cons hlt, hnr]
        have hoverlaps : nr.overlapsInclusive r = true := (overlaps_iff true nr r).mpr ⟨hnotBefore, hnotAfter⟩
        rw [hsplit, hdrop, cons_append] at hc hflat hlen
        simp only [addAt, hidx, hget]
        by_cases hcontains : nr.contains r = true
        · have hsub : r.keys ⊆ cover rl.nodes.flatten :=
            (hgood.canonical.subset_iff hr).mpr ⟨nr, by rw [hflat]; simp, hcontains⟩
          simp only [hcontains, if_true]
          exact ⟨hgood, (Set.union_eq_self_of_subset_right hsub).symm, by simp [hsub]⟩
        · simp only [hcontains, Bool.false_eq_true, if_false]
          exact mergeAt_added hgood hr hfound hlt hbelow hoverlaps hcontains hflat

/-- The buckets with a range put at the end of the one before those found. -/
theorem push_spec (hgood : rl.Good) {prev : Node α} {init : List (Node α)}
    (hfound : Found r true rl.nodes (init ++ [prev]) rest inCur) (hfull : prev.full = false) :
    Buckets (init ++ (prev ++ [r]) :: rest) ∧
      (init ++ (prev ++ [r]) :: rest).flatten = (init ++ [prev]).flatten ++ r :: rest.flatten := by
  have hroom := hgood.buckets.room
  have hused := hgood.buckets.all_used (by simp [hfound.split]) (hfound.used prev (by simp))
  rw [hfound.split] at hroom hused
  have hlen : prev.length ≠ rangeListNodeBucketSize := by simpa [Node.full] using hfull
  have hle := hroom prev (by simp)
  simp only [forall_mem_append, forall_mem_cons] at hused hroom
  refine ⟨⟨.inr (forall_mem_append.mpr ⟨hused.1.1, forall_mem_cons.mpr ⟨by simp, hused.2⟩⟩),
    forall_mem_append.mpr ⟨hroom.1.1, forall_mem_cons.mpr ⟨?_, hroom.2⟩⟩⟩, by simp⟩
  rw [length_append, length_cons, length_nil]
  omega

/-- The first range of the bucket found, if the new range does not reach into it. -/
theorem first_of_found (hfound : Found r true nodes before rest inCur) (hin : inCur = false)
    (hused : ∀ n ∈ rest, n ≠ []) : rest = [] ∨ ∃ n after first, rest = n :: after ∧ n.head? = some first ∧
      r.stop ≤ first.start := by
  cases rest with
  | nil => exact .inl rfl
  | cons n after =>
    obtain ⟨first, _, hfirst, _, _, hcur⟩ := hfound.current n after rfl (hused n mem_cons_self)
    refine .inr ⟨n, after, first, rfl, hfirst, ?_⟩
    rw [hin] at hcur
    have hnot := of_decide_eq_false hcur.symm
    simp only [if_true] at hnot
    rw [compare_le_neg_one] at hnot
    exact not_lt.mp hnot

/-- `Add` is right unless the range touches the bucket after the one it is put in. -/
theorem add_added (hgood : rl.Good) (hr : r.Valid) (htouches : ¬ rl.TouchesNext r) :
    Added rl r (rl.add r).1 (rl.add r).2 := by
  unfold add
  cases hf : findNode r true [] rl.nodes with
  | mk before p =>
    obtain ⟨rest, inCur⟩ := p
    have hfound := findNode_spec hgood.canonical hf
    simp only
    cases hprev : before.getLast? with
    | none => exact addAt_added hgood hr hfound
    | some prev =>
      simp only
      by_cases hpush : ¬ inCur = true ∧ ¬ prev.full = true
      · rw [if_pos hpush]
        obtain ⟨init, rfl⟩ := getLast?_eq_some_iff.mp hprev
        have hfull : prev.full = false := by simpa using hpush.2
        obtain ⟨hbuckets, hflat'⟩ := push_spec (r := r) hgood hfound hfull
        have hflat : rl.nodes.flatten = (init ++ [prev]).flatten ++ rest.flatten := by
          rw [hfound.split, flatten_append]
        have hc := hflat ▸ hgood.canonical
        have habove : ∀ b ∈ rest.flatten, r.stop < b.start := by
          have hused : ∀ n ∈ rest, n ≠ [] := fun n hn =>
            hbuckets.all_used (n := prev ++ [r]) (by simp) (by simp) n (by simp [hn])
          rcases first_of_found hfound (by simpa using hpush.1) hused with hnil | h
          · simp [hnil]
          obtain ⟨n, after, first, rfl, hfirst, hle⟩ := h
          have hlt : r.stop < first.start := by
            refine lt_of_le_of_ne hle fun heq => htouches ⟨⟨prev, ?_, hfull⟩, n, ?_, first, hfirst, heq.symm⟩
            · rw [hf]
              exact hprev
            · rw [hf]
              rfl
          intro b hb
          have hhead : (n :: after).flatten.head? = some first := by
            obtain ⟨slots, rfl⟩ := head?_eq_some_iff.mp hfirst
            rfl
          have hcrest := (canonical_append.mp hc).2.1
          rcases hcrest.above_head hhead hb with heq | hgt
          · exact heq ▸ hlt
          · exact hlt.trans (lt_trans (hcrest.valid first (mem_of_head? hhead)) hgt)
        rw [dropLast_concat]
        refine added_of_ranges hflat hflat' hbuckets ?_ (canonical_between hc hr hfound.earlier habove)
        rw [hgood.len, hflat]
        simp only [length_append, length_cons]
        omega
      · rw [if_neg hpush]
        exact addAt_added hgood hr hfound

/-- A range put before a bucket that it touches is not merged with what is there. -/
theorem add_touching (hgood : rl.Good) (htouches : rl.TouchesNext r) :
    Buckets (rl.add r).1.nodes ∧ ¬ Canonical (rl.add r).1.nodes.flatten := by
  unfold TouchesNext at htouches
  unfold add
  cases hf : findNode r true [] rl.nodes with
  | mk before p =>
    obtain ⟨rest, inCur⟩ := p
    rw [hf] at htouches
    obtain ⟨⟨prev, hprev, hfull⟩, n, hn, first, hfirst, heq⟩ := htouches
    have hfound := findNode_spec hgood.canonical hf
    obtain ⟨init, rfl⟩ := getLast?_eq_some_iff.mp hprev
    obtain ⟨after, rfl⟩ := head?_eq_some_iff.mp hn
    obtain ⟨slots, rfl⟩ := head?_eq_some_iff.mp hfirst
    have hin : inCur = false := by
      obtain ⟨first', _, hfirst', _, _, hcur⟩ := hfound.current _ after rfl (by simp)
      cases hfirst'
      rw [hcur, heq]
      exact decide_eq_false fun hlt => absurd (compare_le_neg_one.mp hlt) (lt_irrefl _)
    obtain ⟨hbuckets, hflat'⟩ := push_spec (r := r) hgood hfound hfull
    simp only [getLast?_concat, hin, hfull, Bool.false_eq_true, not_false_eq_true, and_self, if_true, dropLast_concat]
    refine ⟨hbuckets, fun hc => ?_⟩
    rw [hflat'] at hc
    have hlt := (canonical_cons.mp (canonical_append.mp hc).2.1).2.1 first (by simp)
    exact absurd heq (ne_of_gt hlt)

/-! Subtracting. -/

/-- Ranges that a range does not overlap stay as they are. -/
theorem flatMap_minus_self (h : ∀ nr ∈ l, ¬ nr.overlapsExclusive r = true) : l.flatMap r.minus = l := by
  induction l with
  | nil => rfl
  | cons nr l ih =>
    obtain ⟨hnr, hl⟩ := forall_mem_cons.mp h
    rw [flatMap_cons, minus_of_not_overlaps hnr, ih hl]
    rfl

/-- A range after the one that is taken away, and all that follow. -/
theorem flatMap_minus_above (hc : Canonical (nr :: l)) (h : r.stop ≤ nr.start) :
    l.flatMap r.minus = l := by
  obtain ⟨hnr, hbelow, _⟩ := canonical_cons.mp hc
  refine flatMap_minus_self fun b hb => not_overlapsExclusive_of_after (?_ : r.stop ≤ b.start)
  exact h.trans (le_of_lt (lt_trans hnr (hbelow b hb)))

/-- What the loop leaves of a bucket and the ranges after it. -/
def SubSlots.Leaves (res : SubSlots α) (passed slots following : List (Range α)) (r : Range α) (removed : Nat) : Prop :=
  match res with
  | .done slots' removed' => slots' ++ following = passed ++ (slots ++ following).flatMap r.minus ∧
      slots' ≠ [] ∧ slots'.length + removed' = passed.length + slots.length + removed
  | .split slots' i rSplit removed' =>
      i ≤ slots'.length ∧ slots'.length + removed' = passed.length + slots.length + removed ∧
      slots'.take i ++ rSplit :: (slots'.drop i ++ following) = passed ++ (slots ++ following).flatMap r.minus
  | .ended slots' removed' => slots' = passed ++ slots.flatMap r.minus ∧
      slots'.length + removed' = passed.length + slots.length + removed

/-- One slot more, of which `kept` is left. -/
theorem SubSlots.Leaves.step {res : SubSlots α} {passed passed' slots following : List (Range α)}
    {removed removed' : Nat} (h : res.Leaves passed' slots following r removed') (hminus : passed' = passed ++ r.minus nr)
    (hcount : (r.minus nr).length + removed' = removed + 1) : res.Leaves passed (nr :: slots) following r removed := by
  cases res <;> simp only [SubSlots.Leaves, cons_append, flatMap_cons, hminus, append_assoc, length_append,
    length_cons] at h ⊢
  · exact ⟨h.1, h.2.1, by omega⟩
  · exact ⟨h.1, by omega, h.2.2⟩
  · exact ⟨h.1, by omega⟩

theorem subSlots_leaves {following : List (Range α)} : ∀ {slots : List (Range α)} (passed : List (Range α))
    (removed : Nat), Canonical (slots ++ following) → (∀ nr ∈ slots, r.start < nr.stop) →
      (subSlots r removed passed slots).Leaves passed slots following r removed
  | [], passed, removed, _, _ => by simp [subSlots, SubSlots.Leaves]
  | nr :: slots, passed, removed, hc, hreach => by
    rw [cons_append] at hc
    obtain ⟨hnr, hbelow, hc'⟩ := canonical_cons.mp hc
    obtain ⟨hstart, hreach'⟩ := forall_mem_cons.mp hreach
    rw [subSlots]
    by_cases hover : nr.overlapsExclusive r = true
    · rw [if_neg (not_not.mpr hover)]
      have hmatch : decide (compare nr.start r.start ≥ 0) = decide (r.start ≤ nr.start) :=
        decide_eq_decide.mpr zero_le_compare
      have hmatch' : decide (compare nr.stop r.stop ≤ 0) = decide (nr.stop ≤ r.stop) :=
        decide_eq_decide.mpr compare_le_zero
      rw [hmatch, hmatch']
      -- A range that reaches past the end of the one taken away is the last it overlaps.
      have hrest : ¬ nr.stop ≤ r.stop → (slots ++ following).flatMap r.minus = slots ++ following := by
        intro hle
        refine flatMap_minus_self fun b hb => not_overlapsExclusive_of_after (?_ : r.stop ≤ b.start)
        exact ((not_le.mp hle).trans (hbelow b hb)).le
      by_cases hs : r.start ≤ nr.start <;> by_cases he : nr.stop ≤ r.stop
      · simp only [hs, he, decide_true]
        have ih := subSlots_leaves passed (removed + 1) hc' hreach'
        have hminus : r.minus nr = [] := by simp [minus, hover, hs, he]
        exact ih.step (by simp [hminus]) (by simp [hminus])
      · simp only [hs, he, decide_true, decide_false, SubSlots.Leaves]
        have hminus : r.minus nr = [⟨r.stop, nr.stop⟩] := by simp [minus, hover, hs, he]
        rw [cons_append, flatMap_cons, hminus, hrest he]
        exact ⟨by simp, by simp, by simp⟩
      · simp only [hs, he, decide_true, decide_false]
        have ih := subSlots_leaves (passed ++ [⟨nr.start, r.start⟩]) removed hc' hreach'
        have hminus : r.minus nr = [⟨nr.start, r.start⟩] := by simp [minus, hover, hs, he]
        exact ih.step (by rw [hminus]) (by simp [hminus, Nat.add_comm])
      · simp only [hs, he, decide_false, SubSlots.Leaves]
        have hminus : r.minus nr = [⟨nr.start, r.start⟩, ⟨r.stop, nr.stop⟩] := by simp [minus, hover, hs, he]
        rw [cons_append, flatMap_cons, hminus, hrest he]
        simp [take_append, take_of_length_le]
    · rw [if_pos hover]
      have hafter : r.stop ≤ nr.start := by
        by_contra hnot
        exact hover (Range.overlapsExclusive_iff.mpr ⟨not_le.mp hnot, hstart⟩)
      simp only [SubSlots.Leaves]
      rw [cons_append, flatMap_cons, minus_of_not_overlaps hover, flatMap_minus_above hc hafter]
      exact ⟨by simp, by simp, by simp⟩

/-- What the loop leaves of the buckets, after `earlier` ranges in the buckets before. -/
structure NodesLeft (r : Range α) (earlier : Nat) (kept todo : List (Range α)) (nodes : List (Node α)) (len : Nat) :
    Prop where
  flat : nodes.flatten = kept ++ todo.flatMap r.minus
  len : len = earlier + nodes.flatten.length
  room : ∀ n ∈ nodes, n.length ≤ rangeListNodeBucketSize
  used : (∀ n ∈ nodes, n ≠ []) ∨ earlier = 0 ∧ nodes = [[]]

theorem subNodes_left : ∀ {after : List (Node α)} {n : Node α} {len earlier i : Nat}, i ≤ n.length →
    n.length ≤ rangeListNodeBucketSize → (∀ n ∈ after, n.Fits) →
    Canonical (n ++ after.flatten) → (∀ nr ∈ n.drop i ++ after.flatten, r.start < nr.stop) →
    len = earlier + (n ++ after.flatten).length →
      NodesLeft r earlier (n.take i) (n.drop i ++ after.flatten) (subNodes r len i (n :: after)).1
        (subNodes r len i (n :: after)).2
  | after, n, len, earlier, i, hi, hn, hafter, hc, hreach, hlen => by
    have hc' : Canonical (n.drop i ++ after.flatten) :=
      hc.sublist (List.Sublist.append (drop_sublist i n) (List.Sublist.refl _))
    have hleaves := subSlots_leaves (n.take i) 0 hc' fun nr hnr =>
      hreach nr (mem_append_left _ hnr)
    have htotal : (n.take i).length + (n.drop i).length = n.length := by
      simp only [length_take, length_drop]
      omega
    rw [length_append] at hlen
    rw [subNodes]
    cases hsub : subSlots r 0 (n.take i) (n.drop i) with
    | done slots removed =>
      rw [hsub] at hleaves
      obtain ⟨hflat, hne, hcount⟩ := hleaves
      simp only
      refine ⟨by rw [flatten_cons, hflat], ?_, ?_, .inl ?_⟩
      · rw [flatten_cons, length_append]
        omega
      · exact forall_mem_cons.mpr ⟨by omega, fun n hn => (hafter n hn).2⟩
      · exact forall_mem_cons.mpr ⟨hne, fun n hn => (hafter n hn).1⟩
    | split slots j rSplit removed =>
      rw [hsub] at hleaves
      obtain ⟨hj, hcount, hflat⟩ := hleaves
      obtain ⟨hins, hnodes⟩ := insertAtIdx_spec rSplit hj (by omega) hafter
      refine ⟨by rw [hins, hflat], ?_, fun n hn => (hnodes n hn).2, .inl fun n hn => (hnodes n hn).1⟩
      rw [hins]
      have htake : (slots.take j).length + (slots.drop j).length = slots.length := by
        simp only [length_take, length_drop]
        omega
      simp only [length_append, length_cons]
      omega
    | ended slots removed =>
      rw [hsub] at hleaves
      obtain ⟨hflat, hcount⟩ := hleaves
      simp only
      have hrest : NodesLeft r (earlier + slots.length) [] after.flatten (subNodes r (len - removed) 0 after).1
          (subNodes r (len - removed) 0 after).2 := by
        cases hafterEq : after with
        | nil =>
          subst hafterEq
          refine ⟨rfl, ?_, by simp [subNodes], .inl (by simp [subNodes])⟩
          simp only [subNodes, flatten_nil, length_nil] at hlen ⊢
          omega
        | cons n' after' =>
          rw [hafterEq] at hafter hc hreach hlen
          obtain ⟨hn', hafter'⟩ := forall_mem_cons.mp hafter
          have hlen' : len - removed = earlier + slots.length + (n' ++ after'.flatten).length := by
            rw [flatten_cons] at hlen
            omega
          have ih := subNodes_left (Nat.zero_le n'.length) hn'.2 hafter' (canonical_append.mp hc).2.1
            (fun nr hnr => hreach nr (mem_append_right _ hnr)) hlen'
          simpa using ih
      have hflat' : slots ++ (subNodes r (len - removed) 0 after).1.flatten =
          n.take i ++ (n.drop i ++ after.flatten).flatMap r.minus := by
        rw [hrest.flat, hflat, nil_append, flatMap_append, append_assoc]
      by_cases hempty : slots = [] ∧ 0 < len - removed
      · rw [if_pos hempty]
        rw [hempty.1] at hflat' hrest
        refine ⟨hflat', ?_, hrest.room, hrest.used⟩
        simpa using hrest.len
      rw [if_neg hempty]
      refine ⟨hflat', ?_, forall_mem_cons.mpr ⟨by omega, hrest.room⟩, ?_⟩
      · rw [flatten_cons, length_append]
        have := hrest.len
        omega
      by_cases hslots : slots = []
      · -- The last range of the group is gone: there is no other bucket.
        have hzero : len - removed = 0 := by
          by_contra hne
          exact hempty ⟨hslots, Nat.pos_of_ne_zero hne⟩
        have hnil : after = [] := by
          cases hafterEq : after with
          | nil => rfl
          | cons n' after' =>
            rw [hafterEq] at hafter hlen
            have hpos := length_pos_iff.mpr (hafter n' mem_cons_self).1
            rw [flatten_cons, length_append] at hlen
            omega
        subst hnil
        refine .inr ⟨?_, by simp [hslots, subNodes]⟩
        omega
      · refine .inl (forall_mem_cons.mpr ⟨hslots, ?_⟩)
        rcases hrest.used with hused | hnone
        · exact hused
        · have hpos := length_pos_iff.mpr hslots
          omega

/-- What `Sub` does to the set. -/
structure Subtracted (rl : RangeList α) (r : Range α) (rl' : RangeList α) (shrank : Bool) : Prop where
  good : rl'.Good
  covers : cover rl'.nodes.flatten = cover rl.nodes.flatten \ r.keys
  shrank : shrank = true ↔ ∃ k, k ∈ r.keys ∧ k ∈ cover rl.nodes.flatten

/-- Ranges that no range of the group overlaps. -/
theorem not_meets (hgood : rl.Good) (hr : r.Valid) (hno : ∀ nr ∈ rl.nodes.flatten, ¬ nr.overlapsExclusive r = true) :
    ¬ ∃ k, k ∈ r.keys ∧ k ∈ cover rl.nodes.flatten := by
  rw [meets_cover_iff hgood.canonical.valid hr]
  intro ⟨a, ha, hover⟩
  exact hno a ha hover

/-- The place of a range for `Sub`, `Overlaps` and `Encloses`: the first range that overlaps
    it, or none does. -/
inductive Place (rl : RangeList α) (r : Range α) : Prop
  | found {before after : List (Node α)} {n : Node α} {i : Nat} {nr : Range α}
      (hfind : findNode r false [] rl.nodes = (before, n :: after, true)) (hidx : n.findIdx r false = (i, true))
      (hget : n[i]? = some nr) (hmem : nr ∈ rl.nodes.flatten) (hfound : Found r false rl.nodes before (n :: after) true)
      (hbelow : ∀ a ∈ before.flatten ++ n.take i, a.stop ≤ r.start) (hover : nr.overlapsExclusive r = true)
  | missed (hsub : rl.sub r = (rl, false)) (hoverlaps : rl.overlaps r = false) (hencloses : rl.encloses r = false)
      (hno : ∀ nr ∈ rl.nodes.flatten, ¬ nr.overlapsExclusive r = true)

theorem Good.place (hgood : rl.Good) (r : Range α) : rl.Place r := by
  cases hf : findNode r false [] rl.nodes with
  | mk before p =>
    obtain ⟨rest, inCur⟩ := p
    have hfound := findNode_spec hgood.canonical hf
    have hflat : rl.nodes.flatten = before.flatten ++ rest.flatten := by rw [hfound.split, flatten_append]
    -- Nothing is overlapped if what follows the buckets passed is after the range.
    have hnone : (∀ b ∈ rest.flatten, ¬ b.overlapsExclusive r = true) →
        ∀ nr ∈ rl.nodes.flatten, ¬ nr.overlapsExclusive r = true := by
      intro hrest nr hnr
      rw [hflat] at hnr
      rcases mem_append.mp hnr with hnr | hnr
      · exact not_overlapsExclusive_of_before (hfound.earlier nr hnr)
      · exact hrest nr hnr
    cases rest with
    | nil => exact .missed (by simp [sub, hf]) (by simp [overlaps, hf]) (by simp [encloses, hf]) (hnone (by simp))
    | cons n after =>
      obtain ⟨hi, htake, hover, hpast⟩ := Node.findIdx_spec r false n
      cases inCur with
      | false =>
        refine .missed (by simp [sub, hf]) (by simp [overlaps, hf]) (by simp [encloses, hf]) (hnone fun b hb => ?_)
        have hafter := above_of_passed hgood hfound (Nat.zero_le _) (by simp) fun nr hnr => by
          have hn : n ≠ [] := by
            intro hn
            rw [hn] at hnr
            cases hnr
          obtain ⟨first, _, hfirst, _, _, hcur⟩ := hfound.current n after rfl hn
          have hnot := of_decide_eq_false hcur.symm
          rw [← head?_eq_getElem?, hfirst] at hnr
          cases hnr
          simp only [Bool.false_eq_true, if_false] at hnot
          rw [compare_le_zero] at hnot
          exact (not_le.mp hnot).le
        exact not_overlapsExclusive_of_after (hafter b (by simpa using hb))
      | true =>
        cases hidx : n.findIdx r false with
        | mk i ok =>
          rw [hidx] at hi htake hover hpast
          cases ok with
          | false =>
            refine .missed (by simp [sub, hf, hidx]) (by simp [overlaps, hf, hidx]) (by simp [encloses, hf, hidx])
              (hnone fun b hb => ?_)
            have hafter := above_of_passed hgood hfound hi htake (hpast rfl)
            rw [flatten_cons, ← take_append_drop i n, append_assoc] at hb
            rcases mem_append.mp hb with hb | hb
            · exact not_overlapsExclusive_of_before (htake b hb)
            · exact not_overlapsExclusive_of_after (hafter b hb)
          | true =>
            obtain ⟨nr, hget, hboth⟩ := hover rfl
            have hmem : nr ∈ rl.nodes.flatten := by simp [hfound.split, mem_of_getElem? hget]
            exact .found hf hidx hget hmem hfound (forall_mem_append.mpr ⟨hfound.earlier, htake⟩)
              ((overlaps_iff false nr r).mpr hboth)

theorem sub_subtracted (hgood : rl.Good) (hr : r.Valid) : Subtracted rl r (rl.sub r).1 (rl.sub r).2 := by
  cases hgood.place r with
  | missed hsub _ _ hno =>
    rw [hsub]
    have hmeets := not_meets hgood hr hno
    refine ⟨hgood, ?_, iff_of_false Bool.false_ne_true hmeets⟩
    exact (sdiff_eq_left.mpr (Set.disjoint_left.mpr fun k hk hkr => hmeets ⟨k, hkr, hk⟩)).symm
  | @found before after n i nr hfind hidx hget hmem hfound hbelow hover =>
    obtain ⟨hn, hroom, hafter⟩ := hgood.after hfound.split
    obtain ⟨hlt, hnr⟩ := List.getElem?_eq_some_iff.mp hget
    have hdrop : n.drop i = nr :: n.drop (i + 1) := by rw [drop_eq_getElem_cons hlt, hnr]
    have hflat : rl.nodes.flatten = (before.flatten ++ n.take i) ++ (n.drop i ++ after.flatten) := by
      rw [hfound.split, flatten_append, flatten_cons, append_assoc, ← append_assoc (n.take i), take_append_drop]
    have hc : Canonical (n ++ after.flatten) := by
      have := hgood.canonical
      rw [hfound.split, flatten_append, flatten_cons] at this
      exact (canonical_append.mp this).2.1
    have hreach : ∀ b ∈ n.drop i ++ after.flatten, r.start < b.stop := by
      have hc' : Canonical (nr :: (n.drop (i + 1) ++ after.flatten)) := by
        rw [← cons_append, ← hdrop]
        exact hc.sublist (List.Sublist.append (drop_sublist i n) (List.Sublist.refl _))
      obtain ⟨_, habove, hvalid⟩ := canonical_cons.mp hc'
      obtain ⟨_, hstart⟩ := Range.overlapsExclusive_iff.mp hover
      rw [hdrop, cons_append]
      exact forall_mem_cons.mpr ⟨hstart, fun b hb => hstart.trans ((habove b hb).trans (hvalid.valid b hb))⟩
    have hlen : rl.len = before.flatten.length + (n ++ after.flatten).length := by
      rw [hgood.len, hfound.split]
      simp
    have hleft := subNodes_left hlt.le hn hafter hc hreach hlen
    have hsub : rl.sub r = (⟨before ++ (subNodes r rl.len i (n :: after)).1, (subNodes r rl.len i (n :: after)).2⟩,
        true) := by
      simp only [sub, hfind, hidx]
    rw [hsub]
    generalize subNodes r rl.len i (n :: after) = res at hleft
    obtain ⟨nodes, len⟩ := res
    -- The ranges before are left alone.
    have hflat' : (before ++ nodes).flatten = rl.nodes.flatten.flatMap r.minus := by
      have hself : (before.flatten ++ n.take i).flatMap r.minus = before.flatten ++ n.take i :=
        flatMap_minus_self fun a ha => not_overlapsExclusive_of_before (hbelow a ha)
      rw [hflat, flatMap_append, hself, flatten_append, hleft.flat, append_assoc]
    obtain ⟨hcanonical, hcovers⟩ := hgood.canonical.minus hr
    refine ⟨⟨⟨?_, forall_mem_append.mpr ⟨hroom, hleft.room⟩⟩, hflat' ▸ hcanonical, ?_⟩, hflat' ▸ hcovers, ?_⟩
    · rcases hleft.used with hused | hone
      · exact .inr (forall_mem_append.mpr ⟨hfound.used, hused⟩)
      have hnil : before = [] := by
        cases hb : before with
        | nil => rfl
        | cons n' before' =>
          have hpos := length_pos_iff.mpr (hfound.used n' (by simp [hb]))
          have hzero := hone.1
          rw [hb, flatten_cons, length_append] at hzero
          omega
      exact .inl (by rw [hnil, hone.2]; rfl)
    · rw [flatten_append, length_append]
      exact hleft.len
    · rw [meets_cover_iff hgood.canonical.valid hr]
      exact iff_of_true rfl ⟨nr, hmem, hover⟩

/-! Queries. -/

theorem overlaps_iff_meets (hgood : rl.Good) (hr : r.Valid) :
    rl.overlaps r = true ↔ ∃ k, k ∈ r.keys ∧ k ∈ cover rl.nodes.flatten := by
  cases hgood.place r with
  | missed _ hoverlaps _ hno =>
    rw [hoverlaps]
    exact iff_of_false Bool.false_ne_true (not_meets hgood hr hno)
  | found hfind hidx _ hmem _ _ hover =>
    rw [meets_cover_iff hgood.canonical.valid hr]
    exact iff_of_true (by simp [overlaps, hfind, hidx]) ⟨_, hmem, hover⟩

theorem encloses_iff_subset (hgood : rl.Good) (hr : r.Valid) :
    rl.encloses r = true ↔ r.keys ⊆ cover rl.nodes.flatten := by
  cases hgood.place r with
  | missed _ _ hencloses hno =>
    rw [hencloses]
    refine ⟨fun h => absurd h (by simp), fun hsub => ?_⟩
    exact absurd ⟨r.start, hr.start_mem, hsub hr.start_mem⟩ (not_meets hgood hr hno)
  | @found _ _ n i nr hfind hidx hget hmem _ _ hover =>
    have heq : rl.encloses r = nr.contains r := by simp [encloses, hfind, hidx, hget]
    rw [heq, hgood.canonical.subset_iff hr]
    refine ⟨fun h => ⟨nr, hmem, h⟩, fun ⟨a, ha, hcontains⟩ => ?_⟩
    obtain ⟨hlo, hhi⟩ := Range.contains_iff.mp hcontains
    obtain ⟨hover₁, hover₂⟩ := Range.overlapsExclusive_iff.mp hover
    rcases hgood.canonical.eq_or_apart ha hmem with heq | hne
    · exact heq ▸ hcontains
    rcases hne with hlt | hlt
    · exact absurd (hhi.trans_lt hlt) (not_lt.mpr hover₁.le)
    · exact absurd (hlt.trans_le hlo) (not_lt.mpr hover₂.le)

omit [LinearOrder α] in
/-- An iterator in the middle of a bucket. -/
theorem drain_eq : ∀ (steps : Nat) {n : Node α} {after : List (Node α)} {idx : Nat}, idx < n.length →
    (∀ n ∈ after, n ≠ []) → (n.drop idx ++ after.flatten).length ≤ steps →
      drain (steps + 1) (n :: after, idx) = n.drop idx ++ after.flatten
  | steps, n, after, idx, hidx, hafter, hsteps => by
    rw [drain, iteratorNext, getElem?_eq_getElem hidx, drop_eq_getElem_cons hidx]
    simp only [cons_append, List.cons.injEq, true_and]
    rw [drop_eq_getElem_cons hidx, cons_append, length_cons] at hsteps
    obtain ⟨steps, rfl⟩ : ∃ steps', steps = steps' + 1 := ⟨steps - 1, by omega⟩
    by_cases hend : n.length ≤ idx + 1
    · rw [if_pos hend, drop_eq_nil_of_le hend, nil_append]
      cases hafterEq : after with
      | nil => rfl
      | cons n' after' =>
        rw [hafterEq] at hafter hsteps
        obtain ⟨hn', hafter'⟩ := forall_mem_cons.mp hafter
        have ih := drain_eq steps (length_pos_iff.mpr hn') hafter' (by
          simp only [length_append, flatten_cons, drop_zero] at hsteps ⊢
          omega)
        simpa using ih
    · rw [if_neg hend]
      exact drain_eq steps (not_le.mp hend) hafter (by omega)

omit [LinearOrder α] in
theorem iterate_eq (h : Buckets rl.nodes) : rl.iterate = rl.nodes.flatten := by
  unfold iterate
  rcases h.used with hone | hused
  · rw [hone]
    rfl
  cases hn : rl.nodes with
  | nil => rfl
  | cons n after =>
    rw [hn] at hused
    obtain ⟨hne, hafter⟩ := forall_mem_cons.mp hused
    have := drain_eq (n :: after).flatten.length (length_pos_iff.mpr hne) hafter (by simp)
    simpa using this

end RangeList

end

end Ratel.Interval
