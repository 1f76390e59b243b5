import Ratel.Encoding
import Ratel.Interval.RangeListSpec

/- Range groups over whole runs of `Add` and `Sub`. A `RangeTree` stands for the set that
   union and difference make in every run. A `RangeList` does, and answers like the tree,
   exactly as long as no `Add` puts a range before a bucket that it touches
   (`rangeList_correct_iff`). -/
namespace Ratel.Interval

open Lib Encoding List RangeList Range
open RangeTree hiding new

section
variable {α : Type} [LinearOrder α] {r nr : Range α}

/-! Trees. -/

namespace RangeTree

theorem insert_eq {u : List (Range α)} (hr : r.Valid) (hu : ∀ a ∈ u, r.stop < a.start) :
    ∀ {l : List (Range α)}, (∀ a ∈ l, a.Valid) → (∀ a ∈ l, a.stop < r.start) → insert r (l ++ u) = l ++ r :: u
  | [], _, _ => by
    cases u with
    | nil => rfl
    | cons a u =>
      have hlt : r.start < a.start := lt_trans hr (hu a mem_cons_self)
      simp [insert, not_lt.mpr hlt.le]
  | a :: l, hvalid, hl => by
    obtain ⟨hva, hvalid⟩ := forall_mem_cons.mp hvalid
    obtain ⟨ha, hl⟩ := forall_mem_cons.mp hl
    rw [cons_append, insert, if_pos (lt_trans hva ha), insert_eq hr hu hvalid hl, cons_append]

/-- Merging the ranges that overlap, one after the other, stops where they end. -/
theorem mergeSlots_eq_foldl {u : List (Range α)} : ∀ {others : List (Range α)} {newR : Range α},
    newR.start ≤ r.start → r.stop ≤ newR.stop → (∀ a ∈ others, a.overlapsInclusive r = true) →
    (∀ b ∈ u, newR.stop < b.start) → (∀ a ∈ others, ∀ b ∈ u, a.stop < b.start) →
      mergeSlots newR (others ++ u) = (others.foldl Range.merge newR, u, others.length)
  | [], newR, _, _, _, hu, _ => by
    cases u with
    | nil => rfl
    | cons b u =>
      have hnot : ¬ newR.overlapsInclusive b = true := fun h =>
        absurd (Range.overlapsInclusive_iff.mp h).2 (not_le.mpr (hu b mem_cons_self))
      simp [mergeSlots, hnot]
  | a :: others, newR, hstart, hstop, hover, hu, hbelow => by
    obtain ⟨ha, hover⟩ := forall_mem_cons.mp hover
    obtain ⟨hau, hbelow⟩ := forall_mem_cons.mp hbelow
    obtain ⟨h₁, h₂⟩ := Range.overlapsInclusive_iff.mp ha
    have hnew : newR.overlapsInclusive a = true :=
      Range.overlapsInclusive_iff.mpr ⟨hstart.trans h₂, h₁.trans hstop⟩
    have hstart' : (newR.merge a).start ≤ r.start := by
      rw [merge_start]
      exact (min_le_left _ _).trans hstart
    have hstop' : r.stop ≤ (newR.merge a).stop := by
      rw [merge_stop]
      exact hstop.trans (le_max_left _ _)
    have hu' : ∀ b ∈ u, (newR.merge a).stop < b.start := by
      intro b hb
      rw [merge_stop]
      exact max_lt (hu b hb) (hau b hb)
    rw [cons_append, mergeSlots, if_pos hnew, mergeSlots_eq_foldl hstart' hstop' hover hu' hbelow]
    rfl

variable {rt : RangeTree α}

theorem add_spec (hc : Canonical rt.ranges) (hr : r.Valid) : Canonical (rt.add r).1.ranges ∧
    cover (rt.add r).1.ranges = cover rt.ranges ∪ r.keys ∧ ((rt.add r).2 = true ↔ ¬ r.keys ⊆ cover rt.ranges) := by
  obtain ⟨l, m, u, hsplit, hl, hm, hu⟩ := hc.parts r
  have hc' := hsplit ▸ hc
  obtain ⟨hcl, hcmu, hlmu⟩ := canonical_append.mp hc'
  obtain ⟨hcm, _, hmu⟩ := canonical_append.mp hcmu
  have hfilter : rt.ranges.filter (·.overlapsInclusive r) = m := by
    have hlnil : l.filter (·.overlapsInclusive r) = [] := filter_eq_nil_iff.mpr fun a ha hover =>
      absurd (hl a ha) (not_lt.mpr (Range.overlapsInclusive_iff.mp hover).2)
    have hunil : u.filter (·.overlapsInclusive r) = [] := filter_eq_nil_iff.mpr fun a ha hover =>
      absurd (hu a ha) (not_lt.mpr (Range.overlapsInclusive_iff.mp hover).1)
    rw [hsplit, filter_append, filter_append, hlnil, hunil, nil_append, append_nil, filter_eq_self.mpr hm]
  unfold add
  rw [hfilter]
  cases m with
  | nil =>
    simp only [nil_append] at hsplit hc'
    rw [hsplit, insert_eq hr hu hcl.valid hl]
    obtain ⟨h₁, h₂, h₃⟩ := canonical_between hc' hr hl hu
    exact ⟨h₁, h₂, by simpa using h₃⟩
  | cons first others =>
    obtain ⟨hfirst, hothers⟩ := forall_mem_cons.mp hm
    simp only
    by_cases hcontains : first.contains r = true
    · rw [if_pos hcontains]
      have hsub : r.keys ⊆ cover rt.ranges :=
        (hc.subset_iff hr).mpr ⟨first, by rw [hsplit]; simp, hcontains⟩
      exact ⟨hc, (Set.union_eq_self_of_subset_right hsub).symm, by simp [hsub]⟩
    rw [if_neg hcontains]
    rw [cons_append] at hsplit hc'
    have hnodup := hc.nodup
    rw [hsplit] at hnodup
    -- Of the ranges that overlap only the first stays.
    have hranges : ((rt.ranges.filter (· ∉ others)).map fun nr =>
        if nr = first then others.foldl Range.merge (first.merge r) else nr) =
          l ++ others.foldl Range.merge (first.merge r) :: u := by
      obtain ⟨hnl, hnm, hdisj⟩ := nodup_append.mp hnodup
      obtain ⟨hfirst', hnou⟩ := nodup_cons.mp hnm
      obtain ⟨_, _, hou⟩ := nodup_append.mp hnou
      have hlf : l.filter (· ∉ others) = l := filter_eq_self.mpr fun a ha => by
        simpa using fun hmem => hdisj a ha a (by simp [hmem]) rfl
      have huf : u.filter (· ∉ others) = u := filter_eq_self.mpr fun a ha => by
        simpa using fun hmem => hou a hmem a ha rfl
      have hof : others.filter (· ∉ others) = [] := filter_eq_nil_iff.mpr fun a ha => by simp [ha]
      have hff : first ∉ others := fun hmem => hfirst' (by simp [hmem])
      have hlm : (l.map fun nr => if nr = first then others.foldl Range.merge (first.merge r) else nr) = l := by
        refine (map_congr_left fun a ha => if_neg fun heq => ?_).trans (map_id l)
        exact hdisj a ha a (by simp [heq]) rfl
      have hum : (u.map fun nr => if nr = first then others.foldl Range.merge (first.merge r) else nr) = u := by
        refine (map_congr_left fun a ha => if_neg fun heq => ?_).trans (map_id u)
        exact hfirst' (by simp [← heq, ha])
      rw [hsplit, filter_append, filter_cons_of_pos (by simpa using hff), filter_append, hlf, huf, hof,
        nil_append, map_append, map_cons, hlm, hum, if_pos rfl]
    have hmerge : mergeSlots (first.merge r) (others ++ u) =
        (others.foldl Range.merge (first.merge r), u, others.length) := by
      obtain ⟨_, hfo, _⟩ := canonical_cons.mp (canonical_append.mp hc').2.1
      refine mergeSlots_eq_foldl (r := r) ?_ ?_ hothers (fun b hb => ?_) fun a ha b hb => hmu a (by simp [ha]) b hb
      · rw [merge_start]
        exact min_le_right _ _
      · rw [merge_stop]
        exact le_max_right _ _
      · rw [merge_stop]
        exact max_lt (hfo b (by simp [hb])) (hu b hb)
    have hmerged := mergeSlots_from (canonical_append.mp hc').2.1 r
    rw [hmerge] at hmerged
    obtain ⟨h₁, h₂, h₃⟩ := merged_added hr hc' hl hfirst hcontains hmerged
    rw [hranges, hsplit]
    exact ⟨h₁, h₂, by simpa using h₃⟩

theorem filter_overlaps_eq_nil (hc : Canonical rt.ranges) (hr : r.Valid) :
    rt.ranges.filter (·.overlapsExclusive r) = [] ↔ ¬ ∃ k, k ∈ r.keys ∧ k ∈ cover rt.ranges := by
  rw [meets_cover_iff hc.valid hr, filter_eq_nil_iff]
  exact ⟨fun h ⟨a, ha, hover⟩ => h a ha hover, fun h a ha hover => h ⟨a, ha, hover⟩⟩

theorem sub_spec (hc : Canonical rt.ranges) (hr : r.Valid) : Canonical (rt.sub r).1.ranges ∧
    cover (rt.sub r).1.ranges = cover rt.ranges \ r.keys ∧
      ((rt.sub r).2 = true ↔ ∃ k, k ∈ r.keys ∧ k ∈ cover rt.ranges) := by
  unfold sub
  by_cases hnil : rt.ranges.filter (·.overlapsExclusive r) = []
  · have hmeets := (filter_overlaps_eq_nil hc hr).mp hnil
    rw [if_pos hnil]
    refine ⟨hc, ?_, ⟨fun h => absurd h (by simp), fun h => absurd h hmeets⟩⟩
    exact (sdiff_eq_left.mpr (Set.disjoint_left.mpr fun k hk hkr => hmeets ⟨k, hkr, hk⟩)).symm
  · have hmeets := not_not.mp fun h => hnil ((filter_overlaps_eq_nil hc hr).mpr h)
    rw [if_neg hnil]
    exact ⟨(hc.minus hr).1, (hc.minus hr).2, ⟨fun _ => hmeets, fun _ => rfl⟩⟩

theorem overlaps_iff_meets (hc : Canonical rt.ranges) (hr : r.Valid) :
    rt.overlaps r = true ↔ ∃ k, k ∈ r.keys ∧ k ∈ cover rt.ranges := by
  unfold overlaps
  rw [decide_eq_true_iff, length_pos_iff, ne_eq, filter_overlaps_eq_nil hc hr, not_not]

/-- A range that lies in one of the ranges overlaps no other. -/
theorem encloses_iff_subset (hc : Canonical rt.ranges) (hr : r.Valid) :
    rt.encloses r = true ↔ r.keys ⊆ cover rt.ranges := by
  rw [hc.subset_iff hr]
  unfold encloses
  constructor
  · intro h
    split at h
    · rename_i first hfilter
      have hmem : first ∈ rt.ranges.filter (·.overlapsExclusive r) := by simp [hfilter]
      exact ⟨first, mem_of_mem_filter hmem, h⟩
    · cases h
  intro ⟨a, ha, hcontains⟩
  obtain ⟨hlo, hhi⟩ := Range.contains_iff.mp hcontains
  have hover : a.overlapsExclusive r = true :=
    Range.overlapsExclusive_iff.mpr ⟨lt_of_le_of_lt hlo hr, lt_of_lt_of_le hr hhi⟩
  have honly : ∀ b ∈ rt.ranges.filter (·.overlapsExclusive r), b = a := by
    intro b hb
    obtain ⟨hbmem, hbover⟩ := mem_filter.mp hb
    obtain ⟨h₁, h₂⟩ := Range.overlapsExclusive_iff.mp hbover
    refine (hc.eq_or_apart hbmem ha).resolve_right fun hne => ?_
    rcases hne with hlt | hlt
    · exact absurd (hlt.trans_le hlo) (not_lt.mpr h₂.le)
    · exact absurd (hhi.trans_lt hlt) (not_lt.mpr h₁.le)
  have hfilter : rt.ranges.filter (·.overlapsExclusive r) = [a] := by
    have hnodup := hc.nodup.filter (·.overlapsExclusive r)
    cases hf : rt.ranges.filter (·.overlapsExclusive r) with
    | nil =>
      have hmem : a ∈ rt.ranges.filter (·.overlapsExclusive r) := mem_filter.mpr ⟨ha, hover⟩
      rw [hf] at hmem
      cases hmem
    | cons b rest =>
      rw [hf] at honly hnodup
      have hb := honly b mem_cons_self
      have hrest : rest = [] := by
        cases rest with
        | nil => rfl
        | cons b' rest =>
          have hb' := honly b' (by simp)
          exact absurd (by simp [hb, hb']) (nodup_cons.mp hnodup).1
      rw [hb, hrest]
  rw [hfilter]
  exact hcontains

end RangeTree

/-! Runs. -/

/-- An operation on a range that is neither empty nor inverted. -/
inductive Op (α : Type) [LinearOrder α]
  | add (r : Range α) (valid : r.Valid)
  | sub (r : Range α) (valid : r.Valid)

/-- What an operation makes of a set. -/
def Op.on (s : Set α) : Op α → Set α
  | .add r _ => s ∪ r.keys
  | .sub r _ => s \ r.keys

def RangeList.apply (rl : RangeList α) : Op α → RangeList α × Bool
  | .add r _ => rl.add r
  | .sub r _ => rl.sub r

def RangeTree.apply (rt : RangeTree α) : Op α → RangeTree α × Bool
  | .add r _ => rt.add r
  | .sub r _ => rt.sub r

/-- A group stands for a set: it yields the maximal ranges of the set in order, knows their
    number, and answers as the set does. -/
structure Represents (iteration : List (Range α)) (len : Nat) (overlaps encloses : Range α → Bool) (s : Set α) : Prop where
  canonical : Canonical iteration
  covers : cover iteration = s
  len : len = iteration.length
  overlaps : ∀ r, r.Valid → (overlaps r = true ↔ ∃ k, k ∈ r.keys ∧ k ∈ s)
  encloses : ∀ r, r.Valid → (encloses r = true ↔ r.keys ⊆ s)

def RangeList.Stands (rl : RangeList α) (s : Set α) : Prop := Represents rl.iterate rl.len rl.overlaps rl.encloses s

def RangeTree.Stands (rt : RangeTree α) (s : Set α) : Prop :=
  Represents rt.ranges rt.ranges.length rt.overlaps rt.encloses s

/-- A list and a tree answer alike. -/
structure Alike (rl : RangeList α) (rt : RangeTree α) : Prop where
  iteration : rl.iterate = rt.ranges
  len : rl.len = rt.ranges.length
  overlaps : ∀ r : Range α, r.Valid → rl.overlaps r = rt.overlaps r
  encloses : ∀ r : Range α, r.Valid → rl.encloses r = rt.encloses r

/-- In every state of a run the list stands for the set and answers like the tree, and every
    operation of either returns whether the set changed. -/
def RunCorrect (rl : RangeList α) (rt : RangeTree α) (s : Set α) : List (Op α) → Prop
  | [] => rl.Stands s ∧ Alike rl rt
  | op :: ops => rl.Stands s ∧ Alike rl rt ∧ ((rl.apply op).2 = true ↔ op.on s ≠ s) ∧ (rl.apply op).2 = (rt.apply op).2 ∧
      RunCorrect (rl.apply op).1 (rt.apply op).1 (op.on s) ops

/-- No `Add` of a run puts a range before a bucket that it touches. -/
def NeverTouches (rl : RangeList α) : List (Op α) → Prop
  | [] => True
  | .add r valid :: ops => ¬ rl.TouchesNext r ∧ NeverTouches (rl.apply (.add r valid)).1 ops
  | .sub r valid :: ops => NeverTouches (rl.apply (.sub r valid)).1 ops

variable {rl : RangeList α} {rt : RangeTree α} {s : Set α}

theorem RangeList.Good.stands (h : rl.Good) : rl.Stands (cover rl.nodes.flatten) := by
  have hiter := iterate_eq h.buckets
  refine ⟨hiter ▸ h.canonical, hiter ▸ rfl, hiter ▸ h.len, fun r hr => overlaps_iff_meets h hr, fun r hr => ?_⟩
  exact encloses_iff_subset h hr

theorem RangeTree.stands (h : Canonical rt.ranges) : rt.Stands (cover rt.ranges) :=
  ⟨h, rfl, rfl, fun _ hr => overlaps_iff_meets h hr, fun _ hr => encloses_iff_subset h hr⟩

/-- Groups that stand for the same set answer alike. -/
theorem alike_of_stands (h : rl.Stands s) (h' : rt.Stands s) : Alike rl rt := by
  have hiter : rl.iterate = rt.ranges := h.canonical.ext h'.canonical (h.covers.trans h'.covers.symm)
  refine ⟨hiter, h.len.trans (congrArg _ hiter), fun r hr => ?_, fun r hr => ?_⟩
  · exact Bool.eq_iff_iff.mpr ((h.overlaps r hr).trans (h'.overlaps r hr).symm)
  · exact Bool.eq_iff_iff.mpr ((h.encloses r hr).trans (h'.encloses r hr).symm)

theorem on_add_ne (s : Set α) (r : Range α) (valid : r.Valid) : (Op.add r valid).on s ≠ s ↔ ¬ r.keys ⊆ s := by
  rw [Op.on, ne_eq, Set.union_eq_left]

theorem on_sub_ne (s : Set α) (r : Range α) (valid : r.Valid) :
    (Op.sub r valid).on s ≠ s ↔ ∃ k, k ∈ r.keys ∧ k ∈ s := by
  rw [Op.on, ne_eq, sdiff_eq_left, Set.not_disjoint_iff]
  exact ⟨fun ⟨k, hs, hr⟩ => ⟨k, hr, hs⟩, fun ⟨k, hr, hs⟩ => ⟨k, hs, hr⟩⟩

theorem RangeTree.apply_spec (h : Canonical rt.ranges) (op : Op α) : Canonical (rt.apply op).1.ranges ∧
    cover (rt.apply op).1.ranges = op.on (cover rt.ranges) ∧
    ((rt.apply op).2 = true ↔ op.on (cover rt.ranges) ≠ cover rt.ranges) := by
  cases op with
  | add r valid =>
    rw [on_add_ne]
    exact add_spec h valid
  | sub r valid =>
    rw [on_sub_ne]
    exact sub_spec h valid

/-- One step of a list that does not touch the next bucket. -/
theorem RangeList.Good.apply (h : rl.Good) (op : Op α) (hop : ∀ r valid, op = .add r valid → ¬ rl.TouchesNext r) :
    (rl.apply op).1.Good ∧ cover (rl.apply op).1.nodes.flatten = op.on (cover rl.nodes.flatten) ∧
      ((rl.apply op).2 = true ↔ op.on (cover rl.nodes.flatten) ≠ cover rl.nodes.flatten) := by
  cases op with
  | add r valid =>
    rw [on_add_ne]
    have hadded := add_added h valid (hop r valid rfl)
    exact ⟨hadded.good, hadded.covers, hadded.grew⟩
  | sub r valid =>
    rw [on_sub_ne]
    have hsub := sub_subtracted h valid
    exact ⟨hsub.good, hsub.covers, hsub.shrank⟩

theorem runCorrect_iff : ∀ (ops : List (Op α)) {rl : RangeList α} {rt : RangeTree α}, rl.Good → Canonical rt.ranges →
    cover rt.ranges = cover rl.nodes.flatten → (RunCorrect rl rt (cover rl.nodes.flatten) ops ↔ NeverTouches rl ops)
  | [], rl, rt, h, h', heq => by
    have hstands := h.stands
    exact ⟨fun _ => trivial, fun _ => ⟨hstands, alike_of_stands hstands (heq ▸ stands h')⟩⟩
  | op :: ops, rl, rt, h, h', heq => by
    have hstands := h.stands
    have halike := alike_of_stands hstands (heq ▸ stands h')
    obtain ⟨htree, htcover, htchanged⟩ := apply_spec h' op
    rw [heq] at htcover htchanged
    by_cases hop : ∀ r valid, op = .add r valid → ¬ rl.TouchesNext r
    · obtain ⟨hgood, hcover, hchanged⟩ := h.apply op hop
      have ih := runCorrect_iff ops hgood htree (htcover.trans hcover.symm)
      rw [hcover] at ih
      have hnever : NeverTouches rl (op :: ops) ↔ NeverTouches (rl.apply op).1 ops := by
        cases op with
        | add r valid => exact ⟨fun hn => hn.2, fun hn => ⟨hop r valid rfl, hn⟩⟩
        | sub r valid => exact Iff.rfl
      rw [hnever, ← ih]
      refine ⟨fun hrun => hrun.2.2.2.2, fun hrun => ⟨hstands, halike, hchanged, ?_, hrun⟩⟩
      exact Bool.eq_iff_iff.mpr (hchanged.trans htchanged.symm)
    -- The next state of the list has two ranges that touch.
    push Not at hop
    obtain ⟨r, valid, rfl, htouches⟩ := hop
    refine ⟨fun hrun => ?_, fun hnever => absurd htouches hnever.1⟩
    obtain ⟨hbuckets, hnot⟩ := add_touching h htouches
    have hnext := hrun.2.2.2.2
    have hstands' : (rl.add r).1.Stands ((Op.add r valid).on (cover rl.nodes.flatten)) := by
      cases ops with
      | nil => exact hnext.1
      | cons op' ops => exact hnext.1
    have hc := hstands'.canonical
    rw [iterate_eq hbuckets] at hc
    exact absurd hc hnot

theorem RunCorrect.last : ∀ {ops : List (Op α)} {rl : RangeList α} {rt : RangeTree α} {s : Set α},
    RunCorrect rl rt s ops →
      Alike (ops.foldl (fun rl op => (rl.apply op).1) rl) (ops.foldl (fun rt op => (rt.apply op).1) rt)
  | [], _, _, _, h => h.2
  | _ :: _, _, _, _, h => h.2.2.2.2.last

/-- A run of a list is right if and only if no range is put before a bucket that it touches. -/
theorem rangeList_correct_iff (ops : List (Op α)) :
    RunCorrect new RangeTree.new ∅ ops ↔ NeverTouches (new : RangeList α) ops := by
  have hnew : cover (new : RangeList α).nodes.flatten = ∅ := by simp [new]
  have hsame : cover (RangeTree.new : RangeTree α).ranges = cover (new : RangeList α).nodes.flatten :=
    cover_nil.trans hnew.symm
  have h := runCorrect_iff ops new_good Canonical.nil hsame
  rwa [hnew] at h

/-- A tree after a run. -/
def RangeTree.applyAll (ops : List (Op α)) (rt : RangeTree α) : RangeTree α :=
  ops.foldl (fun rt op => (rt.apply op).1) rt

theorem RangeTree.applyAll_spec (ops : List (Op α)) : ∀ rt : RangeTree α, Canonical rt.ranges →
    Canonical (applyAll ops rt).ranges ∧ cover (applyAll ops rt).ranges = ops.foldl Op.on (cover rt.ranges) := by
  induction ops with
  | nil => exact fun rt h => ⟨h, rfl⟩
  | cons op ops ih =>
    intro rt h
    obtain ⟨hnext, hcover, _⟩ := apply_spec h op
    rw [foldl_cons, ← hcover]
    exact ih _ hnext

/-- Every run of a tree is right: it stands for the set that union and difference make, and the next
    operation returns whether the set changes. -/
theorem rangeTree_correct (ops : List (Op α)) (op : Op α) :
    (applyAll ops RangeTree.new).Stands (ops.foldl Op.on ∅) ∧
      (((applyAll ops RangeTree.new).apply op).2 = true ↔ op.on (ops.foldl Op.on ∅) ≠ ops.foldl Op.on ∅) := by
  obtain ⟨hcanon, hcover⟩ := applyAll_spec ops RangeTree.new Canonical.nil
  rw [show cover (RangeTree.new : RangeTree α).ranges = ∅ from cover_nil] at hcover
  rw [← hcover]
  exact ⟨stands hcanon, (apply_spec hcanon op).2.2⟩

end

/-- Nine ranges fill the first bucket and begin a second; the last of the first bucket goes,
    and a range is added that ends where the second begins. -/
def touchingRun : List (Op Bytes) :=
  [.add ⟨[0x10], [0x11]⟩ (by decide +kernel), .add ⟨[0x20], [0x21]⟩ (by decide +kernel),
    .add ⟨[0x30], [0x31]⟩ (by decide +kernel), .add ⟨[0x40], [0x41]⟩ (by decide +kernel),
    .add ⟨[0x50], [0x51]⟩ (by decide +kernel), .add ⟨[0x60], [0x61]⟩ (by decide +kernel),
    .add ⟨[0x70], [0x71]⟩ (by decide +kernel), .add ⟨[0x80], [0x81]⟩ (by decide +kernel),
    .add ⟨[0x90], [0x91]⟩ (by decide +kernel), .sub ⟨[0x80], [0x81]⟩ (by decide +kernel),
    .add ⟨[0x88], [0x90]⟩ (by decide +kernel)]

/-- The list then holds nine ranges, two of which touch, and the tree eight. -/
theorem touching_not_merged : ¬ RunCorrect new RangeTree.new ∅ touchingRun := by
  intro h
  have hlen := h.last.len
  revert hlen
  decide +kernel

end Ratel.Interval
