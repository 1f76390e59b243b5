import Ratel.Spans.FrontierSpec

/- Runs of the frontier. A forwarded span raises the timestamps of its tracked keys
   (`insert_spec`), whatever it overlaps, with one exception: `insert` reads a nil start of the
   pending span as "nothing pending", so that a span whose own start is a nil slice loses the
   keys it consumed first as soon as it consumes more of the same pending span (`LosesStart`).
   Those keys are then tracked no longer, or the same entry is removed twice. In a run none of
   whose steps does so the frontier is right in every state, and otherwise it is not
   (`frontier_correct_iff`). -/
namespace Ratel.Spans

open Ratel.Lib Inserting
open List hiding Disjoint
open Ratel.Storage (Timestamp)

/-! A span that starts at a nil key. -/

namespace Inserting

variable {tree : List Entry} {insertTS : Timestamp} {todoEnd : Bytes} {o : Entry}

/-- A pending span that starts at the empty key is flushed alike, whichever slice its start is. -/
theorem addPending_nil (st : Inserting) (h : st.pendingStart = none) :
    { st with pendingStart := some [] }.addPending tree insertTS = st.addPending tree insertTS := by
  have hkey : st.pendingStart.key = Slice.key (some []) := by rw [h]; rfl
  unfold addPending flush
  by_cases hp : Slice.key (some []) = st.pendingEnd
  · rw [if_pos (hkey.trans hp)]
    simp only [if_pos hp]
  by_cases hl : st.extendLeft = true
  · simp only [if_neg hp, if_pos hl, addEntry, hkey]
  · simp only [if_neg hp, if_neg hl, addEntry, hkey]

theorem visit_nil (st : Inserting) (h : st.pendingStart = none) (hne : o.keys.start ≠ st.pendingEnd) :
    visit tree todoEnd insertTS { st with pendingStart := some [] } o = visit tree todoEnd insertTS st o := by
  have hsep : { st with pendingStart := some [] }.separate tree insertTS o = st.separate tree insertTS o := by
    unfold separate
    rw [if_pos hne, if_pos (by exact hne), addPending_nil st h]
  unfold visit
  rw [hsep]

/-- As long as nothing is consumed next, the two starts make no difference. -/
theorem walk_nil (st : Inserting) (h : st.pendingStart = none) (Q : List Entry)
    (hne : ∀ o, Q.head? = some o → o.keys.start ≠ st.pendingEnd) :
    (Q.foldl (visit tree todoEnd insertTS) { st with pendingStart := some [] }).addPending tree insertTS =
      (Q.foldl (visit tree todoEnd insertTS) st).addPending tree insertTS := by
  cases Q with
  | nil => exact addPending_nil st h
  | cons o Q =>
    rw [foldl_cons, foldl_cons, visit_nil st h (hne o rfl)]

end Inserting

namespace Frontier

/-- The span starts at a nil slice, the first entry it overlaps starts at the empty key and is
    consumed, and so is more of the span before that is flushed: the rest of the entry up to
    its end, or the entry that starts there. -/
def LosesStart (f : Frontier) (span : Span) (insertTS : Timestamp) : Prop :=
  span.asRange.1 = none ∧ ∃ first rest, f.matching span.range = first :: rest ∧
    first.keys.start = [] ∧ ¬ insertTS < first.ts ∧
    ((span.range.stop = first.keys.stop ∨ span.range.stop < first.keys.stop ∧ first.ts = insertTS) ∨
      first.keys.stop < span.range.stop ∧
        ∃ second, rest.head? = some second ∧ second.keys.start = first.keys.stop ∧ ¬ insertTS < second.ts)

variable {f : Frontier} {span : Span} {insertTS : Timestamp}

theorem asRange_of_nil (h : span.asRange.1 = none) :
    ({ span with key := some [] } : Span).asRange = (some [], span.asRange.2) ∧
      ({ span with key := some [] } : Span).range = span.range := by
  unfold Span.range Span.asRange at *
  by_cases hend : span.endKey = []
  · rw [if_pos hend] at h
    cases h
  have hnone : span.key = none := by rwa [if_neg hend] at h
  simp only [if_neg hend, hnone]
  exact ⟨trivial, rfl⟩

/-- Behind an entry that reaches the end of the span there is no other in it. -/
theorem matching_last (ht : InOrder f.tree) {r : Range Bytes} {e : Entry} {rest : List Entry}
    (hm : f.matching r = e :: rest) (hend : r.stop ≤ e.keys.stop) : rest = [] := by
  have hord : InOrder (e :: rest) := hm ▸ ht.sublist filter_sublist
  rw [eq_nil_iff_forall_not_mem]
  intro x hx
  have hin : x ∈ f.matching r := by
    rw [hm]
    exact mem_cons_of_mem e hx
  exact absurd (mem_matching.mp hin).2.1 (not_lt.mpr (hend.trans (hord.head_le hx)))

/-- A walk from the empty key to an entry further on forgets which slice it began with. -/
theorem trim_first {first : Entry} {key : Slice} (hkey : key.key = []) (hstart : first.keys.start ≠ [])
    (tree : List Entry) :
    (separate ⟨key, none, [], true, [], []⟩ tree insertTS first).trim first =
      ⟨some first.keys.start, none, [], true, [], []⟩ := by
  have hpos : [] < first.keys.start := lt_of_le_of_ne (nil_le _) (Ne.symm hstart)
  have hsep : separate ⟨key, none, [], true, [], []⟩ tree insertTS first = ⟨key, none, [], true, [], []⟩ := by
    unfold separate addPending flush
    rw [if_pos hstart]
    rfl
  rw [hsep]
  unfold trim
  rw [if_pos (by rw [hkey]; exact hpos)]

/-- The first visit of a walk from the empty key to an entry there that is not newer. -/
theorem visit_first {first : Entry} {key : Slice} (hkey : key.key = []) (hstart : first.keys.start = [])
    (hn : ¬ insertTS < first.ts) (tree : List Entry) (todoEnd : Bytes) :
    visit tree todoEnd insertTS ⟨key, none, [], true, [], []⟩ first =
      consume ⟨key, none, [], true, [], [first]⟩ tree todoEnd insertTS first := by
  unfold visit separate trim splitLeft
  simp only [hstart, hkey, hn, ne_eq, not_true_eq_false, if_false, lt_self_iff_false, nil_append]

/-- Without a loss a nil start and an empty one make the same plan. -/
theorem planInsert_nil (ht : InOrder f.tree) (hkey : span.asRange.1 = none) (h : ¬ f.LosesStart span insertTS) :
    (f.planInsert span insertTS).toAdd = (f.planInsert { span with key := some [] } insertTS).toAdd ∧
      (f.planInsert span insertTS).toRemove = (f.planInsert { span with key := some [] } insertTS).toRemove := by
  obtain ⟨hrange, hkeys⟩ := asRange_of_nil hkey
  have hbegin : beginInsert span = ⟨none, none, [], true, [], []⟩ := by
    unfold beginInsert
    rw [hkey]
  have hbegin' : beginInsert { span with key := some [] } = ⟨some [], none, [], true, [], []⟩ := by
    unfold beginInsert
    rw [hrange]
  unfold planInsert
  rw [hkeys, hbegin, hbegin', hrange]
  cases hm : f.matching span.range with
  | nil => exact ⟨rfl, rfl⟩
  | cons first rest =>
    have hord : InOrder (first :: rest) := hm ▸ ht.sublist filter_sublist
    rw [foldl_cons, foldl_cons]
    by_cases hfirst : first.keys.start = []
    · by_cases hn : insertTS < first.ts
      · -- the entry is passed over, and with it the nil slice
        have heq : visit f.tree span.asRange.2 insertTS ⟨none, none, [], true, [], []⟩ first =
            visit f.tree span.asRange.2 insertTS ⟨some [], none, [], true, [], []⟩ first := by
          unfold visit separate trim
          simp only [hfirst, hn, ne_eq, not_true_eq_false, if_false, Slice.key_none, Slice.key_some,
            lt_self_iff_false, if_true]
        rw [heq]
        exact ⟨rfl, rfl⟩
      rw [visit_first Slice.key_none hfirst hn, visit_first (Slice.key_some []) hfirst hn]
      unfold consume
      by_cases hend : span.asRange.2 ≤ first.keys.stop
      · rw [if_pos hend, if_pos hend]
        have hpart : span.asRange.2 < first.keys.stop ∧ first.ts ≠ insertTS := by
          by_contra hno
          refine h ⟨hkey, first, rest, hm, hfirst, hn, .inl ?_⟩
          by_cases hlt : span.asRange.2 < first.keys.stop
          · exact .inr ⟨hlt, not_not.mp fun hne => hno ⟨hlt, hne⟩⟩
          · exact .inl (le_antisymm hend (not_lt.mp hlt))
        simp only [if_pos hpart, matching_last ht hm hend, foldl_nil]
        rw [← addPending_nil (addEntry _ _ _) rfl]
        exact ⟨rfl, rfl⟩
      rw [if_neg hend, if_neg hend]
      have hlt : first.keys.stop < span.range.stop := not_le.mp hend
      have hsame : ∀ (todo : Slice) (Q : List Entry), (∀ o, Q.head? = some o → o.keys.start ≠ first.keys.stop) →
          (Q.foldl (visit f.tree span.asRange.2 insertTS)
              ⟨todo, none, first.keys.stop, true, [], [first]⟩).addPending f.tree insertTS =
            (Q.foldl (visit f.tree span.asRange.2 insertTS)
              ⟨todo, some [], first.keys.stop, true, [], [first]⟩).addPending f.tree insertTS := by
        intro todo Q hQ
        exact (walk_nil ⟨todo, none, first.keys.stop, true, [], [first]⟩ rfl Q hQ).symm
      by_cases hnext : ∀ o, rest.head? = some o → o.keys.start ≠ first.keys.stop
      · have heq := hsame (some first.keys.stop) rest hnext
        exact ⟨congrArg toAdd heq, congrArg toRemove heq⟩
      -- the next entry follows at once and is newer, so the one after it does not
      push Not at hnext
      obtain ⟨second, hsecond, hadj⟩ := hnext
      obtain ⟨rest', rfl⟩ := head?_eq_some_iff.mp hsecond
      have hnewer : insertTS < second.ts := by
        by_contra hn2
        exact h ⟨hkey, first, second :: rest', hm, hfirst, hn, .inr ⟨hlt, second, rfl, hadj, hn2⟩⟩
      have hskip : ∀ p : Slice, visit f.tree span.asRange.2 insertTS
            ⟨some first.keys.stop, p, first.keys.stop, true, [], [first]⟩ second =
          ⟨some second.keys.stop, p, first.keys.stop, true, [], [first]⟩ := by
        intro p
        unfold visit separate trim
        simp only [hadj, hnewer, ne_eq, not_true_eq_false, if_false, Slice.key_some, lt_self_iff_false, if_true]
      have heq := hsame (some second.keys.stop) rest' fun o ho => by
        have hlast : second.keys.stop ≤ o.keys.start :=
          hord.of_cons.head_le (mem_of_mem_head? ho)
        have hval : second.keys.start < second.keys.stop := hord.valid second (by simp)
        exact ne_of_gt (hadj ▸ hval.trans_le hlast)
      rw [← hskip none, ← hskip (some [])] at heq
      exact ⟨congrArg toAdd heq, congrArg toRemove heq⟩
    · -- the start is moved to the entry's
      have heq : visit f.tree span.asRange.2 insertTS ⟨none, none, [], true, [], []⟩ first =
          visit f.tree span.asRange.2 insertTS ⟨some [], none, [], true, [], []⟩ first := by
        unfold visit
        rw [trim_first Slice.key_none hfirst, trim_first (Slice.key_some []) hfirst]
      rw [heq]
      exact ⟨rfl, rfl⟩

theorem insert_nil (ht : InOrder f.tree) (hkey : span.asRange.1 = none) (h : ¬ f.LosesStart span insertTS) :
    f.insert span insertTS = f.insert { span with key := some [] } insertTS := by
  obtain ⟨hadd, hrem⟩ := planInsert_nil ht hkey h
  unfold insert
  simp only [hadd, hrem]

/-- A step that loses nothing raises the timestamps in the span. -/
theorem insert_raises (ht : InOrder f.tree) (hr : span.range.start < span.range.stop)
    (h : ¬ f.LosesStart span insertTS) :
    ∃ f', f.insert span insertTS = some f' ∧ InOrder f'.tree ∧
      ∀ k, stamps f'.tree k = (stamps f.tree k).map (raised span.range insertTS k) := by
  by_cases hkey : span.asRange.1 = none
  · obtain ⟨hrange, hkeys⟩ := asRange_of_nil hkey
    rw [insert_nil ht hkey h, ← hkeys]
    rw [← hkeys] at hr
    exact insert_spec ht hr (by rw [hrange]; exact Option.some_ne_none _) insertTS
  · exact insert_spec ht hr hkey insertTS

end Frontier

/-! What a loss does. -/

/-- The left end of an extension is where it began or the start of an entry it took in. -/
theorem extendRangeToTheLeft_start (tree : List Entry) (ts : Timestamp) :
    ∀ (fuel : Nat) (s : Bytes), (extendRangeToTheLeft tree ts fuel s).1 = s ∨
      ∃ e ∈ (extendRangeToTheLeft tree ts fuel s).2, e ∈ tree ∧ e.keys.start = (extendRangeToTheLeft tree ts fuel s).1
  | 0, s => .inl rfl
  | fuel + 1, s => by
    unfold extendRangeToTheLeft
    split
    case h_1 e x hf =>
      split
      · have he : e ∈ tree := (mem_filter.mp (hf ▸ mem_cons_self : e ∈ tree.filter _)).1
        right
        rcases extendRangeToTheLeft_start tree ts fuel e.keys.start with heq | h
        · exact ⟨e, by simp, he, heq.symm⟩
        · obtain ⟨y, hy, hmem, hstart⟩ := h
          exact ⟨y, mem_cons_of_mem e hy, hmem, hstart⟩
      · exact .inl rfl
    case h_2 => exact .inl rfl

namespace Inserting

/-- The entry at the empty key is marked and no entry to add starts there, unless it is marked
    a second time. -/
structure Lost (first : Entry) (st : Inserting) : Prop where
  marked : first ∈ st.toRemove
  added : ∀ a ∈ st.toAdd, a.keys.start = [] → 2 ≤ st.toRemove.count first
  todo : ∃ t, st.todoStart = some t ∧ t ≠ []
  pending : st.pendingStart = none ∧ st.pendingEnd = [] ∨ ∃ p, st.pendingStart = some p ∧ p ≠ []

variable {tree : List Entry} {insertTS : Timestamp} {todoEnd : Bytes} {st : Inserting} {first o : Entry}

/-- Marking more and adding entries that start elsewhere changes nothing. -/
theorem Lost.grow (h : Lost first st) {st' : Inserting} {X D : List Entry}
    (hadd : st'.toAdd = st.toAdd ++ X) (hrem : st'.toRemove = st.toRemove ++ D)
    (hX : ∀ a ∈ X, a.keys.start = [] → first ∈ D) :
    first ∈ st'.toRemove ∧ ∀ a ∈ st'.toAdd, a.keys.start = [] → 2 ≤ st'.toRemove.count first := by
  rw [hadd, hrem]
  refine ⟨mem_append_left D h.marked, fun a ha hstart => ?_⟩
  rw [count_append]
  rcases mem_append.mp ha with ha | ha
  · exact (h.added a ha hstart).trans (Nat.le_add_right _ _)
  have hone : 1 ≤ st.toRemove.count first := count_pos_iff.mpr h.marked
  have htwo : 1 ≤ D.count first := count_pos_iff.mpr (hX a ha hstart)
  omega

theorem Lost.addPending (ht : InOrder tree) (hfirst : first ∈ tree) (hstart : first.keys.start = [])
    (h : Lost first st) : Lost first (st.addPending tree insertTS) := by
  have hpend : ∀ {st' : Inserting} {X D : List Entry}, st'.toAdd = st.toAdd ++ X →
      st'.toRemove = st.toRemove ++ D → st'.todoStart = st.todoStart → st'.pendingStart = none →
      st'.pendingEnd = [] → (∀ a ∈ X, a.keys.start = [] → first ∈ D) → Lost first st' := by
    intro st' X D hadd hrem htodo hps hpe hX
    obtain ⟨hmarked, hadded⟩ := h.grow hadd hrem hX
    exact ⟨hmarked, hadded, htodo ▸ h.todo, .inl ⟨hps, hpe⟩⟩
  unfold Inserting.addPending flush
  by_cases hp : st.pendingStart.key = st.pendingEnd
  · rw [if_pos hp]
    exact hpend (X := []) (D := []) (append_nil _).symm (append_nil _).symm rfl rfl rfl (by simp)
  rw [if_neg hp]
  -- something is pending, and it does not start at the empty key
  obtain ⟨p, hps, hne⟩ : ∃ p, st.pendingStart = some p ∧ p ≠ [] := by
    refine h.pending.resolve_left fun hidle => hp ?_
    rw [hidle.1, hidle.2, Slice.key_none]
  by_cases hleft : st.extendLeft = true
  · rw [if_pos hleft, hps]
    refine hpend (X := [_]) (D := _) rfl rfl rfl rfl rfl fun a ha hnil => ?_
    rw [mem_singleton.mp ha] at hnil
    rcases extendRangeToTheLeft_start tree insertTS tree.length p with heq | hcov
    · exact absurd (heq.symm.trans hnil) hne
    obtain ⟨e, he, hmem, hes⟩ := hcov
    have hef : e = first := ht.eq_of_start hmem hfirst (by rw [hes, hstart]; exact hnil)
    exact hef ▸ he
  · rw [if_neg hleft, hps]
    exact hpend (X := [_]) (D := []) rfl (append_nil _).symm rfl rfl rfl
      (forall_mem_singleton.mpr fun hnil => absurd hnil hne)

/-- Consuming from a key other than the empty one. -/
theorem Lost.consume (hend : todoEnd ≠ []) (hstop : o.keys.stop ≠ []) (hmarked : first ∈ st.toRemove)
    (hadded : ∀ a ∈ st.toAdd, a.keys.start = [] → 2 ≤ st.toRemove.count first)
    (hmerged : ∃ p, st.merged = some p ∧ p ≠ []) : Lost first (st.consume tree todoEnd insertTS o) := by
  obtain ⟨p, hp, hne⟩ := hmerged
  unfold Inserting.consume
  by_cases hle : todoEnd ≤ o.keys.stop
  · rw [if_pos hle]
    by_cases hpart : todoEnd < o.keys.stop ∧ o.ts ≠ insertTS
    · simp only [if_pos hpart]
      exact ⟨hmarked, forall_mem_append.mpr ⟨hadded, forall_mem_singleton.mpr fun hnil => absurd hnil hend⟩,
        ⟨_, rfl, hend⟩, .inr ⟨p, hp, hne⟩⟩
    simp only [if_neg hpart]
    rw [consumePrefix_twice (by rw [hp]; exact Option.some_ne_none p)]
    refine ⟨mem_append_left _ hmarked, fun a ha hnil => ?_, ⟨_, rfl, hstop⟩, .inr ⟨p, hp, hne⟩⟩
    exact (hadded a ha hnil).trans (List.Sublist.count_le first (sublist_append_left _ _))
  · rw [if_neg hle]
    exact ⟨hmarked, hadded, ⟨_, rfl, hstop⟩, .inr ⟨p, hp, hne⟩⟩

/-- What is split off to the left starts where the entry does. -/
theorem marked_toAdd (st : Inserting) (o : Entry) :
    ∃ X, (st.marked o).toAdd = st.toAdd ++ X ∧ ∀ a ∈ X, a.keys.start = o.keys.start := by
  unfold marked splitLeft
  split
  · exact ⟨[_], rfl, forall_mem_singleton.mpr rfl⟩
  · exact ⟨[], (append_nil _).symm, fun a ha => absurd ha not_mem_nil⟩

theorem Lost.visit (ht : InOrder tree) (hfirst : first ∈ tree) (hstart : first.keys.start = [])
    (hend : todoEnd ≠ []) (ho : o ∈ tree) (hne : o.keys.start ≠ []) (h : Lost first st) :
    Lost first (visit tree todoEnd insertTS st o) := by
  have hval : o.keys.start < o.keys.stop := ht.valid o ho
  have hstop : o.keys.stop ≠ [] := fun hnil => not_lt_nil _ (hnil ▸ hval)
  have hsep : Lost first (st.separate tree insertTS o) := by
    unfold separate
    split
    · exact h.addPending ht hfirst hstart
    · exact h
  have htrim : Lost first ((st.separate tree insertTS o).trim o) := by
    unfold trim
    split
    · exact ⟨hsep.marked, hsep.added, ⟨_, rfl, hne⟩, hsep.pending⟩
    · exact hsep
  unfold Inserting.visit
  by_cases hn : insertTS < o.ts
  · simp only [if_pos hn]
    exact ⟨htrim.marked, htrim.added, ⟨_, rfl, hstop⟩, htrim.pending⟩
  simp only [if_neg hn]
  generalize (st.separate tree insertTS o).trim o = st' at htrim
  have hgrow : first ∈ (st'.marked o).toRemove ∧
      ∀ a ∈ (st'.marked o).toAdd, a.keys.start = [] → 2 ≤ (st'.marked o).toRemove.count first := by
    obtain ⟨X, hX, hstarts⟩ := marked_toAdd st' o
    exact htrim.grow hX (marked_toRemove st' o) fun a ha hnil => absurd (hstarts a ha ▸ hnil) hne
  refine Lost.consume hend hstop hgrow.1 hgrow.2 ?_
  show ∃ p, (st'.marked o).merged = some p ∧ p ≠ []
  rw [marked_merged]
  unfold merged
  rcases htrim.pending with hp | hp
  · rw [if_pos hp.1]; exact htrim.todo
  obtain ⟨p, hp, hpne⟩ := hp
  rw [if_neg (by rw [hp]; exact Option.some_ne_none p)]
  exact ⟨p, hp, hpne⟩

theorem Lost.walk (ht : InOrder tree) (hfirst : first ∈ tree) (hstart : first.keys.start = []) (hend : todoEnd ≠ []) :
    ∀ (Q : List Entry) (st : Inserting), (∀ o ∈ Q, o ∈ tree ∧ o.keys.start ≠ []) → Lost first st →
      Lost first (Q.foldl (Inserting.visit tree todoEnd insertTS) st) := by
  intro Q
  induction Q with
  | nil =>
    intro st _ h
    exact h
  | cons o Q ih =>
    intro st hQ h
    obtain ⟨ho, hne⟩ := hQ o (by simp)
    exact ih _ (fun x hx => hQ x (by simp [hx])) (h.visit ht hfirst hstart hend ho hne)

end Inserting

theorem removeEntries_perm : ∀ {gone tree kept : List Entry}, removeEntries tree gone = some kept →
    tree.Perm (gone ++ kept)
  | [], tree, kept, h => by
    cases h
    exact List.Perm.refl tree
  | e :: gone, tree, kept, h => by
    obtain ⟨he, h⟩ := Option.ite_none_right_eq_some.mp h
    exact (perm_cons_erase he).trans ((removeEntries_perm h).cons e)

theorem insertEntries_perm : ∀ {new tree tree' : List Entry}, insertEntries tree new = some tree' →
    tree'.Perm (new ++ tree)
  | [], tree, tree', h => by
    cases h
    exact List.Perm.refl tree
  | e :: new, tree, tree', h => by
    have h := (Option.ite_none_right_eq_some.mp h).2
    exact ((insertEntries_perm h).trans ((insertByStart_perm e tree).append_left new)).trans perm_middle

namespace Frontier

variable {f f' : Frontier} {span : Span} {insertTS : Timestamp}

theorem insert_some (h : f.insert span insertTS = some f') :
    ∃ kept, f.tree.Perm ((f.planInsert span insertTS).toRemove ++ kept) ∧
      f'.tree.Perm ((f.planInsert span insertTS).toAdd ++ kept) := by
  obtain ⟨kept, hk, h⟩ := Option.bind_eq_some_iff.mp h
  obtain ⟨tree, hi, h⟩ := Option.bind_eq_some_iff.mp h
  cases h
  exact ⟨kept, removeEntries_perm hk, insertEntries_perm hi⟩

/-- The plan of a step that loses its start. -/
theorem planInsert_lost (ht : InOrder f.tree) (hr : span.range.start < span.range.stop)
    (h : f.LosesStart span insertTS) :
    ∃ first ∈ f.tree, first.keys.start = [] ∧ (f.planInsert span insertTS).Lost first := by
  obtain ⟨hkey, first, rest, hm, hstart, hn, hmore⟩ := h
  have hord : InOrder (first :: rest) := hm ▸ ht.sublist filter_sublist
  have hmem : ∀ o ∈ first :: rest, o ∈ f.tree := fun o ho => by
    rw [← hm] at ho
    exact (mem_matching.mp ho).1
  have hfirst : first ∈ f.tree := hmem first (by simp)
  have hval : first.keys.start < first.keys.stop := ht.valid first hfirst
  have hstop : first.keys.stop ≠ [] := fun hnil => not_lt_nil _ (hnil ▸ hval)
  have hend : span.asRange.2 ≠ [] := fun hnil => not_lt_nil _ (hnil ▸ hr : span.range.start < [])
  have hrest : ∀ o ∈ rest, o ∈ f.tree ∧ o.keys.start ≠ [] := by
    intro o ho
    refine ⟨hmem o (by simp [ho]), fun hnil => ?_⟩
    have hle := hord.head_le ho
    rw [hnil] at hle
    exact not_lt_nil _ (hval.trans_le hle)
  have hbegin : beginInsert span = ⟨none, none, [], true, [], []⟩ := by
    unfold beginInsert
    rw [hkey]
  refine ⟨first, hfirst, hstart, ?_⟩
  unfold planInsert
  rw [hbegin, hm, foldl_cons, visit_first Slice.key_none hstart hn]
  apply Inserting.Lost.addPending ht hfirst hstart
  rcases hmore with hwhole | hnext
  · -- the rest of the entry is consumed on its own
    apply Inserting.Lost.walk ht hfirst hstart hend rest _ hrest
    have hle : span.asRange.2 ≤ first.keys.stop := by
      rcases hwhole with heq | hlt
      · exact heq.le
      · exact hlt.1.le
    have hpart : ¬ (span.asRange.2 < first.keys.stop ∧ first.ts ≠ insertTS) := by
      intro ⟨hlt, hne⟩
      rcases hwhole with heq | hlt
      · exact absurd heq (ne_of_lt hlt)
      · exact hne hlt.2
    unfold Inserting.consume
    rw [if_pos hle]
    simp only [if_neg hpart]
    refine ⟨by simp [Inserting.consumePrefix], fun a ha => absurd ha not_mem_nil, ⟨_, rfl, hstop⟩,
      .inr ⟨span.asRange.2, rfl, hend⟩⟩
  obtain ⟨hlt, second, hsecond, hadj, hn2⟩ := hnext
  obtain ⟨rest', rfl⟩ := head?_eq_some_iff.mp hsecond
  apply Inserting.Lost.walk ht hfirst hstart hend rest' _ (fun o ho => hrest o (by simp [ho]))
  have hconsume : Inserting.consume ⟨none, none, [], true, [], [first]⟩ f.tree span.asRange.2 insertTS first =
      ⟨some first.keys.stop, none, first.keys.stop, true, [], [first]⟩ := by
    have hnot : ¬ span.asRange.2 ≤ first.keys.stop := not_le.mpr hlt
    unfold Inserting.consume
    rw [if_neg hnot]
    rfl
  have hvisit : Inserting.visit f.tree span.asRange.2 insertTS
        ⟨some first.keys.stop, none, first.keys.stop, true, [], [first]⟩ second =
      Inserting.consume ⟨some first.keys.stop, none, first.keys.stop, true, [], [first, second]⟩ f.tree
        span.asRange.2 insertTS second := by
    unfold Inserting.visit Inserting.separate Inserting.trim Inserting.splitLeft
    simp only [hadj, hn2, ne_eq, not_true_eq_false, if_false, Slice.key_some, lt_self_iff_false]
    rfl
  rw [hconsume, hvisit]
  have hval2 : second.keys.start < second.keys.stop := hord.valid second (by simp)
  refine Inserting.Lost.consume hend (fun hnil => not_lt_nil _ (hnil ▸ hval2)) (by simp)
    (fun a ha => absurd ha not_mem_nil) ⟨first.keys.stop, rfl, hstop⟩

/-- After a step that loses its start the empty key is tracked no longer, if there is a state
    after it at all. -/
theorem insert_loses (ht : InOrder f.tree) (hr : span.range.start < span.range.stop)
    (h : f.LosesStart span insertTS) (hf : f.insert span insertTS = some f') :
    stamps f.tree [] ≠ 0 ∧ stamps f'.tree [] = 0 := by
  obtain ⟨first, hfirst, hstart, hlost⟩ := planInsert_lost ht hr h
  obtain ⟨kept, hperm, hperm'⟩ := insert_some hf
  have hval : first.keys.start < first.keys.stop := ht.valid first hfirst
  have hin : [] ∈ first.keys.keys := ⟨hstart.le, hstart ▸ hval⟩
  have hgone : first.ts ∈ stamps (f.planInsert span insertTS).toRemove [] :=
    mem_stamps.mpr ⟨first, hlost.marked, hin, rfl⟩
  have hone : (f.planInsert span insertTS).toRemove.count first ≤ 1 := by
    have hcount := nodup_iff_count_le_one.mp (hperm.nodup_iff.mp ht.nodup) first
    rw [count_append] at hcount
    omega
  have hadd : stamps (f.planInsert span insertTS).toAdd [] = 0 := by
    rw [stamps_eq_zero_iff]
    intro a ha hk
    have hnil : a.keys.start = [] := le_antisymm hk.1 (nil_le _)
    have htwo := hlost.added a ha hnil
    omega
  have hkept : stamps kept [] = 0 := by
    have hcard := ht.card_stamps []
    rw [stamps_perm hperm, stamps_append, Multiset.card_add] at hcard
    have hpos := Multiset.card_pos_iff_exists_mem.mpr ⟨_, hgone⟩
    rw [← Multiset.card_eq_zero]
    omega
  refine ⟨fun hzero => ?_, by rw [stamps_perm hperm', stamps_append, hadd, hkept, add_zero]⟩
  exact (stamps_eq_zero_iff.mp hzero) first hfirst hin

/-! What the frontier reports. -/

/-- The loop of `SpanEntries` clips each entry to what is left of the span. -/
theorem reported_stamps (todoEnd : Bytes) :
    ∀ (es : List Entry) (s : Bytes), InOrder es → (∀ e ∈ es, e.keys.start < todoEnd ∧ s < e.keys.stop) →
      ∀ k, stamps (reported todoEnd s es) k = if s ≤ k ∧ k < todoEnd then stamps es k else 0 := by
  intro es
  induction es with
  | nil =>
    simp [reported]
  | cons e es ih =>
    intro s hord hes k
    obtain ⟨hstart, hstop⟩ := hes e (by simp)
    have hhead : stamps [(⟨⟨max s e.keys.start, min todoEnd e.keys.stop⟩, e.ts⟩ : Entry)] k =
        if s ≤ k ∧ k < todoEnd then stamps [e] k else 0 := by
      have hiff : k ∈ (⟨max s e.keys.start, min todoEnd e.keys.stop⟩ : Range Bytes).keys ↔
          (s ≤ k ∧ k < todoEnd) ∧ k ∈ e.keys.keys := by
        rw [Range.mem_keys, Range.mem_keys, max_le_iff, lt_min_iff]
        tauto
      by_cases hk : s ≤ k ∧ k < todoEnd
      · rw [if_pos hk]
        by_cases hke : k ∈ e.keys.keys
        · rw [stamps_of_mem hke, stamps_of_mem (hiff.mpr ⟨hk, hke⟩)]
        · rw [stamps_of_not_mem hke, stamps_of_not_mem fun h => hke (hiff.mp h).2]
      · rw [if_neg hk, stamps_of_not_mem fun h => hk (hiff.mp h).1]
    have htail : stamps (reported todoEnd (min todoEnd e.keys.stop) es) k =
        if s ≤ k ∧ k < todoEnd then stamps es k else 0 := by
      by_cases hend : todoEnd < e.keys.stop
      · -- the entry reaches behind the span, so no other follows in it
        have hnil : es = [] := by
          rw [eq_nil_iff_forall_not_mem]
          intro x hx
          exact absurd ((hes x (by simp [hx])).1.trans hend) (not_lt.mpr (hord.head_le hx))
        subst hnil
        simp [reported]
      rw [min_eq_right (not_lt.mp hend)]
      have hes' : ∀ x ∈ es, x.keys.start < todoEnd ∧ e.keys.stop < x.keys.stop := fun x hx =>
        ⟨(hes x (by simp [hx])).1, (hord.head_le hx).trans_lt (hord.of_cons.valid x hx)⟩
      rw [ih e.keys.stop hord.of_cons hes' k]
      by_cases hk : e.keys.stop ≤ k
      · simp only [hk, hstop.le.trans hk]
      have hzero : stamps es k = 0 :=
        stamps_eq_zero_iff.mpr fun x hx hkx => hk ((hord.head_le hx).trans hkx.1)
      rw [hzero, ite_self, ite_self]
    have hlow : (if s < e.keys.start then e.keys.start else s) = max s e.keys.start := by grind
    have hhigh : (if todoEnd < e.keys.stop then todoEnd else e.keys.stop) = min todoEnd e.keys.stop := by grind
    unfold reported
    simp only [hlow, hhigh]
    rw [stamps_cons, hhead, htail, stamps_cons e es]
    split <;> rfl

/-- `SpanEntries` reports what the entries have for the keys of the span. -/
theorem spanEntries_stamps (ht : InOrder f.tree) (k : Bytes) :
    stamps (f.spanEntries span) k = if k ∈ span.range.keys then stamps f.tree k else 0 := by
  have hord : InOrder (f.matching span.range) := ht.sublist filter_sublist
  have hmatch : ∀ e ∈ f.matching span.range, e.keys.start < span.range.stop ∧ span.range.start < e.keys.stop :=
    fun e he => (mem_matching.mp he).2
  unfold spanEntries
  rw [reported_stamps span.range.stop _ _ hord hmatch]
  by_cases hk : k ∈ span.range.keys
  · rw [if_pos hk, if_pos (show span.range.start ≤ k ∧ k < span.range.stop from hk)]
    obtain ⟨L, R, htree, hL, hR⟩ := ht.split (r := span.range)
    have hLzero : stamps L k = 0 := stamps_eq_zero_iff.mpr fun e he hke =>
      absurd (hke.2.trans_le (hL e he)) (not_lt.mpr hk.1)
    have hRzero : stamps R k = 0 := stamps_eq_zero_iff.mpr fun e he hke =>
      absurd (hk.2.trans_le (hR e he)) (not_lt.mpr hke.1)
    have hsum : stamps f.tree k = stamps (L ++ f.matching span.range ++ R) k :=
      congrArg (fun es => stamps es k) htree
    rw [hsum, stamps_append, stamps_append, hLzero, hRzero, zero_add, add_zero]
  · rw [if_neg hk, if_neg (show ¬ (span.range.start ≤ k ∧ k < span.range.stop) from hk)]

theorem frontier_least (h : f.tree ≠ []) :
    (∃ e ∈ f.tree, e.ts = f.frontier) ∧ ∀ e ∈ f.tree, f.frontier ≤ e.ts := by
  unfold frontier
  cases hm : (f.tree.map (·.ts)).min? with
  | none =>
    rw [min?_eq_none_iff, map_eq_nil_iff] at hm
    exact absurd hm h
  | some m =>
    obtain ⟨hmem, hle⟩ := min?_eq_some_iff.mp hm
    obtain ⟨e, he, hts⟩ := mem_map.mp hmem
    exact ⟨⟨e, he, hts⟩, fun x hx => hle x.ts (mem_map_of_mem hx)⟩

/-! Runs. -/

/-- The timestamps of the tracked keys; other keys have none. -/
abbrev Tracked := Bytes → Option Timestamp

/-- The entries are exactly the timestamps of the tracked keys. -/
structure Tracks (f : Frontier) (m : Tracked) : Prop where
  inOrder : InOrder f.tree
  holds : ∀ k t, t ∈ stamps f.tree k ↔ m k = some t

/-- What a user of the frontier sees of the tracked timestamps. -/
structure Correct (f : Frontier) (m : Tracked) : Prop where
  -- the entries are not empty, do not overlap and cover the tracked keys
  inOrder : InOrder f.tree
  covers : ∀ k, (∃ e ∈ f.tree, k ∈ e.keys.keys) ↔ (m k).isSome
  reports : ∀ q : Span, q.valid = true → ∀ k t,
    (∃ e ∈ f.spanEntries q, k ∈ e.keys.keys ∧ e.ts = t) ↔ k ∈ q.range.keys ∧ m k = some t
  least : (∀ k, m k = none) ∧ f.frontier = 0 ∨ (∃ k, m k = some f.frontier) ∧ ∀ k t, m k = some t → f.frontier ≤ t

variable {m : Tracked}

theorem Tracks.least (h : Tracks f m) :
    (∀ k, m k = none) ∧ f.frontier = 0 ∨ (∃ k, m k = some f.frontier) ∧ ∀ k t, m k = some t → f.frontier ≤ t := by
  by_cases hnil : f.tree = []
  · left
    refine ⟨fun k => ?_, by unfold frontier; rw [hnil]; rfl⟩
    rw [Option.eq_none_iff_forall_not_mem]
    intro t ht
    have hmem := (h.holds k t).mpr ht
    rw [hnil] at hmem
    exact absurd hmem (Multiset.notMem_zero t)
  · obtain ⟨⟨e, he, hts⟩, hle⟩ := frontier_least hnil
    right
    refine ⟨⟨e.keys.start, (h.holds _ _).mp (mem_stamps.mpr ⟨e, he, (h.inOrder.valid e he).start_mem, hts⟩)⟩, ?_⟩
    intro k t hk
    obtain ⟨x, hx, _, hxt⟩ := mem_stamps.mp ((h.holds k t).mpr hk)
    exact hxt ▸ hle x hx

theorem Tracks.correct (h : Tracks f m) : Correct f m := by
  refine ⟨h.inOrder, fun k => ?_, fun q _ k t => ?_, h.least⟩
  · rw [Option.isSome_iff_exists]
    constructor
    · intro ⟨e, he, hk⟩
      exact ⟨e.ts, (h.holds k e.ts).mp (mem_stamps.mpr ⟨e, he, hk, rfl⟩)⟩
    intro ⟨t, ht⟩
    obtain ⟨e, he, hk, _⟩ := mem_stamps.mp ((h.holds k t).mpr ht)
    exact ⟨e, he, hk⟩
  · rw [← mem_stamps, spanEntries_stamps h.inOrder, ← h.holds]
    by_cases hk : k ∈ q.range.keys
    · rw [if_pos hk]
      exact (and_iff_right hk).symm
    · rw [if_neg hk]
      exact iff_of_false (Multiset.notMem_zero t) fun hno => hk hno.1

/-- The maximum of a start timestamp and of all that were forwarded over a key. -/
def maxForwarded (done : List (Span × Timestamp)) (k : Bytes) (start : Timestamp) : Timestamp :=
  ((done.filter fun op => decide (k ∈ op.1.range.keys)).map (·.2)).foldl max start

/-- The timestamps of the tracked keys once the calls `done` were made. -/
def after (start : Tracked) (done : List (Span × Timestamp)) : Tracked :=
  fun k => (start k).map (maxForwarded done k)

theorem after_nil (start : Tracked) : after start [] = start := by
  funext k
  exact Option.map_id'

theorem after_concat (start : Tracked) (done : List (Span × Timestamp)) (span : Span) (ts : Timestamp) (k : Bytes) :
    after start (done ++ [(span, ts)]) k = (after start done k).map (raised span.range ts k) := by
  unfold after
  rw [Option.map_map]
  congr 1
  funext t
  show _ = raised span.range ts k (maxForwarded done k t)
  unfold maxForwarded raised
  rw [filter_append, map_append]
  by_cases hk : k ∈ span.range.keys
  · rw [filter_singleton]
    simp [hk]
  · rw [filter_singleton]
    simp [hk]

/-- A step that loses nothing keeps the entries in step with the timestamps. -/
theorem Tracks.insert (h : Tracks f m) (hr : span.range.start < span.range.stop) (hl : ¬ f.LosesStart span insertTS) :
    ∃ f', f.insert span insertTS = some f' ∧ Tracks f' fun k => (m k).map (raised span.range insertTS k) := by
  obtain ⟨f', hf', hord, hstamps⟩ := insert_raises h.inOrder hr hl
  refine ⟨f', hf', hord, fun k t => ?_⟩
  rw [hstamps, Multiset.mem_map, Option.map_eq_some_iff]
  exact exists_congr fun u => and_congr_left' (h.holds k u)

theorem le_raised (r : Range Bytes) (insertTS : Timestamp) (k : Bytes) (t : Timestamp) :
    t ≤ raised r insertTS k t := by
  unfold raised
  split
  · exact le_max_left t insertTS
  · exact le_rfl

/-- The frontier does not fall when timestamps are raised. -/
theorem Tracks.frontier_le (h : Tracks f m) {r : Range Bytes}
    (h' : Tracks f' fun k => (m k).map (raised r insertTS k)) : f.frontier ≤ f'.frontier := by
  rcases h'.least with hnone | hsome
  · rcases h.least with hzero | hsome
    · rw [hzero.2]; exact Nat.zero_le _
    obtain ⟨k, hk⟩ := hsome.1
    have := hnone.1 k
    rw [hk] at this
    cases this
  · obtain ⟨k, hk⟩ := hsome.1
    obtain ⟨t, ht, heq⟩ := Option.map_eq_some_iff.mp hk
    rcases h.least with hnone | hleast
    · rw [hnone.1 k] at ht; cases ht
    · exact (hleast.2 k t ht).trans (heq ▸ le_raised r insertTS k t)

/-- In every state that the calls reach the frontier is right, and each call tells whether the
    frontier rose. -/
def RunCorrect (start : Tracked) (f : Frontier) (done : List (Span × Timestamp)) :
    List (Span × Timestamp) → Prop
  | [] => True
  | (span, ts) :: ops => ∃ f' advanced, f.forward span ts = some (f', advanced) ∧
      Correct f' (after start (done ++ [(span, ts)])) ∧ f.frontier ≤ f'.frontier ∧
      (advanced = true ↔ f.frontier < f'.frontier) ∧ RunCorrect start f' (done ++ [(span, ts)]) ops

/-- No call of the run loses the start of its span. -/
def NeverLosesStart (f : Frontier) : List (Span × Timestamp) → Prop
  | [] => True
  | (span, ts) :: ops => ¬ f.LosesStart span ts ∧
      ∀ f' advanced, f.forward span ts = some (f', advanced) → NeverLosesStart f' ops

theorem forward_of_insert (h : f.insert span insertTS = some f') :
    f.forward span insertTS = some (f', decide (f.frontier < f'.frontier)) := by
  unfold forward
  rw [h]
  rfl

theorem forward_some {advanced : Bool} (h : f.forward span insertTS = some (f', advanced)) :
    f.insert span insertTS = some f' ∧ advanced = decide (f.frontier < f'.frontier) := by
  obtain ⟨g, hf, h⟩ := Option.bind_eq_some_iff.mp h
  cases h
  exact ⟨hf, rfl⟩

theorem runCorrect_iff (start : Tracked) : ∀ (ops : List (Span × Timestamp)) (f : Frontier)
    (done : List (Span × Timestamp)), Tracks f (after start done) → (∀ op ∈ ops, op.1.valid = true) →
    (RunCorrect start f done ops ↔ NeverLosesStart f ops) := by
  intro ops
  induction ops with
  | nil =>
    intro f done _ _
    exact Iff.rfl
  | cons op ops ih =>
    intro f done ht hops
    obtain ⟨span, ts⟩ := op
    have hr := Span.range_valid (hops (span, ts) (by simp))
    have hrest : ∀ op ∈ ops, op.1.valid = true := fun op hop => hops op (by simp [hop])
    by_cases hl : f.LosesStart span ts
    · -- a key that was tracked has no entry in the state after the call
      refine iff_of_false ?_ fun hnever => hnever.1 hl
      intro ⟨f', advanced, hf, hcorrect, _⟩
      obtain ⟨hbefore, hafter⟩ := insert_loses ht.inOrder hr hl (forward_some hf).1
      obtain ⟨t, hmem⟩ := Multiset.exists_mem_of_ne_zero hbefore
      have hsome : (after start (done ++ [(span, ts)]) []).isSome := by
        rw [after_concat, (ht.holds [] t).mp hmem]
        rfl
      obtain ⟨e, he, hk⟩ := (hcorrect.covers []).mpr hsome
      exact stamps_eq_zero_iff.mp hafter e he hk
    obtain ⟨f', hf', ht'⟩ := ht.insert hr hl
    have hle := ht.frontier_le ht'
    have heq : (fun k => (after start done k).map (raised span.range ts k)) = after start (done ++ [(span, ts)]) := by
      funext k
      exact (after_concat start done span ts k).symm
    rw [heq] at ht'
    have hforward := forward_of_insert hf'
    have hstep := ih f' (done ++ [(span, ts)]) ht' hrest
    constructor
    · intro ⟨g, advanced, hg, _, _, _, hrun⟩
      refine ⟨hl, fun g' advanced' hg' => ?_⟩
      rw [hforward] at hg hg'
      cases hg
      cases hg'
      exact hstep.mp hrun
    · intro ⟨_, hnever⟩
      refine ⟨f', _, hforward, ht'.correct, hle, decide_eq_true_iff, ?_⟩
      exact hstep.mpr (hnever f' _ hforward)

/-! The state in which a run begins. -/

/-- The frontier of groups of spans, each with its start timestamp: `MakeFrontierAt` for the
    first, `AddSpansAt` for the others. -/
def build : List (Timestamp × List Span) → Option Frontier
  | [] => makeFrontierAt 0 []
  | g :: groups => do groups.foldlM (fun f g => f.addSpansAt g.1 g.2) (← makeFrontierAt g.1 g.2)

def groupEntries (groups : List (Timestamp × List Span)) : List Entry :=
  groups.flatMap fun g => g.2.map fun s => ⟨s.range, g.1⟩

/-- The start timestamp of the span a key lies in. -/
def startOf (groups : List (Timestamp × List Span)) : Tracked :=
  fun k => ((groupEntries groups).find? fun e => decide (k ∈ e.keys.keys)).map (·.ts)

theorem insertEntries_append : ∀ (new more tree : List Entry),
    insertEntries tree (new ++ more) = (insertEntries tree new).bind fun t => insertEntries t more
  | [], more, tree => rfl
  | e :: new, more, tree => by
    by_cases he : e.keys.Valid
    · have hcons : ∀ l, insertEntries tree (e :: l) = insertEntries (insertByStart e tree) l := fun _ => if_pos he
      rw [cons_append, hcons, hcons]
      exact insertEntries_append new more _
    have hcons : ∀ l, insertEntries tree (e :: l) = none := fun _ => if_neg he
    rw [cons_append, hcons, hcons]
    rfl

theorem foldlM_addSpansAt : ∀ (groups : List (Timestamp × List Span)) (tree : List Entry),
    groups.foldlM (fun (f : Frontier) g => f.addSpansAt g.1 g.2) ⟨tree⟩ =
      (insertEntries tree (groupEntries groups)).map Frontier.mk
  | [], tree => rfl
  | g :: groups, tree => by
    have hflat : groupEntries (g :: groups) = g.2.map (fun s => ⟨s.range, g.1⟩) ++ groupEntries groups := by
      unfold groupEntries
      rw [flatMap_cons]
    rw [hflat, insertEntries_append, foldlM_cons]
    unfold addSpansAt
    cases insertEntries tree (g.2.map fun s => ⟨s.range, g.1⟩) with
    | none => rfl
    | some tree' => exact foldlM_addSpansAt groups tree'

theorem mem_stamps_iff_find {es : List Entry} (hone : ∀ k, (stamps es k).card ≤ 1) (k : Bytes) (t : Timestamp) :
    t ∈ stamps es k ↔ (es.find? fun e => decide (k ∈ e.keys.keys)).map (·.ts) = some t := by
  rw [Option.map_eq_some_iff]
  constructor
  · intro ht
    obtain ⟨e, he, hk, _⟩ := mem_stamps.mp ht
    cases hfind : es.find? fun e => decide (k ∈ e.keys.keys) with
    | none => exact absurd (decide_eq_true hk) (find?_eq_none.mp hfind e he)
    | some x =>
      refine ⟨x, rfl, ?_⟩
      have hkx := find?_some hfind
      have hx : x.ts ∈ stamps es k :=
        mem_stamps.mpr ⟨x, mem_of_find?_eq_some hfind, of_decide_eq_true hkx, rfl⟩
      exact stamps_eq_of_card (hone k) hx ht
  · intro ⟨x, hx, hts⟩
    have hkx := find?_some hx
    exact mem_stamps.mpr ⟨x, mem_of_find?_eq_some hx, of_decide_eq_true hkx, hts⟩

theorem build_tracks {groups : List (Timestamp × List Span)} (hvalid : ∀ g ∈ groups, ∀ s ∈ g.2, s.valid = true)
    (hdisj : (groupEntries groups).Pairwise fun a b => Disjoint a.keys.keys b.keys.keys) :
    ∃ f, build groups = some f ∧ Tracks f (startOf groups) := by
  have hone := card_stamps_of_disjoint hdisj
  have hentries : ∀ e ∈ groupEntries groups, e.keys.Valid := by
    intro e he
    obtain ⟨g, hg, he⟩ := mem_flatMap.mp he
    obtain ⟨s, hs, rfl⟩ := mem_map.mp he
    exact Span.range_valid (hvalid g hg s hs)
  obtain ⟨tree, htree, hord, hperm⟩ := insertEntries_spec (groupEntries groups) [] InOrder.nil hentries
    (fun k => by rw [append_nil]; exact hone k)
  refine ⟨⟨tree⟩, ?_, hord, fun k t => ?_⟩
  · have hbuild : build groups = groups.foldlM (fun (f : Frontier) g => f.addSpansAt g.1 g.2) ⟨[]⟩ := by
      cases groups <;> rfl
    rw [hbuild, foldlM_addSpansAt, htree]
    rfl
  · rw [append_nil] at hperm
    rw [stamps_perm hperm, mem_stamps_iff_find hone]
    rfl

/-- For disjoint tracked spans, each with its start timestamp, and any calls of `Forward` the
    frontier is right in every state if and only if no call loses the start of its span. -/
theorem frontier_correct_iff (groups : List (Timestamp × List Span)) (hvalid : ∀ g ∈ groups, ∀ s ∈ g.2, s.valid = true)
    (hdisj : (groupEntries groups).Pairwise fun a b => Disjoint a.keys.keys b.keys.keys)
    (ops : List (Span × Timestamp)) (hops : ∀ op ∈ ops, op.1.valid = true) :
    ∃ f, build groups = some f ∧ Correct f (startOf groups) ∧
      (RunCorrect (startOf groups) f [] ops ↔ NeverLosesStart f ops) := by
  obtain ⟨f, hf, ht⟩ := build_tracks hvalid hdisj
  refine ⟨f, hf, ht.correct, runCorrect_iff _ ops f [] ?_ hops⟩
  rw [after_nil]
  exact ht

/-- The keys before `b` with the start a nil slice. -/
def nilSpan : Span := ⟨none, [98]⟩

/-- Tracking the keys before `b` and forwarding just that span, with a nil start, leaves nothing
    tracked, and the frontier does not rise; with an empty slice for the start it does. -/
theorem nil_start_untracks :
    build [(0, [nilSpan])] = some ⟨[⟨⟨[], [98]⟩, 0⟩]⟩ ∧ forward ⟨[⟨⟨[], [98]⟩, 0⟩]⟩ nilSpan 1 = some (⟨[]⟩, false) ∧
      forward ⟨[⟨⟨[], [98]⟩, 0⟩]⟩ { nilSpan with key := some [] } 1 = some (⟨[⟨⟨[], [98]⟩, 1⟩]⟩, true) ∧
      ¬ RunCorrect (startOf [(0, [nilSpan])]) ⟨[⟨⟨[], [98]⟩, 0⟩]⟩ [] [(nilSpan, 1)] := by
  have hforward : forward ⟨[⟨⟨[], [98]⟩, 0⟩]⟩ nilSpan 1 = some (⟨[]⟩, false) := by decide +kernel
  refine ⟨by decide +kernel, hforward, by decide +kernel, ?_⟩
  intro ⟨f', advanced, hf, hcorrect, _⟩
  cases hf
  have hsome : (after (startOf [(0, [nilSpan])]) ([] ++ [(nilSpan, 1)]) []).isSome = true := by decide +kernel
  obtain ⟨e, he, _⟩ := (hcorrect.covers []).mpr hsome
  exact absurd he not_mem_nil

/-- Two spans and a run over both, with a point in between. -/
theorem frontier_correct_iff_two_spans :
    ∃ f, build [(0, [⟨some [97], [99]⟩]), (3, [⟨some [99], [101]⟩])] = some f ∧
      Correct f (startOf [(0, [⟨some [97], [99]⟩]), (3, [⟨some [99], [101]⟩])]) ∧
      (RunCorrect (startOf [(0, [⟨some [97], [99]⟩]), (3, [⟨some [99], [101]⟩])]) f []
          [(⟨some [98], [100]⟩, 2), (⟨some [97], []⟩, 5)] ↔
        NeverLosesStart f [(⟨some [98], [100]⟩, 2), (⟨some [97], []⟩, 5)]) := by
  refine frontier_correct_iff _ (by decide +kernel) ?_ _ (by decide +kernel)
  refine pairwise_pair.mpr (Set.disjoint_left.mpr fun k hk hk' => ?_)
  exact absurd (hk.2.trans_le hk'.1) (lt_irrefl _)

end Frontier

end Ratel.Spans
