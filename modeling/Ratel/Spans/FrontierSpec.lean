import Ratel.Spans.Frontier

/- What `insert` does to the frontier's entries. The entries that overlap the span are visited
   in order, and after each of them the entries to add, with the pending span as one more,
   give every key the timestamp the entries to remove had, raised to the inserted one inside
   the span (`Accounted.replaced`). The two extensions keep that equation: what they take in
   has the inserted timestamp already. An entry is marked for removal once only, since the
   extension to the left begins before the first entry visited, if anywhere
   (`Accounted.before`), and the one to the right behind the last. -/
namespace Ratel.Spans

open Ratel.Lib List
open Ratel.Storage (Timestamp)

theorem nil_le (k : Bytes) : [] ≤ k := not_lt.mp (not_lt_nil k)

theorem Span.range_valid {s : Span} (h : s.valid = true) : s.range.start < s.range.stop := by
  unfold Span.valid at h
  unfold Span.range Span.asRange
  split at h
  · cases h
  split at h
  case isTrue hend =>
    simp only [if_pos hend]
    exact lt_append_zero_iff.mpr le_rfl
  case isFalse hend =>
    split at h
    · cases h
    case isFalse hlt =>
      simp only [if_neg hend]
      exact not_le.mp hlt

section Extend

variable {tree A B : List Entry} {e0 : Entry} {ts : Timestamp}

/-- What touches the start of an entry: the entry itself and one that stops there. -/
theorem touching_start (h : InOrder tree) (ht : tree = A ++ e0 :: B) :
    tree.filter (fun e => e.keys.overlapsInclusive ⟨e0.keys.start, e0.keys.start⟩) =
      A.filter (fun e => decide (e.keys.stop = e0.keys.start)) ++ [e0] := by
  subst ht
  have hval : ∀ e ∈ A ++ e0 :: B, e.keys.start < e.keys.stop := h.valid
  rw [filter_append, filter_cons, if_pos]
  · congr 1
    · apply filter_congr
      intro a ha
      have hle := h.stop_le rfl ha mem_cons_self
      have hlt := hval a (by simp [ha])
      rw [Bool.eq_iff_iff, Range.overlapsInclusive_iff, decide_eq_true_iff]
      exact ⟨fun hov => le_antisymm hle hov.2, fun heq => ⟨(hlt.trans_le hle).le, heq.ge⟩⟩
    · rw [filter_eq_nil_iff.mpr]
      intro b hb hov
      have hle := h.stop_le (append_cons A e0 B) (by simp : e0 ∈ A ++ [e0]) hb
      have hlt := hval e0 (by simp)
      exact absurd (Range.overlapsInclusive_iff.mp hov).1 (not_le.mpr (hlt.trans_le hle))
  · exact Range.overlapsInclusive_iff.mpr ⟨le_rfl, (hval e0 (by simp)).le⟩

/-- Of the entries before another only the last can stop where it starts. -/
theorem stopping_last {A₁ : List Entry} {a : Entry} (h : InOrder tree) (ht : tree = (A₁ ++ [a]) ++ e0 :: B) :
    (A₁ ++ [a]).filter (fun e => decide (e.keys.stop = e0.keys.start)) =
      if a.keys.stop = e0.keys.start then [a] else [] := by
  have hnone : A₁.filter (fun e => decide (e.keys.stop = e0.keys.start)) = [] := by
    rw [filter_eq_nil_iff]
    intro x hx hstop
    have hxa := h.stop_le (ht.trans (append_assoc A₁ [a] _)) hx mem_cons_self
    have hae := h.stop_le ht (by simp : a ∈ A₁ ++ [a]) mem_cons_self
    have hval : a.keys.start < a.keys.stop := h.valid a (by simp [ht])
    exact absurd (of_decide_eq_true hstop) (ne_of_lt (hxa.trans_lt (hval.trans_le hae)))
  rw [filter_append, hnone, nil_append]
  by_cases heq : a.keys.stop = e0.keys.start <;> simp [heq]

/-- What is taken in to the left is a run of entries with the timestamp that ends where the
    range starts. -/
def TakenLeft (ts : Timestamp) (A : List Entry) (start : Bytes) (left : Bytes × List Entry) : Prop :=
  ∃ A' C, A = A' ++ C ∧ left.2 = C.reverse ∧ left.1 ≤ start ∧ (∀ k, stamps C k = stamps [⟨⟨left.1, start⟩, ts⟩] k) ∧
    (C ≠ [] → ∃ a, A.getLast? = some a ∧ a.keys.stop = start ∧ a.ts = ts)

theorem extendRangeToTheLeft_spec (h : InOrder tree) (ts : Timestamp) :
    ∀ (fuel : Nat) (A : List Entry) (e0 : Entry) (B : List Entry), tree = A ++ e0 :: B → A.length ≤ fuel →
      TakenLeft ts A e0.keys.start (extendRangeToTheLeft tree ts fuel e0.keys.start) := by
  intro fuel
  -- nothing is taken in
  have hnone : ∀ (A : List Entry) (e0 : Entry), TakenLeft ts A e0.keys.start (e0.keys.start, []) := by
    intro A e0
    refine ⟨A, [], by simp, rfl, le_rfl, fun k => ?_, fun hne => absurd rfl hne⟩
    rw [stamps_empty le_rfl, stamps_nil]
  induction fuel with
  | zero =>
    intro A e0 B _ _
    exact hnone A e0
  | succ fuel ih =>
    intro A e0 B ht hlen
    unfold extendRangeToTheLeft
    rw [touching_start h ht]
    rcases A.eq_nil_or_concat with hA | hA
    · subst hA
      exact hnone [] e0
    obtain ⟨A₁, a, rfl⟩ := hA
    rw [concat_eq_append] at ht hlen ⊢
    rw [stopping_last h ht]
    by_cases hstop : a.keys.stop = e0.keys.start
    · rw [if_pos hstop]
      by_cases hts : a.ts = ts
      · simp only [cons_append, nil_append, if_pos hts]
        have hlen' : A₁.length ≤ fuel := by
          rw [length_append, length_singleton] at hlen
          omega
        have ht' : tree = A₁ ++ a :: e0 :: B := by
          rw [ht, append_assoc]
          rfl
        obtain ⟨A', C, hA, hcov, hle, hstamps, _⟩ := ih A₁ a (e0 :: B) ht' hlen'
        have hval : a.keys.start < a.keys.stop := h.valid a (by rw [ht]; simp)
        refine ⟨A', C ++ [a], by rw [hA, append_assoc], ?_, ?_, fun k => ?_, fun _ => ?_⟩
        · rw [hcov, reverse_append]
          rfl
        · exact hle.trans (hval.le.trans hstop.le)
        · have hpiece : stamps [a] k = stamps [⟨⟨a.keys.start, e0.keys.start⟩, ts⟩] k := by
            rw [← hstop, ← hts]
          rw [stamps_append, hstamps, hpiece]
          exact stamps_join hle (hval.le.trans hstop.le) ts
        · exact ⟨a, by simp, hstop, hts⟩
      · simp only [cons_append, nil_append, if_neg hts]
        exact hnone (A₁ ++ [a]) e0
    · rw [if_neg hstop]
      exact hnone (A₁ ++ [a]) e0

/-- What holds the key at which an entry stops: the next entry, if it starts there. -/
theorem touching_stop (h : InOrder tree) (ht : tree = A ++ e0 :: B) :
    tree.filter (fun e => e.keys.overlapsExclusive ⟨e0.keys.stop, next e0.keys.stop⟩) =
      B.filter (fun e => decide (e.keys.start = e0.keys.stop)) := by
  subst ht
  have hval : ∀ e ∈ A ++ e0 :: B, e.keys.start < e.keys.stop := h.valid
  have hleft : A.filter (fun e => e.keys.overlapsExclusive ⟨e0.keys.stop, next e0.keys.stop⟩) = [] := by
    rw [filter_eq_nil_iff]
    intro a ha hov
    have hle := h.stop_le rfl ha mem_cons_self
    have hlt := (Range.overlapsExclusive_iff.mp hov).2
    exact absurd (hlt.trans_le hle) (not_lt.mpr (hval e0 (by simp)).le)
  have hself : ¬ e0.keys.overlapsExclusive ⟨e0.keys.stop, next e0.keys.stop⟩ = true := fun hov =>
    lt_irrefl _ (Range.overlapsExclusive_iff.mp hov).2
  rw [filter_append, hleft, filter_cons, if_neg hself]
  apply filter_congr
  intro b hb
  have hle := h.stop_le (append_cons A e0 B) (by simp : e0 ∈ A ++ [e0]) hb
  have hlt := hval b (by simp [hb])
  rw [Bool.eq_iff_iff, Range.overlapsExclusive_iff, decide_eq_true_iff, next, lt_append_zero_iff]
  exact ⟨fun hov => le_antisymm hov.1 hle, fun heq => ⟨heq.le, hle.trans_lt hlt⟩⟩

/-- Of the entries behind another only the first can start where it stops. -/
theorem starting_first {b : Entry} {B₁ : List Entry} (h : InOrder tree) (ht : tree = A ++ e0 :: b :: B₁) :
    (b :: B₁).filter (fun e => decide (e.keys.start = e0.keys.stop)) =
      if b.keys.start = e0.keys.stop then [b] else [] := by
  have h := h.sublist (ht ▸ sublist_append_right A _)
  have hnone : B₁.filter (fun e => decide (e.keys.start = e0.keys.stop)) = [] := by
    rw [filter_eq_nil_iff]
    intro x hx hstart
    have hbx := h.of_cons.head_le hx
    have heb := h.head_le mem_cons_self
    have hval : b.keys.start < b.keys.stop := h.valid b (by simp)
    exact absurd (of_decide_eq_true hstart) (ne_of_gt (heb.trans_lt (hval.trans_le hbx)))
  rw [filter_cons, hnone]
  by_cases heq : b.keys.start = e0.keys.stop <;> simp [heq]

/-- What is taken in to the right is a run of entries with the timestamp that starts where the
    range ends. -/
def TakenRight (ts : Timestamp) (B : List Entry) (stop : Bytes) (right : Bytes × List Entry) : Prop :=
  ∃ C B', B = C ++ B' ∧ right.2 = C ∧ stop ≤ right.1 ∧ ∀ k, stamps C k = stamps [⟨⟨stop, right.1⟩, ts⟩] k

theorem extendRangeToTheRight_spec (h : InOrder tree) (ts : Timestamp) :
    ∀ (fuel : Nat) (A : List Entry) (e0 : Entry) (B : List Entry), tree = A ++ e0 :: B →
      TakenRight ts B e0.keys.stop (extendRangeToTheRight tree ts fuel e0.keys.stop) := by
  intro fuel
  have hnone : ∀ (B : List Entry) (e0 : Entry), TakenRight ts B e0.keys.stop (e0.keys.stop, []) := by
    intro B e0
    refine ⟨[], B, rfl, rfl, le_rfl, fun k => ?_⟩
    rw [stamps_empty le_rfl, stamps_nil]
  induction fuel with
  | zero =>
    intro A e0 B _
    exact hnone B e0
  | succ fuel ih =>
    intro A e0 B ht
    unfold extendRangeToTheRight
    rw [touching_stop h ht]
    cases B with
    | nil => exact hnone [] e0
    | cons b B₁ =>
      rw [starting_first h ht]
      by_cases hstart : b.keys.start = e0.keys.stop
      · rw [if_pos hstart]
        by_cases hts : b.ts = ts
        · simp only [if_pos hts]
          have ht' : tree = (A ++ [e0]) ++ b :: B₁ := by
            rw [ht, append_assoc]
            rfl
          obtain ⟨C, B', hB, hcov, hle, hstamps⟩ := ih (A ++ [e0]) b B₁ ht'
          have hval : b.keys.start < b.keys.stop := h.valid b (by rw [ht]; simp)
          refine ⟨b :: C, B', by rw [hB]; rfl, by rw [hcov], ?_, fun k => ?_⟩
          · exact (hstart.ge.trans hval.le).trans hle
          have hpiece : stamps [b] k = stamps [⟨⟨e0.keys.stop, b.keys.stop⟩, ts⟩] k := by
            rw [← hstart, ← hts]
          rw [stamps_cons, hstamps, hpiece]
          exact stamps_join (hstart.ge.trans hval.le) hle ts
        · simp only [if_neg hts]
          exact hnone (b :: B₁) e0
      · rw [if_neg hstart]
        exact hnone (b :: B₁) e0

end Extend

/-! The loop of `insert`. -/

/-- The timestamp of a key after the span was forwarded. -/
def raised (r : Range Bytes) (insertTS : Timestamp) (k : Bytes) (t : Timestamp) : Timestamp :=
  if k ∈ r.keys then max t insertTS else t

namespace Inserting

/-- The pending span as an entry; it may be empty. -/
def pendingEntry (st : Inserting) (insertTS : Timestamp) : Entry :=
  ⟨⟨st.pendingStart.key, st.pendingEnd⟩, insertTS⟩

/-- What is to be added stands for what is to be removed. -/
structure Accounted (tree : List Entry) (r : Range Bytes) (insertTS : Timestamp) (st : Inserting) : Prop where
  replaced : ∀ k, stamps st.toAdd k + stamps [st.pendingEntry insertTS] k =
    (stamps st.toRemove k).map (raised r insertTS k)
  valid : ∀ e ∈ st.toAdd, e.keys.Valid
  removed : st.toRemove ⊆ tree
  once : st.toRemove.Nodup
  pending_le : st.pendingStart.key ≤ st.pendingEnd
  -- an entry that would be taken in to the left was not visited
  before : st.extendLeft = true → st.pendingStart.key ≠ st.pendingEnd →
    ∃ A e0 B, tree = A ++ e0 :: B ∧ e0.keys.start = st.pendingStart.key ∧
      ((∃ a, A.getLast? = some a ∧ a.keys.stop = e0.keys.start ∧ a.ts = insertTS) → ∀ x ∈ A, x ∉ st.toRemove)

variable {tree : List Entry} {r : Range Bytes} {insertTS : Timestamp} {st : Inserting}

/-- With nothing pending the account is one equation. -/
theorem Accounted.of_closed (hstart : st.pendingStart = none) (hend : st.pendingEnd = [])
    (hreplaced : ∀ k, stamps st.toAdd k = (stamps st.toRemove k).map (raised r insertTS k))
    (hvalid : ∀ e ∈ st.toAdd, e.keys.Valid) (hremoved : st.toRemove ⊆ tree) (honce : st.toRemove.Nodup) :
    Accounted tree r insertTS st := by
  have hkey : st.pendingStart.key = st.pendingEnd := by rw [hstart, hend, Slice.key_none]
  refine ⟨fun k => ?_, hvalid, hremoved, honce, hkey.le, fun _ hne => absurd hkey hne⟩
  have hempty : stamps [st.pendingEntry insertTS] k = 0 := stamps_empty hkey.ge insertTS
  rw [hempty, add_zero, hreplaced]

theorem raised_self (r : Range Bytes) (insertTS : Timestamp) (k : Bytes) :
    raised r insertTS k insertTS = insertTS := by
  unfold raised
  split
  · exact max_self insertTS
  · rfl

/-- A piece with the inserted timestamp keeps it. -/
theorem map_raised_stamps (r : Range Bytes) (insertTS : Timestamp) (p : Range Bytes) (k : Bytes) :
    (stamps [(⟨p, insertTS⟩ : Entry)] k).map (raised r insertTS k) = stamps [⟨p, insertTS⟩] k :=
  map_stamps fun _ => raised_self r insertTS k

theorem Accounted.addPending (ht : InOrder tree) (h : Accounted tree r insertTS st) :
    Accounted tree r insertTS (st.addPending tree insertTS) := by
  unfold Inserting.addPending flush
  by_cases hp : st.pendingStart.key = st.pendingEnd
  · rw [if_pos hp]
    refine .of_closed rfl rfl (fun k => ?_) h.valid h.removed h.once
    have hempty : stamps [st.pendingEntry insertTS] k = 0 := stamps_empty hp.ge insertTS
    rw [← h.replaced k, hempty, add_zero]
  rw [if_neg hp]
  have hlt : st.pendingStart.key < st.pendingEnd := lt_of_le_of_ne h.pending_le hp
  by_cases hleft : st.extendLeft = true
  · rw [if_pos hleft]
    obtain ⟨A, e0, B, htree, hstart, hfresh⟩ := h.before hleft hp
    have hlen : A.length ≤ tree.length := by
      rw [htree, length_append]
      omega
    obtain ⟨A', C, hA, hcov, hle, hstamps, hlast⟩ :=
      extendRangeToTheLeft_spec ht insertTS tree.length A e0 B htree hlen
    rw [← hstart]
    have hsub : C.Sublist tree := by
      rw [htree, hA, append_assoc]
      exact (sublist_append_left C _).trans (sublist_append_right A' _)
    have hnew : ∀ x ∈ C, x ∉ st.toRemove := by
      intro x hx
      have hne : C ≠ [] := ne_nil_of_mem hx
      exact hfresh (hlast hne) x (by rw [hA]; simp [hx])
    refine .of_closed rfl rfl (fun k => ?_) ?_ ?_ ?_
    · -- what is taken in already has the timestamp
      have hpend : stamps [st.pendingEntry insertTS] k = stamps [⟨⟨e0.keys.start, st.pendingEnd⟩, insertTS⟩] k := by
        rw [hstart]
        rfl
      simp only [addEntry]
      rw [stamps_append, stamps_append, Multiset.map_add, ← h.replaced k, hcov,
        stamps_perm (reverse_perm C), hstamps, map_raised_stamps, hpend, add_assoc,
        add_comm (stamps [_] k) (stamps [_] k), stamps_join hle (hstart.trans_le h.pending_le)]
    · exact forall_mem_append.mpr ⟨h.valid, forall_mem_singleton.mpr ((hle.trans hstart.le).trans_lt hlt)⟩
    · simp only [addEntry]
      rw [hcov]
      exact append_subset.mpr ⟨h.removed, fun x hx => hsub.subset (mem_reverse.mp hx)⟩
    · simp only [addEntry]
      rw [hcov]
      refine List.Nodup.append h.once (nodup_reverse.mpr (ht.nodup.sublist hsub)) ?_
      intro x hx hxC
      exact hnew x (mem_reverse.mp hxC) hx
  · rw [if_neg hleft]
    refine .of_closed rfl rfl (fun k => ?_) ?_ h.removed h.once
    · simp only [addEntry]
      rw [stamps_append]
      exact h.replaced k
    · exact forall_mem_append.mpr ⟨h.valid, forall_mem_singleton.mpr hlt⟩

@[simp] theorem addPending_todoStart (st : Inserting) (tree : List Entry) (insertTS : Timestamp) :
    (st.addPending tree insertTS).todoStart = st.todoStart := by
  unfold addPending flush
  split
  · rfl
  · split <;> rfl

/-- What adding the pending span takes in stops at its start or before. -/
theorem addPending_removed (ht : InOrder tree) (h : Accounted tree r insertTS st) {x : Entry}
    (hx : x ∈ (st.addPending tree insertTS).toRemove) : x ∈ st.toRemove ∨ x.keys.stop ≤ st.pendingStart.key := by
  unfold addPending flush at hx
  by_cases hp : st.pendingStart.key = st.pendingEnd
  · rw [if_pos hp] at hx
    exact .inl hx
  rw [if_neg hp] at hx
  by_cases hleft : st.extendLeft = true
  · rw [if_pos hleft] at hx
    obtain ⟨A, e0, B, htree, hstart, _⟩ := h.before hleft hp
    have hlen : A.length ≤ tree.length := by
      rw [htree, length_append]
      omega
    obtain ⟨A', C, hA, hcov, _⟩ := extendRangeToTheLeft_spec ht insertTS tree.length A e0 B htree hlen
    rw [← hstart] at hx ⊢
    simp only [addEntry, hcov, mem_append, mem_reverse] at hx
    refine hx.imp_right fun hxC => ?_
    exact ht.stop_le htree (hA ▸ mem_append_right A' hxC) mem_cons_self
  · rw [if_neg hleft] at hx
    exact .inl hx

/-- Where the loop stands once the entries `P` were visited; `L` are those before the span. -/
structure Reached (r : Range Bytes) (insertTS : Timestamp) (P : List Entry) (st : Inserting) : Prop where
  todo : ∃ t, st.todoStart = some t
  behind : ∀ x ∈ st.toRemove, x.keys.stop ≤ st.todoStart.key
  pending : st.pendingStart = none ∧ st.pendingEnd = [] ∨
    ∃ p, st.pendingStart = some p ∧ p < st.pendingEnd ∧ st.pendingEnd ≤ st.todoStart.key
  first : P = [] → st.todoStart.key = r.start ∧ st.toRemove = [] ∧ st.pendingStart = none
  last : ∀ p, P.getLast? = some p → st.todoStart.key = p.keys.stop ∧ (¬ insertTS < p.ts → st.pendingEnd = p.keys.stop)

/-- The state in which an entry is split: what is pending stops where it starts. -/
structure Ready (tree : List Entry) (r : Range Bytes) (insertTS : Timestamp) (A : List Entry) (o : Entry)
    (st : Inserting) : Prop where
  accounted : Accounted tree r insertTS st
  todo : st.todoStart = some (max r.start o.keys.start)
  behind : ∀ x ∈ st.toRemove, x.keys.stop ≤ o.keys.start
  pending :
    (st.pendingStart = none ∧ st.pendingEnd = [] ∧
      ((∃ a, A.getLast? = some a ∧ a.keys.stop = o.keys.start ∧ a.ts = insertTS) → ∀ x ∈ A, x ∉ st.toRemove)) ∨
    ∃ p, st.pendingStart = some p ∧ p < st.pendingEnd ∧ st.pendingEnd = o.keys.start ∧ r.start ≤ o.keys.start

/-- One entry of the walk, with those before the span, those visited and those to come. -/
structure Walk (tree : List Entry) (r : Range Bytes) (L P : List Entry) (o : Entry) (B : List Entry) : Prop where
  tree_eq : tree = (L ++ P) ++ o :: B
  left : ∀ e ∈ L, e.keys.stop ≤ r.start
  visited : ∀ e ∈ P, r.start < e.keys.stop
  start_lt : o.keys.start < r.stop
  lt_stop : r.start < o.keys.stop

variable {L P A B : List Entry} {o : Entry}

theorem Walk.stop_le (ht : InOrder tree) (hw : Walk tree r L P o B) {x : Entry} (hx : x ∈ L ++ P) :
    x.keys.stop ≤ o.keys.start := ht.stop_le hw.tree_eq hx mem_cons_self

theorem Walk.valid (ht : InOrder tree) (hw : Walk tree r L P o B) : o.keys.start < o.keys.stop :=
  ht.valid o (by rw [hw.tree_eq]; simp)

/-- What is still to do when the walk comes to an entry. -/
theorem Reached.todo_le (ht : InOrder tree) (hw : Walk tree r L P o B) (hr : Reached r insertTS P st) :
    st.todoStart.key ≤ max r.start o.keys.start ∧
      (r.start ≤ o.keys.start ∨ st.todoStart.key = r.start ∧ st.toRemove = [] ∧ st.pendingStart = none) := by
  by_cases hP : P = []
  · have hfirst := hr.first hP
    exact ⟨hfirst.1.trans_le (le_max_left _ _), .inr hfirst⟩
  obtain ⟨p, hp⟩ := getLast?_isSome.mpr hP |> Option.isSome_iff_exists.mp
  have hmem : p ∈ P := mem_of_getLast? hp
  have hle : p.keys.stop ≤ o.keys.start := hw.stop_le ht (mem_append_right L hmem)
  refine ⟨?_, .inl ((hw.visited p hmem).le.trans hle)⟩
  rw [(hr.last p hp).1]
  exact hle.trans (le_max_right _ _)

theorem trim_todo (hle : st.todoStart.key ≤ max r.start o.keys.start)
    (hor : r.start ≤ o.keys.start ∨ st.todoStart.key = r.start) (hsome : ∃ t, st.todoStart = some t) :
    (st.trim o).todoStart = some (max r.start o.keys.start) := by
  obtain ⟨t, ht⟩ := hsome
  unfold trim
  rw [ht] at hle hor ⊢
  split
  case isTrue hlt =>
    have hmax : max r.start o.keys.start = o.keys.start := by
      rcases hor with hro | heq
      · exact max_eq_right hro
      · exact max_eq_right (heq ▸ hlt.le)
    rw [hmax]
  case isFalse hge =>
    rw [ht]
    refine congrArg some (le_antisymm hle (max_le ?_ (not_lt.mp hge)))
    rcases hor with hro | heq
    · exact hro.trans (not_lt.mp hge)
    · exact heq.ge

theorem trim_pending (st : Inserting) (o : Entry) :
    (st.trim o).pendingStart = st.pendingStart ∧ (st.trim o).pendingEnd = st.pendingEnd ∧
      (st.trim o).toRemove = st.toRemove := by
  unfold trim
  split <;> exact ⟨rfl, rfl, rfl⟩

theorem Accounted.trim (h : Accounted tree r insertTS st) (o : Entry) :
    Accounted tree r insertTS (st.trim o) := by
  unfold Inserting.trim
  split
  · exact ⟨h.replaced, h.valid, h.removed, h.once, h.pending_le, h.before⟩
  · exact h

/-- An entry that stops where the next one starts and has the inserted timestamp was visited
    and is pending, or it lies before the span and nothing was removed yet. -/
theorem Reached.fresh (ht : InOrder tree) (hw : Walk tree r L P o B) (hr : Reached r insertTS P st)
    (hidle : st.pendingEnd = o.keys.start → st.pendingStart = none)
    (ha : ∃ a, (L ++ P).getLast? = some a ∧ a.keys.stop = o.keys.start ∧ a.ts = insertTS) :
    st.toRemove = [] ∧ st.pendingStart = none := by
  obtain ⟨a, hlast, hstop, hts⟩ := ha
  by_cases hP : P = []
  · exact (hr.first hP).2
  have hlastP : P.getLast? = some a := by
    rw [getLast?_append_of_ne_nil L hP] at hlast
    exact hlast
  have hmem : a ∈ tree := by
    rw [hw.tree_eq]
    exact mem_append_left _ (mem_append_right _ (mem_of_getLast? hlastP))
  have hend : st.pendingEnd = a.keys.stop := (hr.last a hlastP).2 (by rw [hts]; exact lt_irrefl _)
  have hnone := hidle (hend.trans hstop)
  have hnil : a.keys.stop = [] := by
    rcases hr.pending with h | h
    · exact hend ▸ h.2
    obtain ⟨p, hp, _⟩ := h
    rw [hnone] at hp
    cases hp
  have hval : a.keys.start < a.keys.stop := ht.valid a hmem
  rw [hnil] at hval
  exact absurd hval (not_lt_nil _)

theorem Reached.ready (ht : InOrder tree) (hw : Walk tree r L P o B) (h : Accounted tree r insertTS st)
    (hr : Reached r insertTS P st) :
    Ready tree r insertTS (L ++ P) o ((st.separate tree insertTS o).trim o) := by
  obtain ⟨htodo, hstart⟩ := hr.todo_le ht hw
  have hpend : st.pendingStart.key ≤ o.keys.start := by
    rcases hr.pending with hp | hp
    · rw [hp.1]; exact nil_le _
    obtain ⟨p, hp, hlt, hle⟩ := hp
    rcases hstart with hro | hnone
    · rw [hp]; exact hlt.le.trans (hle.trans (htodo.trans_eq (max_eq_right hro)))
    · rw [hnone.2.2] at hp; cases hp
  have hbehind : ∀ x ∈ st.toRemove, x.keys.stop ≤ o.keys.start := by
    intro x hx
    rcases hstart with hro | hnone
    · exact (hr.behind x hx).trans (htodo.trans_eq (max_eq_right hro))
    · rw [hnone.2.1] at hx; cases hx
  have hor : r.start ≤ o.keys.start ∨ st.todoStart.key = r.start := hstart.imp_right And.left
  unfold separate
  by_cases hsep : o.keys.start = st.pendingEnd
  · rw [if_neg (not_not.mpr hsep)]
    obtain ⟨hps, hpe, hrm⟩ := trim_pending st o
    refine ⟨h.trim o, trim_todo htodo hor hr.todo, hrm ▸ hbehind, ?_⟩
    rw [hps, hpe, hrm]
    rcases hr.pending with hp | hp
    · refine .inl ⟨hp.1, hp.2, fun ha x _ => ?_⟩
      rw [(hr.fresh ht hw (fun _ => hp.1) ha).1]
      exact not_mem_nil
    obtain ⟨p, hp, hlt, _⟩ := hp
    refine .inr ⟨p, hp, hlt, hsep.symm, hstart.resolve_right fun hnone => ?_⟩
    rw [hnone.2.2] at hp
    cases hp
  rw [if_pos hsep]
  have hacc := h.addPending ht
  obtain ⟨hps, hpe, hrm⟩ := trim_pending (st.addPending tree insertTS) o
  have htodo' : ((st.addPending tree insertTS).trim o).todoStart = some (max r.start o.keys.start) := by
    refine trim_todo ?_ ?_ ?_ <;> rw [addPending_todoStart]
    · exact htodo
    · exact hor
    · exact hr.todo
  refine ⟨hacc.trim o, htodo', ?_, ?_⟩
  · rw [hrm]
    intro x hx
    rcases addPending_removed ht h hx with hx | hx
    · exact hbehind x hx
    · exact hx.trans hpend
  rw [hps, hpe, hrm]
  refine .inl ⟨rfl, rfl, fun ha x hx hmem => ?_⟩
  have hnothing := hr.fresh ht hw (fun heq => absurd heq.symm hsep) ha
  rcases addPending_removed ht h hmem with hmem | hle
  · rw [hnothing.1] at hmem; cases hmem
  rw [hnothing.2] at hle
  have hval : x.keys.start < x.keys.stop :=
    ht.valid x (by rw [hw.tree_eq]; exact mem_append_left _ hx)
  exact absurd (hval.trans_le hle) (not_lt_nil _)

theorem map_raised_outside {p : Range Bytes} (h : ∀ k ∈ p.keys, k ∉ r.keys) (t : Timestamp) (k : Bytes) :
    (stamps [(⟨p, t⟩ : Entry)] k).map (raised r insertTS k) = stamps [⟨p, t⟩] k :=
  map_stamps fun hk => if_neg (h k hk)

theorem map_raised_inside {p : Range Bytes} (h : ∀ k ∈ p.keys, k ∈ r.keys) {t : Timestamp} (ht : t ≤ insertTS)
    (k : Bytes) :
    (stamps [(⟨p, t⟩ : Entry)] k).map (raised r insertTS k) = stamps [⟨p, insertTS⟩] k :=
  map_stamps fun hk => (if_pos (h k hk)).trans (max_eq_right ht)

/-- An entry in three parts: before, inside and behind the span. -/
theorem map_raised_entry (hn : ¬ insertTS < o.ts) (hvalid : o.keys.start < o.keys.stop) (hr : r.start < r.stop)
    (hstart : o.keys.start < r.stop) (hstop : r.start < o.keys.stop) (k : Bytes) :
    (stamps [o] k).map (raised r insertTS k) = stamps [⟨⟨o.keys.start, max r.start o.keys.start⟩, o.ts⟩] k +
        stamps [⟨⟨max r.start o.keys.start, min r.stop o.keys.stop⟩, insertTS⟩] k +
        stamps [⟨⟨min r.stop o.keys.stop, o.keys.stop⟩, o.ts⟩] k := by
  have hmid : max r.start o.keys.start ≤ min r.stop o.keys.stop :=
    max_le (le_min hr.le hstop.le) (le_min hstart.le hvalid.le)
  have hleft : o.keys.start ≤ max r.start o.keys.start := le_max_right _ _
  have hright : min r.stop o.keys.stop ≤ o.keys.stop := min_le_right _ _
  have hparts : stamps [o] k = stamps [⟨⟨o.keys.start, max r.start o.keys.start⟩, o.ts⟩] k +
      stamps [⟨⟨max r.start o.keys.start, min r.stop o.keys.stop⟩, o.ts⟩] k +
      stamps [⟨⟨min r.stop o.keys.stop, o.keys.stop⟩, o.ts⟩] k := by
    rw [stamps_join hleft hmid, stamps_join (hleft.trans hmid) hright]
  rw [hparts, Multiset.map_add, Multiset.map_add]
  congr 1
  · congr 1
    · apply map_raised_outside
      intro x hx hxr
      exact absurd hx.2 (not_lt.mpr (max_le hxr.1 hx.1))
    apply map_raised_inside _ (not_lt.mp hn)
    intro x hx
    exact ⟨(le_max_left _ _).trans hx.1, lt_of_lt_of_le hx.2 (min_le_left _ _)⟩
  · apply map_raised_outside
    intro x hx hxr
    exact absurd hx.1 (not_le.mpr (lt_min hxr.2 hx.2))

/-- The part behind the span is empty or has the inserted timestamp. -/
theorem map_raised_whole (hn : ¬ insertTS < o.ts) (hvalid : o.keys.start < o.keys.stop) (hr : r.start < r.stop)
    (hstart : o.keys.start < r.stop) (hstop : r.start < o.keys.stop)
    (hwhole : o.keys.stop ≤ r.stop ∨ o.ts = insertTS) (k : Bytes) :
    (stamps [o] k).map (raised r insertTS k) = stamps [⟨⟨o.keys.start, max r.start o.keys.start⟩, o.ts⟩] k +
        stamps [⟨⟨max r.start o.keys.start, o.keys.stop⟩, insertTS⟩] k := by
  rw [map_raised_entry hn hvalid hr hstart hstop, add_assoc]
  congr 1
  have hmid : max r.start o.keys.start ≤ min r.stop o.keys.stop :=
    max_le (le_min hr.le hstop.le) (le_min hstart.le hvalid.le)
  by_cases hle : o.keys.stop ≤ r.stop
  · rw [min_eq_right hle, stamps_empty (le_refl o.keys.stop), add_zero]
  · rw [hwhole.resolve_left hle]
    exact stamps_join hmid (min_le_right _ _) insertTS

/-- What is pending once the entry is consumed. -/
def merged (st : Inserting) : Slice := if st.pendingStart = none then st.todoStart else st.pendingStart

theorem Ready.merged_eq (h : Ready tree r insertTS A o st) :
    ∃ p, st.merged = some p ∧ p ≤ max r.start o.keys.start ∧ ∀ x, max r.start o.keys.start ≤ x → ∀ k,
        stamps [st.pendingEntry insertTS] k + stamps [⟨⟨max r.start o.keys.start, x⟩, insertTS⟩] k =
          stamps [⟨⟨p, x⟩, insertTS⟩] k := by
  unfold merged
  rcases h.pending with hp | hp
  · rw [if_pos hp.1]
    refine ⟨_, h.todo, le_rfl, fun x _ k => ?_⟩
    have hempty : stamps [st.pendingEntry insertTS] k = 0 := by
      unfold pendingEntry
      rw [hp.1, hp.2.1]
      exact stamps_empty le_rfl insertTS
    rw [hempty, zero_add]
  · obtain ⟨p, hp, hlt, hend, hro⟩ := hp
    rw [if_neg (by rw [hp]; exact Option.some_ne_none p), hp, max_eq_right hro]
    refine ⟨p, rfl, hlt.le.trans hend.le, fun x hx k => ?_⟩
    unfold pendingEntry
    rw [hp, hend]
    exact stamps_join (hlt.le.trans hend.le) hx insertTS

theorem splitLeft_stamps (st : Inserting) (o : Entry) (k : Bytes) :
    stamps (st.splitLeft o).toAdd k = stamps st.toAdd k + stamps [⟨⟨o.keys.start, st.todoStart.key⟩, o.ts⟩] k := by
  unfold splitLeft
  split
  case isTrue hlt => exact stamps_append _ _ k
  case isFalse hge => rw [stamps_empty (not_lt.mp hge), add_zero]

theorem splitLeft_fields (st : Inserting) (o : Entry) :
    (st.splitLeft o).todoStart = st.todoStart ∧ (st.splitLeft o).pendingStart = st.pendingStart ∧
      (st.splitLeft o).pendingEnd = st.pendingEnd ∧ (st.splitLeft o).toRemove = st.toRemove := by
  unfold splitLeft
  split <;> exact ⟨rfl, rfl, rfl, rfl⟩

theorem splitLeft_valid (h : ∀ e ∈ st.toAdd, e.keys.Valid) :
    ∀ e ∈ (st.splitLeft o).toAdd, e.keys.Valid := by
  unfold splitLeft
  split
  case isTrue hlt => exact forall_mem_append.mpr ⟨h, forall_mem_singleton.mpr hlt⟩
  case isFalse => exact h

/-- Only a span that starts where the entry starts may still be extended to the left. -/
theorem splitLeft_extendLeft (h : (st.splitLeft o).extendLeft = true) :
    st.todoStart.key ≤ o.keys.start ∧ st.extendLeft = true := by
  unfold splitLeft at h
  split at h
  case isTrue => cases h
  case isFalse hge => exact ⟨not_lt.mp hge, h⟩

/-- The entry is marked and the part before the span split off. -/
def marked (st : Inserting) (o : Entry) : Inserting :=
  { st with toRemove := st.toRemove ++ [o] }.splitLeft o

theorem marked_merged (st : Inserting) (o : Entry) : (st.marked o).merged = st.merged := by
  obtain ⟨htodo, hstart, _⟩ := splitLeft_fields { st with toRemove := st.toRemove ++ [o] } o
  unfold merged marked
  rw [htodo, hstart]

theorem marked_toRemove (st : Inserting) (o : Entry) : (st.marked o).toRemove = st.toRemove ++ [o] :=
  (splitLeft_fields _ o).2.2.2

/-- However much of the entry and of what follows it is consumed, the account is kept if its
    parts add up. -/
theorem Ready.settle (ht : InOrder tree) (htree : tree = A ++ o :: B) (h : Ready tree r insertTS A o st)
    {st' : Inserting} {X D : List Entry} (hx : max r.start o.keys.start < st'.pendingEnd)
    (hadd : st'.toAdd = (st.marked o).toAdd ++ X) (hrem : st'.toRemove = (st.marked o).toRemove ++ D)
    (hstart : st'.pendingStart = st.merged) (hleft : st'.extendLeft = (st.marked o).extendLeft)
    (hX : ∀ e ∈ X, e.keys.Valid) (hD : D.Sublist B)
    (hparts : ∀ k, (stamps (o :: D) k).map (raised r insertTS k) =
      stamps [⟨⟨o.keys.start, max r.start o.keys.start⟩, o.ts⟩] k +
        stamps [⟨⟨max r.start o.keys.start, st'.pendingEnd⟩, insertTS⟩] k + stamps X k) :
    Accounted tree r insertTS st' := by
  obtain ⟨p, hp, hple, hjoin⟩ := h.merged_eq
  have htodo : st.todoStart.key = max r.start o.keys.start := by rw [h.todo, Slice.key_some]
  have hkey : st'.pendingStart.key = p := by rw [hstart, hp, Slice.key_some]
  have hsub : (o :: D).Sublist tree := by
    rw [htree]
    exact (hD.cons_cons o).trans (sublist_append_right A _)
  have hord := ht.sublist hsub
  have hstarts : ∀ y ∈ o :: D, o.keys.start ≤ y.keys.start :=
    forall_mem_cons.mpr ⟨le_rfl, fun y hy => (hord.valid o mem_cons_self).le.trans (hord.head_le hy)⟩
  have hrem' : st'.toRemove = st.toRemove ++ (o :: D) := by
    rw [hrem, marked_toRemove, append_assoc]
    rfl
  refine ⟨fun k => ?_, ?_, ?_, ?_, ?_, fun hext hne => ?_⟩
  · have hpend : stamps [st'.pendingEntry insertTS] k = stamps [st.pendingEntry insertTS] k +
          stamps [⟨⟨max r.start o.keys.start, st'.pendingEnd⟩, insertTS⟩] k := by
      rw [hjoin _ hx.le]
      unfold pendingEntry
      rw [hkey]
    have hmarked := splitLeft_stamps { st with toRemove := st.toRemove ++ [o] } o k
    rw [hrem', stamps_append, Multiset.map_add, ← h.accounted.replaced k, hparts, hadd, stamps_append, hpend]
    unfold marked
    rw [hmarked]
    simp only [htodo]
    abel
  · rw [hadd]
    exact forall_mem_append.mpr ⟨splitLeft_valid h.accounted.valid, hX⟩
  · rw [hrem']
    exact append_subset.mpr ⟨h.accounted.removed, hsub.subset⟩
  · rw [hrem']
    refine List.Nodup.append h.accounted.once (ht.nodup.sublist hsub) ?_
    intro x hx hxD
    have hval : x.keys.start < x.keys.stop := ht.valid x (hsub.subset hxD)
    exact absurd (hval.trans_le ((h.behind x hx).trans (hstarts x hxD))) (lt_irrefl _)
  · rw [hkey]
    exact hple.trans hx.le
  -- where the pending span starts, and that what lies before it is not marked
  rw [hleft] at hext
  obtain ⟨hle, hext⟩ := splitLeft_extendLeft hext
  rw [show Slice.key ({ st with toRemove := st.toRemove ++ [o] } : Inserting).todoStart =
    max r.start o.keys.start from htodo] at hle
  have hunmarked : ∀ {e : Entry} {x : Entry}, x.keys.stop ≤ e.keys.start → e.keys.start ≤ o.keys.start →
      x ∈ tree → x ∉ o :: D := by
    intro e x hxe heo hxt hxD
    have hval : x.keys.start < x.keys.stop := ht.valid x hxt
    exact absurd (hval.trans_le (hxe.trans (heo.trans (hstarts x hxD)))) (lt_irrefl _)
  unfold merged at hp
  rcases h.pending with hnone | hsome
  · rw [if_pos hnone.1, h.todo] at hp
    have hpo : p = o.keys.start := by
      rw [← Option.some.inj hp]
      exact le_antisymm hle (le_max_right _ _)
    refine ⟨A, o, B, htree, by rw [hkey, hpo], fun ha x hxA hmem => ?_⟩
    rw [hrem', mem_append] at hmem
    rcases hmem with hmem | hmem
    · exact hnone.2.2 ha x hxA hmem
    · exact hunmarked (ht.stop_le htree hxA mem_cons_self) le_rfl (by simp [htree, hxA]) hmem
  obtain ⟨q, hq, hlt, hend, _⟩ := hsome
  rw [if_neg (by rw [hq]; exact Option.some_ne_none q), hq] at hp
  have hqp : q = p := Option.some.inj hp
  have hne' : st.pendingStart.key ≠ st.pendingEnd := by
    rw [hq, Slice.key_some]
    exact hlt.ne
  obtain ⟨A', e0, B', htree', he0, hfresh⟩ := h.accounted.before hext hne'
  have heo : e0.keys.start ≤ o.keys.start := by
    rw [he0, hq, Slice.key_some]
    exact hlt.le.trans hend.le
  refine ⟨A', e0, B', htree', by rw [he0, hkey, hq, Slice.key_some, hqp], fun ha x hxA hmem => ?_⟩
  rw [hrem', mem_append] at hmem
  rcases hmem with hmem | hmem
  · exact hfresh ha x hxA hmem
  · exact hunmarked (ht.stop_le htree' hxA mem_cons_self) heo (by simp [htree', hxA]) hmem

theorem consumePrefix_twice {a b : Bytes} (h : st.merged ≠ none) :
    (st.consumePrefix a).consumePrefix b = st.consumePrefix b := by
  unfold merged at h
  unfold consumePrefix
  simp only [if_neg h]

theorem Ready.consume (ht : InOrder tree) (hr : r.start < r.stop) (hw : Walk tree r L P o B)
    (h : Ready tree r insertTS (L ++ P) o st) (hn : ¬ insertTS < o.ts) :
    Accounted tree r insertTS ((st.marked o).consume tree r.stop insertTS o) := by
  have hov := hw.valid ht
  have htodo_stop : max r.start o.keys.start < o.keys.stop := max_lt hw.lt_stop hov
  have htodo_end : max r.start o.keys.start < r.stop := max_lt hr hw.start_lt
  obtain ⟨p, hp, _⟩ := h.merged_eq
  have hmerged : (st.marked o).merged = some p := by rw [marked_merged, hp]
  unfold Inserting.consume
  by_cases hend : r.stop ≤ o.keys.stop
  · rw [if_pos hend]
    by_cases hpart : r.stop < o.keys.stop ∧ o.ts ≠ insertTS
    · -- the part behind the span keeps its timestamp
      simp only [if_pos hpart]
      refine h.settle ht hw.tree_eq (X := [⟨⟨r.stop, o.keys.stop⟩, o.ts⟩]) (D := []) htodo_end rfl
        (append_nil _).symm (marked_merged st o) rfl ?_ (nil_sublist B) fun k => ?_
      · exact forall_mem_singleton.mpr hpart.1
      · rw [map_raised_entry hn hov hr hw.start_lt hw.lt_stop, min_eq_left hend]
        rfl
    -- all of the entry is consumed, and what follows it with the same timestamp
    simp only [if_neg hpart]
    rw [consumePrefix_twice (by rw [hmerged]; exact Option.some_ne_none p)]
    obtain ⟨C, B', hB, hcov, hle, hstamps⟩ :=
      extendRangeToTheRight_spec ht insertTS tree.length (L ++ P) o B hw.tree_eq
    have hpe : ((st.marked o).consumePrefix o.keys.stop).pendingEnd = o.keys.stop := rfl
    have hwhole : o.keys.stop ≤ r.stop ∨ o.ts = insertTS := by
      by_cases hlt : r.stop < o.keys.stop
      · exact .inr (not_not.mp fun hne => hpart ⟨hlt, hne⟩)
      · exact .inl (not_lt.mp hlt)
    refine h.settle ht hw.tree_eq (X := []) (D := C) (htodo_stop.trans_le hle) (append_nil _).symm ?_
      (marked_merged st o) rfl (fun e he => absurd he not_mem_nil) ?_ fun k => ?_
    · rw [hpe, hcov]
      rfl
    · rw [hB]
      exact sublist_append_left C B'
    rw [stamps_cons, Multiset.map_add, hstamps, map_raised_stamps, stamps_nil, add_zero,
      map_raised_whole hn hov hr hw.start_lt hw.lt_stop hwhole, add_assoc,
      stamps_join htodo_stop.le hle]
    rfl
  · rw [if_neg hend]
    refine h.settle ht hw.tree_eq (X := []) (D := []) htodo_stop (append_nil _).symm
      (append_nil _).symm (marked_merged st o) rfl (fun e he => absurd he not_mem_nil)
      (nil_sublist B) fun k => ?_
    rw [map_raised_whole hn hov hr hw.start_lt hw.lt_stop (.inl (not_le.mp hend).le), stamps_nil, add_zero]
    rfl

theorem Accounted.visit (ht : InOrder tree) (hr : r.start < r.stop) (hw : Walk tree r L P o B)
    (h : Accounted tree r insertTS st) (hreached : Reached r insertTS P st) :
    Accounted tree r insertTS (visit tree r.stop insertTS st o) := by
  have hready := hreached.ready ht hw h
  unfold Inserting.visit
  by_cases hn : insertTS < o.ts
  · simp only [if_pos hn]
    have hacc := hready.accounted
    exact ⟨hacc.replaced, hacc.valid, hacc.removed, hacc.once, hacc.pending_le, hacc.before⟩
  · simp only [if_neg hn]
    exact hready.consume ht hr hw hn

/-- An entry that stops inside the span leaves the walk where it stops. -/
theorem Reached.visit (ht : InOrder tree) (hw : Walk tree r L P o B)
    (h : Accounted tree r insertTS st) (hreached : Reached r insertTS P st)
    (hin : insertTS < o.ts ∨ o.keys.stop < r.stop) :
    Reached r insertTS (P ++ [o]) (visit tree r.stop insertTS st o) := by
  have hready := hreached.ready ht hw h
  have hov := hw.valid ht
  unfold Inserting.visit
  have hlast : ∀ p, (P ++ [o]).getLast? = some p → p = o := by
    intro p hp
    rw [getLast?_concat] at hp
    exact (Option.some.inj hp).symm
  by_cases hn : insertTS < o.ts
  · simp only [if_pos hn]
    refine ⟨⟨_, rfl⟩, fun x hx => (hready.behind x hx).trans hov.le, ?_, fun hP => ?_, fun p hp => ?_⟩
    · rcases hready.pending with hp | hp
      · exact .inl ⟨hp.1, hp.2.1⟩
      · obtain ⟨p, hp, hlt, hend, _⟩ := hp
        exact .inr ⟨p, hp, hlt, hend.trans_le hov.le⟩
    · simp at hP
    · rw [hlast p hp]
      exact ⟨rfl, fun hge => absurd hn hge⟩
  simp only [if_neg hn]
  have hend : ¬ r.stop ≤ o.keys.stop := not_le.mpr (hin.resolve_left hn)
  obtain ⟨q, hq, hqle, _⟩ := hready.merged_eq
  have hmerged := marked_merged ((st.separate tree insertTS o).trim o) o
  unfold consume
  rw [if_neg hend]
  refine ⟨⟨_, rfl⟩, ?_, .inr ⟨q, hmerged.trans hq, ?_, le_rfl⟩, fun hP => ?_, fun p hp => ?_⟩
  · change ∀ x ∈ (((st.separate tree insertTS o).trim o).marked o).toRemove, x.keys.stop ≤ o.keys.stop
    rw [marked_toRemove]
    exact forall_mem_append.mpr ⟨fun x hx => (hready.behind x hx).trans hov.le, forall_mem_singleton.mpr le_rfl⟩
  · exact hqle.trans_lt (max_lt hw.lt_stop hov)
  · simp at hP
  · rw [hlast p hp]
    exact ⟨rfl, fun _ => rfl⟩

/-- The whole walk keeps the account: an entry that reaches the end of the span is the last. -/
theorem Accounted.walk {R : List Entry} (ht : InOrder tree) (hr : r.start < r.stop)
    (hL : ∀ e ∈ L, e.keys.stop ≤ r.start) :
    ∀ (Q P : List Entry) (st : Inserting), tree = (L ++ P) ++ (Q ++ R) → (∀ e ∈ P, r.start < e.keys.stop) →
      (∀ e ∈ Q, e.keys.start < r.stop ∧ r.start < e.keys.stop) → Accounted tree r insertTS st →
      Reached r insertTS P st → Accounted tree r insertTS (Q.foldl (Inserting.visit tree r.stop insertTS) st) := by
  intro Q
  induction Q with
  | nil =>
    intro P st _ _ _ h _
    exact h
  | cons o Q ih =>
    intro P st htree hP hQ h hreached
    have ho := hQ o (by simp)
    have hw : Walk tree r L P o (Q ++ R) := ⟨htree, hL, hP, ho.1, ho.2⟩
    have hvisit := h.visit ht hr hw hreached
    by_cases hin : insertTS < o.ts ∨ o.keys.stop < r.stop
    · refine ih (P ++ [o]) _ ?_ ?_ (fun e he => hQ e (by simp [he])) hvisit (hreached.visit ht hw h hin)
      · rw [htree]
        simp
      · exact forall_mem_append.mpr ⟨hP, forall_mem_singleton.mpr ho.2⟩
    -- no entry behind this one starts before the span ends
    rw [not_or, not_lt, not_lt] at hin
    have hnil : Q = [] := by
      rw [eq_nil_iff_forall_not_mem]
      intro q hq
      have hoq := (ht.sublist (htree ▸ sublist_append_right _ _)).head_le (mem_append_left R hq)
      exact absurd (hQ q (by simp [hq])).1 (not_lt.mpr (hin.2.trans hoq))
    rw [hnil]
    exact hvisit

theorem toRemove_subset_addPending (st : Inserting) (tree : List Entry) (insertTS : Timestamp) :
    st.toRemove ⊆ (st.addPending tree insertTS).toRemove := by
  unfold addPending flush
  split
  · exact List.Subset.refl _
  split
  · exact subset_append_left _ _
  · exact List.Subset.refl _

theorem toRemove_subset_consume (st : Inserting) (tree : List Entry) (todoEnd : Bytes) (insertTS : Timestamp)
    (o : Entry) : st.toRemove ⊆ (st.consume tree todoEnd insertTS o).toRemove := by
  unfold consume
  split
  · split
    · exact List.Subset.refl _
    · exact subset_append_left _ _
  · exact List.Subset.refl _

/-- A mark is never taken back, and an entry that is not newer is marked. -/
theorem toRemove_visit (st : Inserting) (tree : List Entry) (todoEnd : Bytes) (insertTS : Timestamp) (o : Entry) :
    st.toRemove ⊆ (visit tree todoEnd insertTS st o).toRemove ∧
      (¬ insertTS < o.ts → o ∈ (visit tree todoEnd insertTS st o).toRemove) := by
  have hready : st.toRemove ⊆ ((st.separate tree insertTS o).trim o).toRemove := by
    rw [(trim_pending _ o).2.2]
    unfold separate
    split
    · exact toRemove_subset_addPending st tree insertTS
    · exact List.Subset.refl _
  unfold visit
  by_cases hn : insertTS < o.ts
  · simp only [if_pos hn]
    exact ⟨hready, fun hge => absurd hn hge⟩
  simp only [if_neg hn]
  have hmarked := marked_toRemove ((st.separate tree insertTS o).trim o) o
  have hkeep := toRemove_subset_consume (((st.separate tree insertTS o).trim o).marked o) tree todoEnd insertTS o
  rw [hmarked] at hkeep
  exact ⟨fun x hx => hkeep (mem_append_left _ (hready hx)), fun _ => hkeep (by simp)⟩

theorem toRemove_walk (tree : List Entry) (todoEnd : Bytes) (insertTS : Timestamp) :
    ∀ (Q : List Entry) (st : Inserting), st.toRemove ⊆ (Q.foldl (visit tree todoEnd insertTS) st).toRemove ∧
        ∀ o ∈ Q, ¬ insertTS < o.ts → o ∈ (Q.foldl (visit tree todoEnd insertTS) st).toRemove := by
  intro Q
  induction Q with
  | nil =>
    intro st
    exact ⟨List.Subset.refl _, fun o ho => absurd ho not_mem_nil⟩
  | cons q Q ih =>
    intro st
    obtain ⟨hkeep, hmark⟩ := ih (visit tree todoEnd insertTS st q)
    obtain ⟨hkeep', hmark'⟩ := toRemove_visit st tree todoEnd insertTS q
    refine ⟨fun x hx => hkeep (hkeep' hx), fun o ho hn => ?_⟩
    rcases mem_cons.mp ho with heq | ho
    · rw [heq] at hn ⊢
      exact hkeep (hmark' hn)
    · exact hmark o ho hn

end Inserting

/-! Carrying the plan out. -/

theorem removeEntries_spec : ∀ (gone tree : List Entry), tree.Nodup → gone.Nodup → gone ⊆ tree →
    ∃ kept, removeEntries tree gone = some kept ∧ tree.Perm (gone ++ kept) ∧ kept.Sublist tree
  | [], tree, _, _, _ => ⟨tree, rfl, List.Perm.refl tree, List.Sublist.refl tree⟩
  | e :: gone, tree, ht, hg, hsub => by
    have he : e ∈ tree := hsub (by simp)
    obtain ⟨hnot, hg'⟩ := nodup_cons.mp hg
    have hsub' : gone ⊆ tree.erase e := by
      intro x hx
      rw [ht.mem_erase_iff]
      refine ⟨fun heq => hnot (heq ▸ hx), hsub (by simp [hx])⟩
    obtain ⟨kept, hkept, hperm, hle⟩ := removeEntries_spec gone (tree.erase e) (ht.erase e) hg' hsub'
    refine ⟨kept, ?_, ?_, hle.trans erase_sublist⟩
    · unfold removeEntries
      rw [if_pos he]
      exact hkept
    · exact (perm_cons_erase he).trans (hperm.cons e)

theorem insertEntries_spec : ∀ (new tree : List Entry), InOrder tree → (∀ e ∈ new, e.keys.Valid) →
    (∀ k, (stamps (new ++ tree) k).card ≤ 1) →
    ∃ tree', insertEntries tree new = some tree' ∧ InOrder tree' ∧ tree'.Perm (new ++ tree)
  | [], tree, ht, _, _ => ⟨tree, rfl, ht, List.Perm.refl tree⟩
  | e :: new, tree, ht, hv, hone => by
    have he : e.keys.Valid := hv e (by simp)
    have hperm := insertByStart_perm e tree
    have hmid : (new ++ insertByStart e tree).Perm (e :: new ++ tree) :=
      (hperm.append_left new).trans perm_middle
    have htree : InOrder (insertByStart e tree) := by
      apply ht.insertByStart he
      intro k
      have hle := hone k
      rw [cons_append, stamps_cons, stamps_append, Multiset.card_add, Multiset.card_add] at hle
      rw [stamps_cons, Multiset.card_add]
      omega
    obtain ⟨tree', htree', hord, hperm'⟩ := insertEntries_spec new (insertByStart e tree) htree
      (fun x hx => hv x (by simp [hx])) (fun k => by rw [stamps_perm hmid]; exact hone k)
    refine ⟨tree', ?_, hord, hperm'.trans hmid⟩
    unfold insertEntries
    rw [if_pos he]
    exact htree'

namespace Frontier

variable {f : Frontier} {span : Span}

theorem mem_matching {r : Range Bytes} {e : Entry} :
    e ∈ f.matching r ↔ e ∈ f.tree ∧ e.keys.start < r.stop ∧ r.start < e.keys.stop := by
  unfold matching
  rw [mem_filter, Range.overlapsExclusive_iff]

/-- The plan of an insertion whose span does not start at a nil key. -/
theorem planInsert_spec (ht : InOrder f.tree) (hr : span.range.start < span.range.stop)
    (hkey : span.asRange.1 ≠ none) (insertTS : Timestamp) :
    (∀ k, stamps (f.planInsert span insertTS).toAdd k =
      (stamps (f.planInsert span insertTS).toRemove k).map (raised span.range insertTS k)) ∧
    (∀ e ∈ (f.planInsert span insertTS).toAdd, e.keys.Valid) ∧
    (f.planInsert span insertTS).toRemove ⊆ f.tree ∧ (f.planInsert span insertTS).toRemove.Nodup := by
  obtain ⟨t, hsome⟩ := Option.ne_none_iff_exists'.mp hkey
  obtain ⟨L, R, htree, hL, hR⟩ := ht.split (r := span.range)
  have hbegin : Inserting.Accounted f.tree span.range insertTS (beginInsert span) :=
    .of_closed rfl rfl (fun k => rfl) (fun e he => absurd he not_mem_nil) (nil_subset _) nodup_nil
  have hreached : Inserting.Reached span.range insertTS [] (beginInsert span) := by
    refine ⟨⟨t, hsome⟩, fun x hx => absurd hx not_mem_nil, .inl ⟨rfl, rfl⟩, fun _ => ?_, fun p hp => ?_⟩
    · exact ⟨rfl, rfl, rfl⟩
    · cases hp
  have hwalk := hbegin.walk (L := L) (R := R) ht hr hL (f.matching span.range) []
    (beginInsert span) (by rw [append_nil, ← append_assoc]; exact htree)
    (fun e he => absurd he not_mem_nil) (fun e he => (mem_matching.mp he).2) hreached
  have hplan := hwalk.addPending ht
  refine ⟨fun k => ?_, hplan.valid, hplan.removed, hplan.once⟩
  have hempty : stamps [(f.planInsert span insertTS).pendingEntry insertTS] k = 0 :=
    stamps_empty le_rfl insertTS
  have heq := hplan.replaced k
  rw [← add_zero (stamps (f.planInsert span insertTS).toAdd k), ← hempty]
  exact heq

/-- An entry that stays is not changed by the insertion: it lies outside the span or is newer. -/
theorem map_raised_kept {kept : List Entry} {insertTS : Timestamp}
    (h : ∀ e ∈ kept, ∀ k ∈ e.keys.keys, k ∈ span.range.keys → insertTS < e.ts) (k : Bytes) :
    (stamps kept k).map (raised span.range insertTS k) = stamps kept k := by
  have heq : ∀ t ∈ stamps kept k, raised span.range insertTS k t = t := by
    intro t ht
    obtain ⟨e, he, hk, hts⟩ := mem_stamps.mp ht
    unfold raised
    split
    case isTrue hin =>
      rw [← hts]
      exact max_eq_left (h e he k hk hin).le
    case isFalse => rfl
  rw [Multiset.map_congr rfl heq, Multiset.map_id']

/-- Inserting a span that does not start at a nil key raises the timestamps in it. -/
theorem insert_spec (ht : InOrder f.tree) (hr : span.range.start < span.range.stop)
    (hkey : span.asRange.1 ≠ none) (insertTS : Timestamp) :
    ∃ f', f.insert span insertTS = some f' ∧ InOrder f'.tree ∧
      ∀ k, stamps f'.tree k = (stamps f.tree k).map (raised span.range insertTS k) := by
  obtain ⟨hstamps, hvalid, hsub, honce⟩ := planInsert_spec ht hr hkey insertTS
  obtain ⟨kept, hkept, hperm, hle⟩ :=
    removeEntries_spec (f.planInsert span insertTS).toRemove f.tree ht.nodup honce hsub
  have hnodup : ((f.planInsert span insertTS).toRemove ++ kept).Nodup := hperm.nodup_iff.mp ht.nodup
  have hstay : ∀ e ∈ kept, ∀ k ∈ e.keys.keys, k ∈ span.range.keys → insertTS < e.ts := by
    intro e he k hk hin
    by_contra hn
    have hmem : e ∈ f.matching span.range :=
      mem_matching.mpr ⟨hle.subset he, lt_of_le_of_lt hk.1 hin.2, lt_of_le_of_lt hin.1 hk.2⟩
    have hgone := (Inserting.toRemove_walk f.tree span.asRange.2 insertTS (f.matching span.range)
      (beginInsert span)).2 e hmem hn
    have hgone' := Inserting.toRemove_subset_addPending _ f.tree insertTS hgone
    exact (nodup_append.mp hnodup).2.2 e hgone' e he rfl
  have htotal : ∀ k, stamps ((f.planInsert span insertTS).toAdd ++ kept) k =
      (stamps f.tree k).map (raised span.range insertTS k) := by
    intro k
    rw [stamps_append, hstamps, stamps_perm hperm, stamps_append, Multiset.map_add, map_raised_kept hstay]
  obtain ⟨tree', htree', hord, hperm'⟩ := insertEntries_spec (f.planInsert span insertTS).toAdd kept
    (ht.sublist hle) hvalid (fun k => by rw [htotal, Multiset.card_map]; exact ht.card_stamps k)
  refine ⟨⟨tree'⟩, ?_, hord, fun k => ?_⟩
  · unfold insert
    simp only [hkept, htree', Option.bind_eq_bind, Option.bind_some, Option.pure_def]
  · rw [stamps_perm hperm', htotal]

end Frontier

end Ratel.Spans
