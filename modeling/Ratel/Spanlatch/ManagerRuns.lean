import Ratel.Spanlatch.Manager
import Mathlib.Logic.Relation

/- Mutual exclusion of latches over every interleaving. While a guard's latches are in the manager,
   a snapshot that a conflicting guard takes later contains them: the write tree is always cloned,
   and the read set is flushed into the read tree before a writer clones that. So a guard that was
   sequenced earlier and is not released is among the rounds that the later one still has to make,
   and a round is only left behind when the latch is released or its timestamp lets it be ignored,
   which it does not if the two conflict. All rounds are against latches of earlier guards, which is
   why waiting has no cycles. -/
namespace Ratel.Spanlatch

open Ratel.Lib List

/-! Conflicts. -/

/-- A read below a write: neither is without a timestamp, and the read's is lower. -/
def ReadBelow (read write : Timestamp) : Prop := read.isEmpty = false ∧ write.isEmpty = false ∧ read.less write = true

/-- Two latches of one scope that must not be held together. -/
def Conflicts (a₁ : SpanAccess) (la₁ : Latch) (a₂ : SpanAccess) (la₂ : Latch) : Prop :=
  la₁.span.overlaps la₂.span = true ∧
    match a₁, a₂ with
    | .spanReadOnly, .spanReadOnly => False
    | .spanReadWrite, .spanReadWrite => True
    | .spanReadOnly, .spanReadWrite => ¬ ReadBelow la₁.ts la₂.ts
    | .spanReadWrite, .spanReadOnly => ¬ ReadBelow la₂.ts la₁.ts

def Guard.Conflict (lg lg' : Guard) : Prop :=
  ∃ s a a', ∃ la ∈ lg.latches s a, ∃ la' ∈ lg'.latches s a', Conflicts a la a' la'

theorem overlaps_comm (a b : Span) : a.overlaps b = b.overlaps a := Bool.and_comm _ _

variable {a₁ a₂ a : SpanAccess} {la₁ la₂ : Latch} {s : SpanScope}

theorem Conflicts.symm (h : Conflicts a₁ la₁ a₂ la₂) :
    Conflicts a₂ la₂ a₁ la₁ := by
  refine ⟨(overlaps_comm _ _).trans h.1, ?_⟩
  have h2 := h.2
  cases a₁ <;> cases a₂ <;> exact h2

theorem Guard.Conflict.symm {lg lg' : Guard} (h : lg.Conflict lg') : lg'.Conflict lg := by
  obtain ⟨s, a, a', la, hla, la', hla', h⟩ := h
  exact ⟨s, a', a, la', hla', la, hla, h.symm⟩

/-- The function by which a latch of one access ignores one of another. -/
def ignoreFor (wait held : SpanAccess) : IgnoreFn :=
  match wait, held with
  | .spanReadOnly, _ => .ignoreLater
  | .spanReadWrite, .spanReadWrite => .ignoreNothing
  | .spanReadWrite, .spanReadOnly => .ignoreEarlier

theorem not_isEmpty_of_less {t s : Timestamp} (h : t.less s = true) : s.isEmpty = false := by
  simp only [Timestamp.less, Bool.or_eq_true, Bool.and_eq_true, decide_eq_true_eq] at h
  cases hs : s.isEmpty with
  | false => rfl
  | true =>
    simp only [Timestamp.isEmpty, Bool.and_eq_true, decide_eq_true_eq] at hs
    omega

/-- Conflicting latches do not ignore one another. -/
theorem Conflicts.not_ignored (h : Conflicts a₁ la₁ a₂ la₂) :
    (ignoreFor a₂ a₁).apply la₂.ts la₁.ts = false := by
  by_contra hig
  have hig := Bool.eq_true_of_not_eq_false hig
  have h2 := h.2
  cases a₁ <;> cases a₂
  · exact h2
  · obtain ⟨hne, hless⟩ := (Bool.and_eq_true _ _).mp hig
    exact h2 ⟨by simpa using hne, not_isEmpty_of_less hless, hless⟩
  · obtain ⟨hne, hless⟩ := (Bool.and_eq_true _ _).mp hig
    exact h2 ⟨by simpa using hne, not_isEmpty_of_less hless, hless⟩
  · cases hig

/-! Trees and scopes. -/

theorem eq_id_of_cmp {a b : Latch} (h : cmp a b = .eq) : a.id = b.id := by
  exact threeWay_eq_iff.mp (Ordering.then_eq_eq.mp h).2

namespace Btree

theorem mem_set_self (la : Latch) : ∀ t : Btree, la ∈ Btree.set la t
  | [] => mem_cons_self
  | x :: t => by
    rw [Btree.set]
    split
    · exact mem_cons_self
    · exact mem_cons_self
    · exact mem_cons_of_mem _ (mem_set_self la t)

variable {la y : Latch}

/-- A latch with another id stays. -/
theorem mem_set_of_mem (hid : la.id = y.id → la = y) : ∀ {t : Btree}, y ∈ t → y ∈ Btree.set la t
  | x :: t, h => by
    rw [Btree.set]
    split
    · exact mem_cons_of_mem _ h
    · next heq =>
      rcases mem_cons.mp h with hyx | hmem
      · subst hyx
        rw [hid (eq_id_of_cmp heq)]
        exact mem_cons_self
      · exact mem_cons_of_mem _ hmem
    · rcases mem_cons.mp h with hyx | hmem
      · exact hyx ▸ mem_cons_self
      · exact mem_cons_of_mem _ (mem_set_of_mem hid hmem)

theorem mem_of_mem_set : ∀ {t : Btree}, y ∈ Btree.set la t → y = la ∨ y ∈ t
  | [], h => .inl (mem_singleton.mp h)
  | x :: t, h => by
    rw [Btree.set] at h
    split at h
    · exact mem_cons.mp h
    · rcases mem_cons.mp h with heq | hmem
      · exact .inl heq
      · exact .inr (mem_cons_of_mem _ hmem)
    · rcases mem_cons.mp h with heq | hmem
      · exact .inr (heq ▸ mem_cons_self)
      · exact (mem_of_mem_set hmem).imp_right (mem_cons_of_mem _)

theorem mem_delete_of_mem {t : Btree} (h : y ∈ t) (hid : la.id ≠ y.id) : y ∈ Btree.delete la t :=
  (mem_eraseP_of_neg (by simpa using fun heq => hid (eq_id_of_cmp heq))).mpr h

/-- Latches moved into a tree one after another. -/
theorem mem_foldl_set : ∀ (l : List Latch) (t : Btree), (∀ x ∈ l, x.id = y.id → x = y) → y ∈ l ∨ y ∈ t →
    y ∈ l.foldl (fun t la => Btree.set la t) t
  | [], _, _, h => h.resolve_left not_mem_nil
  | x :: l, t, hid, h => by
    refine mem_foldl_set l _ (forall_mem_cons.mp hid).2 ?_
    rcases h with h | h
    · rcases mem_cons.mp h with heq | hmem
      · exact .inr (heq ▸ mem_set_self _ t)
      · exact .inl hmem
    · exact .inr (mem_set_of_mem (hid x mem_cons_self) h)

theorem mem_of_mem_foldl_set : ∀ (l : List Latch) (t : Btree),
    y ∈ l.foldl (fun t la => Btree.set la t) t → y ∈ l ∨ y ∈ t
  | [], _, h => .inr h
  | x :: l, t, h => by
    rcases mem_of_mem_foldl_set l _ h with hmem | hmem
    · exact .inl (mem_cons_of_mem _ hmem)
    rcases mem_of_mem_set hmem with heq | hmem
    · exact .inl (heq ▸ mem_cons_self)
    · exact .inr hmem

end Btree

theorem mem_inOrder {α : Type} {l : SpanScope → SpanAccess → List α} {x : α} :
    (s, a, x) ∈ inOrder l ↔ x ∈ l s a := by
  cases s <;> cases a <;> simp [inOrder, numSpanScope, numSpanAccess]

namespace ScopedManager

variable {sm : ScopedManager} {a a' : SpanAccess} {la y : Latch}

/-- Where a latch is while its guard has it in the manager. -/
def Held (sm : ScopedManager) (a : SpanAccess) (la : Latch) : Prop :=
  match a with
  | .spanReadOnly => la ∈ sm.readSet ∨ la ∈ sm.trees .spanReadOnly
  | .spanReadWrite => la ∈ sm.trees .spanReadWrite

def Stored (sm : ScopedManager) (la : Latch) : Prop := la ∈ sm.readSet ∨ ∃ a, la ∈ sm.trees a

theorem held_flush (hid : ∀ x ∈ sm.readSet, x.id = y.id → x = y) (h : sm.Held a y) :
    sm.flushReadSetLocked.Held a y := by
  cases a with
  | spanReadOnly => exact .inr (Btree.mem_foldl_set _ _ hid h)
  | spanReadWrite => exact h

theorem stored_flush (h : sm.flushReadSetLocked.Stored y) : sm.Stored y := by
  rcases h with h | h
  · cases h
  obtain ⟨a, h⟩ := h
  simp only [flushReadSetLocked] at h
  split at h
  · exact (Btree.mem_of_mem_foldl_set _ _ h).imp_right fun hmem => ⟨a, hmem⟩
  · exact .inr ⟨a, h⟩

theorem held_insert_self : (sm.insert a la).Held a la := by
  cases a with
  | spanReadOnly => exact .inl (mem_append_right _ (mem_singleton_self la))
  | spanReadWrite => exact Btree.mem_set_self la _

theorem held_insert (h : sm.Held a' y) (hid : la.id ≠ y.id) : (sm.insert a la).Held a' y := by
  cases a with
  | spanReadOnly =>
    cases a' with
    | spanReadOnly => exact h.imp_left (mem_append_left _)
    | spanReadWrite => exact h
  | spanReadWrite =>
    cases a' with
    | spanReadOnly => exact h
    | spanReadWrite => exact Btree.mem_set_of_mem (fun heq => absurd heq hid) h

theorem stored_insert (h : (sm.insert a la).Stored y) : sm.Stored y ∨ y = la := by
  cases a with
  | spanReadOnly =>
    rcases h with h | h
    · rcases mem_append.mp h with h | h
      · exact .inl (.inl h)
      · exact .inr (mem_singleton.mp h)
    · exact .inl (.inr h)
  | spanReadWrite =>
    rcases h with h | ⟨a', h⟩
    · exact .inl (.inl h)
    simp only [insert, setTree] at h
    split at h
    · rcases Btree.mem_of_mem_set h with heq | hmem
      · exact .inr heq
      · exact .inl (.inr ⟨_, hmem⟩)
    · exact .inl (.inr ⟨a', h⟩)

theorem held_remove (h : sm.Held a' y) (hid : la.id ≠ y.id) : (sm.remove a la).Held a' y := by
  unfold remove
  split
  · cases a' with
    | spanReadOnly => exact h.imp_left fun hmem => mem_filter.mpr ⟨hmem, by simpa using fun heq => hid heq.symm⟩
    | spanReadWrite => exact h
  have htree : ∀ a'', y ∈ sm.trees a'' → y ∈ (sm.setTree a (Btree.delete la (sm.trees a))).trees a'' := by
    intro a'' hmem
    simp only [setTree]
    split
    · next ha => exact Btree.mem_delete_of_mem (ha ▸ hmem) hid
    · exact hmem
  cases a' with
  | spanReadOnly => exact h.imp_right (htree _)
  | spanReadWrite => exact htree _ h

theorem stored_remove (h : (sm.remove a la).Stored y) : sm.Stored y := by
  unfold remove at h
  split at h
  · exact h.imp_left fun hmem => (mem_filter.mp hmem).1
  refine h.imp_right fun ⟨a', hmem⟩ => ?_
  simp only [setTree] at hmem
  split at hmem
  · exact ⟨a, mem_of_mem_eraseP hmem⟩
  · exact ⟨a', hmem⟩

end ScopedManager

namespace Manager

variable {m : Manager} {s s' : SpanScope} {a a' : SpanAccess} {la y : Latch}

def Held (m : Manager) (s : SpanScope) (a : SpanAccess) (la : Latch) : Prop := (m.scopes s).Held a la

def Stored (m : Manager) (la : Latch) : Prop := ∃ s, (m.scopes s).Stored la

/-! Flushing, inserting and removing. -/

theorem held_snapshot (spans : SpanSet) (hid : ∀ x, m.Stored x → x.id = y.id → x = y) (h : m.Held s a y) :
    (m.snapshotLocked spans).1.Held s a y := by
  show ScopedManager.Held (m.flushFor spans s) a y
  unfold flushFor
  split
  · exact ScopedManager.held_flush (fun x hx => hid x ⟨s, .inl hx⟩) h
  · exact h

theorem stored_snapshot (spans : SpanSet) (h : (m.snapshotLocked spans).1.Stored y) : m.Stored y := by
  obtain ⟨s, h⟩ := h
  replace h : ScopedManager.Stored (m.flushFor spans s) y := h
  unfold flushFor at h
  split at h
  · exact ⟨s, ScopedManager.stored_flush h⟩
  · exact ⟨s, h⟩

theorem held_setScope {sm : ScopedManager} (h : m.Held s' a' y) (hs : s' = s → sm.Held a' y) :
    (m.setScope s sm).Held s' a' y := by
  unfold Held setScope
  simp only
  split
  · next heq => exact hs heq
  · exact h

theorem stored_setScope {sm : ScopedManager} (h : (m.setScope s sm).Stored y) : m.Stored y ∨ sm.Stored y := by
  obtain ⟨s', h⟩ := h
  simp only [setScope] at h
  split at h
  · exact .inr h
  · exact .inl ⟨s', h⟩

theorem held_remove (h : m.Held s' a' y) (hid : la.id ≠ y.id) :
    (m.setScope s ((m.scopes s).remove a la)).Held s' a' y :=
  held_setScope h fun heq => ScopedManager.held_remove (heq ▸ h) hid

theorem stored_remove (h : (m.setScope s ((m.scopes s).remove a la)).Stored y) : m.Stored y := by
  rcases stored_setScope h with h | h
  · exact h
  · exact ⟨s, ScopedManager.stored_remove h⟩

/-- `removeLocked` leaves the latches with other ids. -/
theorem removeLocked_spec (latches : Latches) :
    (∀ s a y, m.Held s a y → (∀ s' a', ∀ la ∈ latches s' a', la.id ≠ y.id) → (m.removeLocked latches).Held s a y) ∧
      (∀ y, (m.removeLocked latches).Stored y → m.Stored y) ∧ (m.removeLocked latches).idAlloc = m.idAlloc := by
  refine foldlRecOn (motive := fun m' : Manager => (∀ s a y, m.Held s a y →
      (∀ s' a', ∀ la ∈ latches s' a', la.id ≠ y.id) → m'.Held s a y) ∧ (∀ y, m'.Stored y → m.Stored y) ∧
      m'.idAlloc = m.idAlloc) (inOrder latches) _ ⟨fun _ _ _ h _ => h, fun _ h => h, rfl⟩ ?_
  intro m' ⟨hheld, hstored, halloc⟩ req hreq
  refine ⟨fun s a y h hid => ?_, fun y h => hstored y (stored_remove h), halloc⟩
  exact held_remove (hheld s a y h hid) (hid _ _ _ (mem_inOrder.mp hreq))

/-- The state of `insertLocked`: new latches of the guard with ids below the old ones, all of them in
    the manager, and the old ones where they were. -/
structure Inserting (m₀ : Manager) (owner : Nat) (spans : SpanSet) (st : Manager × Latches) : Prop where
  alloc : st.1.idAlloc ≤ m₀.idAlloc
  new : ∀ s a, ∀ la ∈ st.2 s a, la.owner = owner ∧ st.1.idAlloc ≤ la.id ∧ la.id < m₀.idAlloc ∧ st.1.Held s a la ∧
    (spans s a).length > 0
  inj : ∀ s a s' a', ∀ la ∈ st.2 s a, ∀ la' ∈ st.2 s' a', la.id = la'.id → la = la'
  old : ∀ s a la, m₀.Held s a la → m₀.idAlloc ≤ la.id → st.1.Held s a la
  stored : ∀ la, st.1.Stored la → m₀.Stored la ∨ ∃ s a, la ∈ st.2 s a

theorem insertLatch_inserting {m₀ : Manager} {owner : Nat} {spans : SpanSet} {st : Manager × Latches}
    {req : SpanScope × SpanAccess × Span × Timestamp} (h : Inserting m₀ owner spans st)
    (hreq : (spans req.1 req.2.1).length > 0) : Inserting m₀ owner spans (insertLatch owner st req) := by
  obtain ⟨s₁, a₁, sp, ts⟩ := req
  have halloc := h.alloc
  -- the new latch has an id below all others
  have hold : ∀ s a y, st.1.Held s a y → st.1.idAlloc ≤ y.id →
      (insertLatch owner st (s₁, a₁, sp, ts)).1.Held s a y := by
    intro s a y hy hle
    refine held_setScope hy fun heq => ScopedManager.held_insert (heq ▸ hy) ?_
    show st.1.idAlloc - 1 ≠ y.id
    omega
  have hmem : ∀ s a y, y ∈ (insertLatch owner st (s₁, a₁, sp, ts)).2 s a →
      y ∈ st.2 s a ∨ (s = s₁ ∧ a = a₁ ∧ y = ⟨owner, st.1.idAlloc - 1, sp, ts⟩) := by
    intro s a y hy
    simp only [insertLatch] at hy
    split at hy
    · next heq =>
      rcases mem_append.mp hy with hy | hy
      · exact .inl hy
      · exact .inr ⟨heq.1, heq.2, mem_singleton.mp hy⟩
    · exact .inl hy
  have hid : ∀ s a, ∀ y ∈ st.2 s a, st.1.idAlloc - 1 ≠ y.id := by
    intro s a y hy
    have := (h.new s a y hy).2.1
    omega
  refine ⟨?_, fun s a la hla => ?_, fun s a s' a' la hla la' hla' heq => ?_, fun s a la hla hle => ?_, fun la hla => ?_⟩
  · show st.1.idAlloc - 1 ≤ m₀.idAlloc
    omega
  · rcases hmem s a la hla with hla | hnew
    · obtain ⟨howner, hge, hlt, hheld, hspans⟩ := h.new s a la hla
      refine ⟨howner, ?_, hlt, hold s a la hheld hge, hspans⟩
      show st.1.idAlloc - 1 ≤ la.id
      omega
    obtain ⟨rfl, rfl, rfl⟩ := hnew
    refine ⟨rfl, Int.le_refl _, ?_, ?_, hreq⟩
    · show st.1.idAlloc - 1 < m₀.idAlloc
      omega
    unfold Held insertLatch setScope
    simp only [if_true]
    exact ScopedManager.held_insert_self
  · rcases hmem s a la hla with hla | hnew
    · rcases hmem s' a' la' hla' with hla' | hnew'
      · exact h.inj s a s' a' la hla la' hla' heq
      · exact absurd (heq.trans (congrArg Latch.id hnew'.2.2)).symm (hid s a la hla)
    rcases hmem s' a' la' hla' with hla' | hnew'
    · exact absurd ((congrArg Latch.id hnew.2.2).symm.trans heq) (hid s' a' la' hla')
    · exact hnew.2.2.trans hnew'.2.2.symm
  · exact hold s a la (h.old s a la hla hle) (by omega)
  · have hin : ∀ y, (m₀.Stored y ∨ ∃ s a, y ∈ st.2 s a) →
        m₀.Stored y ∨ ∃ s a, y ∈ (insertLatch owner st (s₁, a₁, sp, ts)).2 s a := by
      refine fun y hy => hy.imp_right fun ⟨s, a, hmem⟩ => ⟨s, a, ?_⟩
      simp only [insertLatch]
      split
      · exact mem_append_left _ hmem
      · exact hmem
    rcases stored_setScope hla with hla | hla
    · exact hin la (h.stored la hla)
    rcases ScopedManager.stored_insert hla with hla | heq
    · exact hin la (h.stored la ⟨s₁, hla⟩)
    refine .inr ⟨s₁, a₁, ?_⟩
    rw [heq]
    simp [insertLatch]

theorem insertLocked_inserting (m : Manager) (owner : Nat) (spans : SpanSet) :
    Inserting m owner spans (m.insertLocked owner spans) := by
  refine foldlRecOn (inOrder spans) _ ?_ fun st h req hreq => ?_
  · exact ⟨Int.le_refl _, by simp, by simp, fun _ _ _ h _ => h, fun _ h => .inl h⟩
  · exact insertLatch_inserting h (length_pos_of_mem (mem_inOrder.mp hreq))

end Manager

/-! Rounds. -/

/-- The rounds that a guard has still to make. -/
def Guard.pending (lg : Guard) : List Check :=
  match lg.phase with
  | .retained snap => checks lg.latches snap
  | .waiting todo => todo
  | .blocked c _ todo => c :: todo
  | .acquired | .failed | .finished => []

/-- A guard makes a round for each latch of its snapshot that may conflict with one of its own. -/
theorem mem_checks {latches : Latches} {snap : Snapshot}
    (h₂ : la₂ ∈ latches s a₂) (h₁ : la₁ ∈ snap s a₁) (h : Conflicts a₁ la₁ a₂ la₂) :
    ⟨la₂, la₁, ignoreFor a₂ a₁⟩ ∈ checks latches snap := by
  have hover : la₁ ∈ Btree.overlapping la₂ (snap s a₁) :=
    mem_filter.mpr ⟨h₁, (overlaps_comm _ _).trans h.1⟩
  have hconf := h.2
  refine mem_flatMap.mpr ⟨(s, a₂, la₂), mem_inOrder.mpr h₂, ?_⟩
  cases a₂ with
  | spanReadOnly =>
    cases a₁ with
    | spanReadOnly => exact hconf.elim
    | spanReadWrite => exact mem_map_of_mem hover
  | spanReadWrite =>
    cases a₁ with
    | spanReadOnly => exact mem_append_right _ (mem_map_of_mem hover)
    | spanReadWrite => exact mem_append_left _ (mem_map_of_mem hover)

theorem held_of_mem_checks {latches : Latches} {snap : Snapshot} {c : Check} (h : c ∈ checks latches snap) :
    ∃ s a, c.held ∈ snap s a := by
  obtain ⟨⟨s, a, la⟩, -, hc⟩ := mem_flatMap.mp h
  have hmap : ∀ (t : Btree) (ig : IgnoreFn), c ∈ (Btree.overlapping la t).map (fun held => ⟨la, held, ig⟩) →
      c.held ∈ t := by
    intro t ig hmem
    obtain ⟨held, hheld, rfl⟩ := mem_map.mp hmem
    exact (mem_filter.mp hheld).1
  cases a with
  | spanReadOnly => exact ⟨s, _, hmap _ _ hc⟩
  | spanReadWrite =>
    rcases mem_append.mp hc with hc | hc
    · exact ⟨s, _, hmap _ _ hc⟩
    · exact ⟨s, _, hmap _ _ hc⟩

/-! Snapshots. -/

theorem stored_of_mem_snapshot {m : Manager} {spans : SpanSet} {la : Latch}
    (h : la ∈ (m.snapshotLocked spans).2 s a) : m.Stored la := by
  refine Manager.stored_snapshot spans ⟨s, .inr ⟨a, ?_⟩⟩
  cases a with
  | spanReadOnly | spanReadWrite =>
    simp only [Manager.snapshotLocked] at h
    split at h
    · exact h
    · cases h

/-- A latch in the manager is in the snapshot of every call with a conflicting latch. -/
theorem mem_snapshot {m : Manager} {spans : SpanSet} {a' : SpanAccess} {la la' : Latch}
    (hid : ∀ x, m.Stored x → x.id = la.id → x = la) (h : m.Held s a la) (hspans : (spans s a').length > 0)
    (hconf : Conflicts a la a' la') : la ∈ (m.snapshotLocked spans).2 s a := by
  have hheld : ScopedManager.Held (m.flushFor spans s) a la := Manager.held_snapshot spans hid h
  cases a with
  | spanReadOnly =>
    -- only a write conflicts with a read, and a writer flushes the read set
    cases a' with
    | spanReadOnly => exact hconf.2.elim
    | spanReadWrite =>
      simp only [Manager.snapshotLocked, hspans, decide_true]
      simp only [Manager.flushFor, hspans] at hheld ⊢
      rcases hheld with hmem | hmem
      · cases hmem
      · exact hmem
  | spanReadWrite =>
    cases a' <;> simp only [Manager.snapshotLocked, hspans, decide_true, Bool.or_true, Bool.true_or] <;>
      exact hheld

/-! The invariant. -/

namespace State

/-- The guard has put the latch into the manager. -/
def Owns (st : State) (g : Nat) (s : SpanScope) (a : SpanAccess) (la : Latch) : Prop :=
  ∃ lg, st.guards[g]? = some lg ∧ lg.inserted = true ∧ la ∈ lg.latches s a

structure Inv (st : State) : Prop where
  ids : ∀ g s a la, st.Owns g s a la → la.owner = g ∧ st.manager.idAlloc ≤ la.id
  inj : ∀ g s a la g' s' a' la', st.Owns g s a la → st.Owns g' s' a' la' → la.id = la'.id → la = la'
  stored : ∀ la, st.manager.Stored la → ∃ g s a, st.Owns g s a la
  /-- Latches are in the manager until the guard takes them out, which it does after its signal. -/
  present : ∀ (g : Nat) (lg : Guard) s a, ∀ la ∈ lg.latches s a, st.guards[g]? = some lg → lg.inserted = true →
    lg.done = false → st.manager.Held s a la
  /-- Only latches that were put into the manager are acquired and released. -/
  acquired : ∀ (g : Nat) (lg : Guard), st.guards[g]? = some lg → lg.phase = .acquired ∨ lg.done = true → lg.inserted = true
  earlier : ∀ (g : Nat) (lg : Guard), st.guards[g]? = some lg → ∀ c ∈ lg.pending, c.held.owner < g
  /-- Of two conflicting guards the later one has still to look at the earlier one. -/
  covers : ∀ (i : Nat) (lg : Guard) (j : Nat) (lg' : Guard), i < j → st.guards[i]? = some lg → st.guards[j]? = some lg' →
    lg.inserted = true → lg.done = false → lg'.phase ≠ .failed → ∀ s a a', ∀ la ∈ lg.latches s a, ∀ la' ∈ lg'.latches s a',
    Conflicts a la a' la' → ⟨la', la, ignoreFor a' a⟩ ∈ lg'.pending

theorem inv_init : State.init.Inv := by
  refine ⟨?_, ?_, ?_, ?_, ?_, ?_, ?_⟩
  · intro g s a la ⟨lg, hg, _⟩
    cases hg
  · intro g s a la g' s' a' la' ⟨lg, hg, _⟩
    cases hg
  · intro la ⟨s, h⟩
    rcases h with h | h
    · cases h
    · cases h.choose_spec
  · intro g lg s a la _ hg
    cases hg
  · intro g lg hg
    cases hg
  · intro g lg hg
    cases hg
  · intro i lg j lg' _ hg
    cases hg

variable {st : State}

variable {g i j : Nat} {lg lg' : Guard} {act : Action}

theorem Inv.id_eq (h : st.Inv) {s : SpanScope} {a : SpanAccess} {la x : Latch} (hla : st.Owns g s a la)
    (hx : st.manager.Stored x) (hid : x.id = la.id) : x = la := by
  obtain ⟨g', s', a', hown⟩ := h.stored x hx
  exact h.inj g' s' a' x g s a la hown hla hid

/-! A new guard. -/

/-- What the lock's holder does to the manager for a new guard. -/
structure Sequenced (st : State) (spans : SpanSet) (m : Manager) (new : Guard) : Prop where
  alloc : m.idAlloc ≤ st.manager.idAlloc
  latches : new.inserted = true → ∀ s a, ∀ la ∈ new.latches s a,
    la.owner = st.guards.length ∧ m.idAlloc ≤ la.id ∧ la.id < st.manager.idAlloc ∧ m.Held s a la
  inj : new.inserted = true → ∀ s a s' a', ∀ la ∈ new.latches s a, ∀ la' ∈ new.latches s' a', la.id = la'.id → la = la'
  old : ∀ g s a la, st.Owns g s a la → st.manager.Held s a la → m.Held s a la
  stored : ∀ la, m.Stored la → st.manager.Stored la ∨ (new.inserted = true ∧ ∃ s a, la ∈ new.latches s a)
  asked : ∀ s a, ∀ la ∈ new.latches s a, (spans s a).length > 0
  pending : new.pending = checks new.latches (st.manager.snapshotLocked spans).2
  phase : ¬ (new.phase = .acquired ∨ new.done = true)

theorem get_concat {α : Type} {l : List α} {x y : α} (h : (l ++ [x])[g]? = some y) :
    l[g]? = some y ∨ (g = l.length ∧ y = x) := by
  rw [getElem?_append] at h
  split at h
  · exact .inl h
  next hge =>
  obtain ⟨hlt, heq⟩ := List.getElem?_eq_some_iff.mp h
  simp only [length_singleton] at hlt
  refine .inr ⟨by omega, ?_⟩
  rw [← heq]
  simp

theorem Inv.append {spans : SpanSet} {m : Manager} {new : Guard} (h : st.Inv) (hnew : Sequenced st spans m new) :
    Inv ⟨m, st.guards ++ [new]⟩ := by
  have howns : ∀ g s a la, Owns ⟨m, st.guards ++ [new]⟩ g s a la → st.Owns g s a la ∨
      (g = st.guards.length ∧ new.inserted = true ∧ la ∈ new.latches s a) := by
    intro g s a la ⟨lg, hg, hins, hla⟩
    rcases get_concat hg with hg | hg
    · exact .inl ⟨lg, hg, hins, hla⟩
    · exact .inr ⟨hg.1, hg.2 ▸ hins, hg.2 ▸ hla⟩
  have hlater : ∀ g s a la s' a', st.Owns g s a la → new.inserted = true → ∀ la' ∈ new.latches s' a', la'.id < la.id := by
    intro g s a la s' a' hown hins la' hla'
    have h1 := (h.ids g s a la hown).2
    have h2 := (hnew.latches hins s' a' la' hla').2.2.1
    omega
  have halloc := hnew.alloc
  refine ⟨?_, ?_, ?_, ?_, ?_, ?_, ?_⟩
  · intro g s a la hla
    rcases howns g s a la hla with hla | hla
    · obtain ⟨howner, hle⟩ := h.ids g s a la hla
      exact ⟨howner, Int.le_trans halloc hle⟩
    obtain ⟨rfl, hins, hmem⟩ := hla
    obtain ⟨howner, hle, _⟩ := hnew.latches hins s a la hmem
    exact ⟨howner, hle⟩
  · intro g s a la g' s' a' la' hla hla' hid
    rcases howns g s a la hla with hla | hla
    · rcases howns g' s' a' la' hla' with hla' | hla'
      · exact h.inj g s a la g' s' a' la' hla hla' hid
      · exact absurd hid (ne_of_gt (hlater g s a la s' a' hla hla'.2.1 la' hla'.2.2))
    rcases howns g' s' a' la' hla' with hla' | hla'
    · exact absurd hid (ne_of_lt (hlater g' s' a' la' s a hla' hla.2.1 la hla.2.2))
    · exact hnew.inj hla.2.1 s a s' a' la hla.2.2 la' hla'.2.2 hid
  · intro la hla
    rcases hnew.stored la hla with hla | hla
    · obtain ⟨g, s, a, lg, hg, hown⟩ := h.stored la hla
      exact ⟨g, s, a, lg, getElem?_append_left (List.getElem?_eq_some_iff.mp hg).1 ▸ hg, hown⟩
    · obtain ⟨hins, s, a, hmem⟩ := hla
      exact ⟨st.guards.length, s, a, new, by simp, hins, hmem⟩
  · intro g lg s a la hla hg hins hdone
    rcases get_concat hg with hg | hg
    · exact hnew.old g s a la ⟨lg, hg, hins, hla⟩ (h.present g lg s a la hla hg hins hdone)
    · obtain ⟨-, rfl⟩ := hg
      exact (hnew.latches hins s a la hla).2.2.2
  · intro g lg hg hphase
    rcases get_concat hg with hg | hg
    · exact h.acquired g lg hg hphase
    · exact absurd (hg.2 ▸ hphase) hnew.phase
  · intro g lg hg c hc
    rcases get_concat hg with hg | hg
    · exact h.earlier g lg hg c hc
    obtain ⟨rfl, rfl⟩ := hg
    obtain ⟨s, a, hmem⟩ := held_of_mem_checks (hnew.pending ▸ hc)
    obtain ⟨g, s, a, hown⟩ := h.stored _ (stored_of_mem_snapshot hmem)
    rw [(h.ids g s a _ hown).1]
    obtain ⟨lg', hg', _⟩ := hown
    exact (List.getElem?_eq_some_iff.mp hg').1
  · intro i lg j lg' hij hi hj hins hdone hphase s a a' la hla la' hla' hconf
    cases get_concat hi with
    | inr hi =>
      have := (List.getElem?_eq_some_iff.mp hj).1
      simp only [length_append, length_singleton] at this
      omega
    | inl hi' =>
      rcases get_concat hj with hj | hj
      · exact h.covers i lg j lg' hij hi' hj hins hdone hphase s a a' la hla la' hla' hconf
      obtain ⟨-, rfl⟩ := hj
      rw [hnew.pending]
      have hown : st.Owns i s a la := ⟨lg, hi', hins, hla⟩
      have hheld := h.present i lg s a la hla hi' hins hdone
      exact mem_checks hla' (mem_snapshot (fun x hx => h.id_eq hown hx) hheld (hnew.asked s a' la' hla') hconf) hconf

theorem Inv.sequence (h : st.Inv) (spans : SpanSet) (pp : Policy) {phase : Latches → Snapshot → Phase}
    (hphase : ∀ latches snap, phase latches snap = .waiting (checks latches snap) ∨
      phase latches snap = .retained snap) : (st.sequence spans pp phase).Inv := by
  have hins := Manager.insertLocked_inserting (st.manager.snapshotLocked spans).1 st.guards.length spans
  have hph := hphase ((st.manager.snapshotLocked spans).1.insertLocked st.guards.length spans).2
    (st.manager.snapshotLocked spans).2
  suffices hnew : Sequenced st spans _ _ from h.append hnew
  refine ⟨hins.alloc, fun _ s a la hla => ?_, fun _ => hins.inj, fun g s a la hown hheld => ?_, fun la hla => ?_,
    fun s a la hla => (hins.new s a la hla).2.2.2.2, ?_, ?_⟩
  · obtain ⟨howner, hle, hlt, hheld, _⟩ := hins.new s a la hla
    exact ⟨howner, hle, hlt, hheld⟩
  · exact hins.old s a la (Manager.held_snapshot spans (fun x hx => h.id_eq hown hx) hheld) (h.ids g s a la hown).2
  · rcases hins.stored la hla with hla | hla
    · exact .inl (Manager.stored_snapshot spans hla)
    · exact .inr ⟨rfl, hla⟩
  · unfold Guard.pending
    rcases hph with heq | heq
    · simp only [heq]
    · simp only [heq]
  · rcases hph with heq | heq
    · simp [heq]
    · simp [heq]

theorem Inv.waitFor (h : st.Inv) (spans : SpanSet) (pp : Policy) : (st.waitFor spans pp).Inv := by
  suffices hnew : Sequenced st spans _ _ from h.append hnew
  refine ⟨Int.le_refl _, fun hins => absurd hins Bool.false_ne_true, fun hins => absurd hins Bool.false_ne_true,
    fun g s a la hown hheld => ?_, fun la hla => .inl (Manager.stored_snapshot spans hla), fun s a la hla => ?_, rfl,
    fun heq => nomatch heq⟩
  · exact Manager.held_snapshot spans (fun x hx => h.id_eq hown hx) hheld
  · obtain ⟨sp, hsp, _⟩ := mem_map.mp hla
    exact length_pos_of_mem hsp

/-! A guard's own step. -/

/-- What a step of a guard's call does to the guard. A round is only left behind when its latch is
    released or ignored, or when the wait fails. -/
structure Moves (st : State) (lg lg' : Guard) : Prop where
  latches : lg'.latches = lg.latches
  inserted : lg'.inserted = lg.inserted
  done : lg'.done = false → lg.done = false
  acquired : lg'.phase = .acquired ∨ lg'.done = true → (lg.phase = .acquired ∨ lg.done = true) ∨ lg.inserted = true
  pending : ∀ c ∈ lg'.pending, c ∈ lg.pending
  kept : lg'.phase ≠ .failed → lg.phase ≠ .failed ∧
    ∀ c ∈ lg.pending, c ∈ lg'.pending ∨ st.signaled c.held = true ∨ c.ignore.apply c.wait.ts c.held.ts = true

/-- A step that leaves the call where it is. -/
theorem moves_flags {done poisoned removed : Bool} (hdone : done = lg.done ∨ done = true ∧ lg.inserted = true) :
    Moves st lg { lg with done := done, poisoned := poisoned, removed := removed } := by
  refine ⟨rfl, rfl, fun h => ?_, fun h => ?_, fun _ h => h, fun h => ⟨h, fun _ hc => .inl hc⟩⟩
  · rcases hdone with hsame | hset
    · exact hsame.symm.trans h
    · exact absurd (hset.1.symm.trans h) (by decide)
  rcases hdone with hsame | hset
  · exact .inl (h.imp_right hsame.symm.trans)
  · exact .inr hset.2

/-- A step of the call itself. -/
theorem moves_phase {phase : Phase} {poisoned : Bool} (hlg : lg.phase ≠ .failed)
    (hacq : phase = .acquired → lg.inserted = true)
    (hpending : ∀ c ∈ Guard.pending { lg with phase := phase }, c ∈ lg.pending)
    (hkept : phase ≠ .failed → ∀ c ∈ lg.pending, c ∈ Guard.pending { lg with phase := phase } ∨
      st.signaled c.held = true ∨ c.ignore.apply c.wait.ts c.held.ts = true) :
    Moves st lg { lg with phase := phase, poisoned := poisoned } :=
  ⟨rfl, rfl, fun h => h, fun h => h.elim (fun hph => .inr (hacq hph)) fun hd => .inl (.inr hd), hpending,
    fun h => ⟨hlg, hkept h⟩⟩

/-- The rounds that are left stay the same. -/
theorem moves_same {phase : Phase} {poisoned : Bool} (hlg : lg.phase ≠ .failed) (hacq : phase ≠ .acquired)
    (hsame : Guard.pending { lg with phase := phase } = lg.pending) :
    Moves st lg { lg with phase := phase, poisoned := poisoned } :=
  moves_phase hlg (fun he => absurd he hacq) (fun _ hc => hsame ▸ hc) fun _ _ hc => .inl (hsame ▸ hc)

/-- The first round is left behind. -/
theorem moves_round {c : Check} {todo : List Check} (hlg : lg.phase ≠ .failed) (hpend : lg.pending = c :: todo)
    (hleft : st.signaled c.held = true ∨ c.ignore.apply c.wait.ts c.held.ts = true) :
    Moves st lg { lg with phase := .waiting todo } := by
  refine moves_phase hlg nofun (fun c' hc' => hpend ▸ mem_cons_of_mem c hc') fun _ c' hc' => ?_
  rcases mem_cons.mp (hpend ▸ hc') with heq | hmem
  · exact .inr (heq ▸ hleft)
  · exact .inl hmem

theorem moves_failed (hlg : lg.phase ≠ .failed) : Moves st lg { lg with phase := .failed } :=
  moves_phase hlg nofun (fun _ hc => nomatch hc) fun hne => absurd rfl hne

theorem moves_release
    (h : (if lg.inserted && !lg.done then some { lg with done := true } else none) = some lg') : Moves st lg lg' := by
  split at h
  · next hins =>
    cases h
    exact moves_flags (.inr ⟨rfl, ((Bool.and_eq_true _ _).mp hins).1⟩)
  · cases h

theorem guardStep_moves (h : guardStep st lg act = some lg') : Moves st lg lg' := by
  obtain ⟨latches, pp, inserted, phase, done, poisoned, removed⟩ := lg
  cases act with
  | acquire | acquireOptimistic | waitFor => cases h
  | waitUntilAcquired =>
    simp only [guardStep] at h
    split at h
    · split at h <;> cases h
      exact moves_same nofun nofun rfl
    · cases h
  | check =>
    simp only [guardStep] at h
    split at h
    · split at h <;> cases h
      · next hleft => exact moves_round nofun rfl ((Bool.or_eq_true _ _).mp hleft)
      · exact moves_same nofun nofun rfl
    · cases h
  | receiveDone =>
    simp only [guardStep] at h
    split at h
    · split at h <;> cases h
      next hdone => exact moves_round nofun rfl (.inl hdone)
    · cases h
  | receivePoison =>
    simp only [guardStep] at h
    split at h
    · split at h
      · split at h <;> cases h
        · exact moves_failed nofun
        · exact moves_same nofun nofun rfl
      · cases h
    · cases h
  | cancel =>
    simp only [guardStep] at h
    split at h <;> cases h
    exact moves_failed nofun
  | acquired =>
    simp only [guardStep] at h
    split at h <;> cases h
    cases inserted with
    | true => exact moves_phase nofun (fun _ => rfl) (fun _ hc => nomatch hc) fun _ _ hc => nomatch hc
    | false => exact moves_same nofun nofun rfl
  | release =>
    simp only [guardStep] at h
    split at h
    · exact moves_release h
    · exact moves_release h
    · exact moves_release h
    · cases h
  | remove =>
    simp only [guardStep] at h
    split at h <;> cases h
    exact moves_flags (.inl rfl)
  | poison =>
    cases h
    exact moves_flags (.inl rfl)

theorem get_set {α : Type} {l : List α} {x y : α} {k : Nat} (h : (l.set g x)[k]? = some y) :
    (k ≠ g ∧ l[k]? = some y) ∨ (k = g ∧ y = x) := by
  rw [getElem?_set] at h
  split at h
  · next heq =>
    split at h
    · cases h
      exact .inr ⟨heq.symm, rfl⟩
    · cases h
  · next hne => exact .inl ⟨fun heq => hne heq.symm, h⟩

/-- A step of a guard keeps the invariant if the latches of guards that are not released stay in the
    manager. -/
theorem Inv.setGuard {m : Manager} (h : st.Inv) (hg : st.guards[g]? = some lg)
    (hmoves : Moves st lg lg') (halloc : m.idAlloc = st.manager.idAlloc)
    (hstored : ∀ la, m.Stored la → st.manager.Stored la)
    (hheld : ∀ (k : Nat) (lk : Guard) s a, ∀ la ∈ lk.latches s a, (st.guards.set g lg')[k]? = some lk → lk.inserted = true →
      lk.done = false → st.manager.Held s a la → m.Held s a la) :
    Inv ⟨m, st.guards.set g lg'⟩ := by
  -- every guard of the new state is a guard of the old one that has moved or stayed
  have hback : ∀ (k : Nat) (lk : Guard), (st.guards.set g lg')[k]? = some lk →
      ∃ lk₀, st.guards[k]? = some lk₀ ∧ Moves st lk₀ lk := by
    intro k lk hk
    rcases get_set hk with hk | hk
    · exact ⟨lk, hk.2, moves_flags (.inl rfl)⟩
    · obtain ⟨rfl, rfl⟩ := hk
      exact ⟨lg, hg, hmoves⟩
  have howns : ∀ k s a la, Owns ⟨m, st.guards.set g lg'⟩ k s a la → st.Owns k s a la := by
    intro k s a la ⟨lk, hk, hins, hla⟩
    obtain ⟨lk₀, hk₀, hmv⟩ := hback k lk hk
    exact ⟨lk₀, hk₀, hmv.inserted ▸ hins, hmv.latches ▸ hla⟩
  refine ⟨?_, ?_, ?_, ?_, ?_, ?_, ?_⟩
  · intro k s a la hla
    rw [halloc]
    exact h.ids k s a la (howns k s a la hla)
  · intro k s a la k' s' a' la' hla hla' hid
    exact h.inj k s a la k' s' a' la' (howns k s a la hla) (howns k' s' a' la' hla') hid
  · intro la hla
    obtain ⟨k, s, a, lk, hk, hins, hmem⟩ := h.stored la (hstored la hla)
    by_cases hkg : k = g
    · subst hkg
      rw [hg] at hk
      cases hk
      refine ⟨k, s, a, lg', ?_, hmoves.inserted ▸ hins, hmoves.latches ▸ hmem⟩
      exact getElem?_set_self (List.getElem?_eq_some_iff.mp hg).1
    · exact ⟨k, s, a, lk, (getElem?_set_ne (Ne.symm hkg)).trans hk, hins, hmem⟩
  · intro k lk s a la hla hk hins hdone
    obtain ⟨lk₀, hk₀, hmv⟩ := hback k lk hk
    refine hheld k lk s a la hla hk hins hdone ?_
    exact h.present k lk₀ s a la (hmv.latches ▸ hla) hk₀ (hmv.inserted ▸ hins) (hmv.done hdone)
  · intro k lk hk hphase
    obtain ⟨lk₀, hk₀, hmv⟩ := hback k lk hk
    rw [hmv.inserted]
    exact (hmv.acquired hphase).elim (h.acquired k lk₀ hk₀) id
  · intro k lk hk c hc
    obtain ⟨lk₀, hk₀, hmv⟩ := hback k lk hk
    exact h.earlier k lk₀ hk₀ c (hmv.pending c hc)
  · intro i li j lj hij hi hj hins hdone hphase s a a' la hla la' hla' hconf
    obtain ⟨li₀, hi₀, hmi⟩ := hback i li hi
    obtain ⟨lj₀, hj₀, hmj⟩ := hback j lj hj
    rw [hmi.inserted] at hins
    rw [hmi.latches] at hla
    rw [hmj.latches] at hla'
    have hnot := hmi.done hdone
    obtain ⟨hphase₀, hkept⟩ := hmj.kept hphase
    have hmem := h.covers i li₀ j lj₀ hij hi₀ hj₀ hins hnot hphase₀ s a a' la hla la' hla' hconf
    rcases hkept _ hmem with hmem | hsig | hig
    · exact hmem
    · -- the earlier guard is not released
      have howner := (h.ids i s a la ⟨li₀, hi₀, hins, hla⟩).1
      simp only [signaled, howner, hi₀, Option.map_some, Option.getD_some, hnot] at hsig
      cases hsig
    · rw [hconf.not_ignored] at hig
      cases hig

theorem Inv.ownStep {st' : State} (h : st.Inv) (hstep : ownStep st g act = some st') :
    st'.Inv := by
  unfold Spanlatch.ownStep at hstep
  split at hstep
  · cases hstep
  next lg hg =>
  split at hstep
  · cases hstep
  next lg' hlg' =>
  have hmoves := guardStep_moves hlg'
  split at hstep
  · -- the second half of `Release`
    cases hstep
    have hdone : lg.done = true ∧ lg'.done = true := by
      simp only [guardStep] at hlg'
      split at hlg'
      · next hd =>
        cases hlg'
        have hd := ((Bool.and_eq_true _ _).mp hd).1
        exact ⟨hd, hd⟩
      · cases hlg'
    obtain ⟨hothers, hstored, halloc⟩ := Manager.removeLocked_spec (m := st.manager) lg.latches
    refine h.setGuard hg hmoves halloc hstored fun k lk s a la hla hk hins hnot hheld => ?_
    cases get_set hk with
    | inr hk =>
      rw [hk.2, hdone.2] at hnot
      cases hnot
    | inl hk =>
      -- the latches of another guard have other ids
      refine hothers s a la hheld fun s' a' la' hla' hid => hk.1 ?_
      have hown : st.Owns k s a la := ⟨lk, hk.2, hins, hla⟩
      have hown' : st.Owns g s' a' la' := ⟨lg, hg, h.acquired g lg hg (.inr hdone.1), hla'⟩
      have heq := h.inj g s' a' la' k s a la hown' hown hid
      rw [← (h.ids k s a la hown).1, ← heq, (h.ids g s' a' la' hown').1]
  · cases hstep
    exact h.setGuard hg hmoves rfl (fun la hla => hla) fun k lk s a la _ _ _ _ hheld => hheld

theorem Inv.step {st' : State} (h : st.Inv) (hstep : step st act = some st') : st'.Inv := by
  cases act with
  | acquire spans pp =>
    cases hstep
    exact h.sequence spans pp fun _ _ => .inl rfl
  | acquireOptimistic spans pp =>
    cases hstep
    exact h.sequence spans pp fun _ _ => .inr rfl
  | waitFor spans pp =>
    cases hstep
    exact h.waitFor spans pp
  | waitUntilAcquired g | check g | receiveDone g | receivePoison g | cancel g | acquired g | release g | remove g =>
    exact Inv.ownStep (g := g) h hstep
  | poison g => exact h.ownStep (show Spanlatch.ownStep st g (.poison g) = some st' from hstep)

theorem inv_of_run {acts : List Action} (h : run Spanlatch.step State.init acts = some st) : st.Inv :=
  have hall : Along Spanlatch.step (fun _ _ => True) State.init acts := along_of_forall (fun _ _ => trivial) _ _
  run_inv State.Inv (fun _ _ _ hs _ hstep => hs.step hstep) inv_init hall h

/-! The wait-for relation, and the result. -/

/-- The guard has its latches and has not signaled their release. -/
def Holds (st : State) (g : Nat) (lg : Guard) : Prop :=
  st.guards[g]? = some lg ∧ lg.phase = .acquired ∧ lg.done = false

/-- The call of guard `i` is in `waitForSignal` for a latch of guard `j`. -/
def WaitsFor (st : State) (i j : Nat) : Prop :=
  ∃ lg c poisonCh todo, st.guards[i]? = some lg ∧ lg.phase = .blocked c poisonCh todo ∧ c.held.owner = j

theorem Inv.exclusive (h : st.Inv) (hij : i < j) (hi : st.Holds i lg) (hj : st.Holds j lg') : ¬ lg.Conflict lg' := by
  intro ⟨s, a, a', la, hla, la', hla', hconf⟩
  have hfailed : lg'.phase ≠ .failed := by simp [hj.2.1]
  have hmem := h.covers i lg j lg' hij hi.1 hj.1 (h.acquired i lg hi.1 (.inl hi.2.1)) hi.2.2 hfailed
    s a a' la hla la' hla' hconf
  simp [Guard.pending, hj.2.1] at hmem

theorem Inv.waitsFor_lt (h : st.Inv) (hw : st.WaitsFor i j) : j < i := by
  obtain ⟨lg, c, poisonCh, todo, hi, hphase, rfl⟩ := hw
  refine h.earlier i lg hi c ?_
  simp [Guard.pending, hphase]

theorem Inv.transGen_lt (h : st.Inv) (hw : Relation.TransGen st.WaitsFor i j) : j < i := by
  induction hw with
  | single hw => exact h.waitsFor_lt hw
  | tail _ hw ih => exact Nat.lt_trans (h.waitsFor_lt hw) ih

end State

/-- In every state that any interleaving of the manager's calls reaches, no two guards with conflicting
    latches are both acquired and unreleased, a guard waits only for guards sequenced before it, and
    waiting has no cycle. -/
theorem latches_exclusive (acts : List Action) (st : State) (hrun : run step State.init acts = some st) :
    (∀ i j lg lg', i ≠ j → st.Holds i lg → st.Holds j lg' → ¬ lg.Conflict lg') ∧
      (∀ i j, st.WaitsFor i j → j < i) ∧ ∀ i, ¬ Relation.TransGen st.WaitsFor i i := by
  have h := State.inv_of_run hrun
  refine ⟨fun i j lg lg' hij hi hj hconf => ?_, fun i j hw => h.waitsFor_lt hw, fun i hw => ?_⟩
  · rcases Nat.lt_or_gt_of_ne hij with hlt | hgt
    · exact h.exclusive hlt hi hj hconf
    · exact h.exclusive hgt hj hi hconf.symm
  · exact Nat.lt_irrefl i (h.transGen_lt hw)

/-- One write latch over the key `k`. -/
def writeOf (k : UInt8) : SpanSet := fun s a =>
  if s = .spanGlobal ∧ a = .spanReadWrite then [(⟨[k], []⟩, ⟨0, 0, false⟩)] else []

/-- The first of two writers of a key has its latch while the second one waits for it. -/
def twoWriters : List Action :=
  [.acquire (writeOf 1) .wait, .acquired 0, .acquire (writeOf 1) .wait, .check 1]

theorem latches_exclusive_twoWriters :
    ∃ st, run step State.init twoWriters = some st ∧ (∃ lg, st.Holds 0 lg) ∧ st.WaitsFor 1 0 ∧
      ((∀ i j lg lg', i ≠ j → st.Holds i lg → st.Holds j lg' → ¬ lg.Conflict lg') ∧
        (∀ i j, st.WaitsFor i j → j < i) ∧ ∀ i, ¬ Relation.TransGen st.WaitsFor i i) :=
  ⟨_, rfl, ⟨_, rfl, rfl, rfl⟩, ⟨_, _, _, _, rfl, rfl, rfl⟩, latches_exclusive twoWriters _ rfl⟩

/-! Progress. -/

/-- The call of the guard is in `wait`. -/
def Guard.inWait (lg : Guard) : Bool :=
  match lg.phase with
  | .waiting _ | .blocked _ _ _ => true
  | _ => false

/-- The call of guard `g` can take its next step, with no context cancelled. -/
def State.GoesOn (st : State) (g : Nat) : Prop :=
  ∃ act ∈ [Action.check g, .receiveDone g, .acquired g], (step st act).isSome = true

/-- Calls never wait for each other only: in every state that is reached, a call in `wait` can go on, or
    one of those before it can, or one waits for a guard that is not waiting and has not released. -/
theorem wait_not_stuck (acts : List Action) (st : State) (hrun : run step State.init acts = some st) (g : Nat)
    (lg : Guard) (hg : st.guards[g]? = some lg) (hwait : lg.inWait = true) :
    ∃ i ≤ g, st.GoesOn i ∨ ∃ j lj, st.WaitsFor i j ∧ st.guards[j]? = some lj ∧ lj.inWait = false ∧ lj.done = false := by
  have hinv := State.inv_of_run hrun
  induction g using Nat.strongRecOn generalizing lg with
  | ind g ih =>
    cases hphase : lg.phase with
    | waiting todo =>
      refine ⟨g, le_rfl, .inl ?_⟩
      cases todo with
      | nil => exact ⟨.acquired g, by simp, by simp [step, ownStep, hg, guardStep, hphase]⟩
      | cons c todo =>
        refine ⟨.check g, by simp, ?_⟩
        simp only [step, ownStep, hg, guardStep, hphase]
        cases st.signaled c.held || c.ignore.apply c.wait.ts c.held.ts <;> rfl
    | blocked c poisonCh todo =>
      by_cases hsig : st.signaled c.held = true
      · exact ⟨g, le_rfl, .inl ⟨.receiveDone g, by simp, by simp [step, ownStep, hg, guardStep, hphase, hsig]⟩⟩
      have hw : st.WaitsFor g c.held.owner := ⟨lg, c, poisonCh, todo, hg, hphase, rfl⟩
      have hlt := hinv.waitsFor_lt hw
      have hlen := (List.getElem?_eq_some_iff.mp hg).1
      obtain ⟨lj, hj⟩ : ∃ lj, st.guards[c.held.owner]? = some lj := ⟨_, List.getElem?_eq_getElem (hlt.trans hlen)⟩
      cases hjwait : lj.inWait with
      | true =>
        -- the guard waited for is in `wait` itself, and was sequenced before
        obtain ⟨i, hi, hend⟩ := ih _ hlt lj hj hjwait
        exact ⟨i, by omega, hend⟩
      | false => exact ⟨g, le_rfl, .inr ⟨_, lj, hw, hj, hjwait, by simpa [State.signaled, hj] using hsig⟩⟩
    | _ => simp [Guard.inWait, hphase] at hwait

/-- The second writer of a key waits for the first, which has its latch. -/
theorem wait_not_stuck_twoWriters : ∃ st, run step State.init twoWriters = some st ∧ ∃ i ≤ 1, st.GoesOn i ∨
    ∃ j lj, st.WaitsFor i j ∧ st.guards[j]? = some lj ∧ lj.inWait = false ∧ lj.done = false :=
  ⟨_, rfl, wait_not_stuck twoWriters _ rfl 1 _ rfl rfl⟩

end Ratel.Spanlatch
