import Ratel.Opt.FuncDep
import Ratel.Lib.Relations

/- Soundness of dependency sets. A set is sound for a relation if each dependency holds in it and the
   key is one. The operations are taken one by one: a closure only reaches determined columns, so a
   reduced determinant or key is as good as the full one; a rewritten dependency follows from the ones
   before it. What is said of the key is an implication beside the dependencies, since in the middle
   of a product the dependencies hold in one relation and the key in another. -/
namespace Ratel.Opt

open Ratel.Lib List

variable {V : Type}

structure FuncDep.Holds (R : Relation ColumnID V) (fd : FuncDep) : Prop where
  strict : fd.strict = true → R.Determines fd.fromCols fd.toCols
  lax : fd.strict = false → R.LaxDetermines fd.fromCols fd.toCols
  equiv : fd.equiv = true → R.Equated fd.fromCols fd.toCols

def DepsHold (R : Relation ColumnID V) (deps : List FuncDep) : Prop := ∀ fd ∈ deps, fd.Holds R

namespace FuncDepSet

def KeyHolds (R : Relation ColumnID V) (f : FuncDepSet) : Prop :=
  match f.hasKey with
  | .strictKey => R.StrictKey f.key
  | .laxKey => R.LaxKey f.key
  | .noKey => True

structure Sound (R : Relation ColumnID V) (f : FuncDepSet) : Prop where
  deps : DepsHold R f.deps
  key : f.KeyHolds R

end FuncDepSet

variable {R : Relation ColumnID V} {deps : List FuncDep} {fd : FuncDep} {cols inCols s t : ColSet}

namespace FuncDep

theorem Holds.laxDetermines (h : fd.Holds R) : R.LaxDetermines fd.fromCols fd.toCols := by
  cases hs : fd.strict with
  | true => exact (h.strict hs).lax
  | false => exact h.lax hs

theorem Holds.withTo (h : fd.Holds R) (ht : t ⊆ fd.toCols) : (fd.withTo t).Holds R where
  strict hs := (h.strict hs).subset ht
  lax hs := (h.lax hs).subset ht
  equiv he i a ha b hb := h.equiv he i a ha b (ht hb)

theorem Holds.removeToCols {fd' : FuncDep} (h : fd.Holds R) (hr : fd.removeToCols s = some fd') : fd'.Holds R := by
  unfold FuncDep.removeToCols at hr
  split at hr
  · cases hr
  · cases hr
    exact h.withTo Finset.sdiff_subset

theorem equiv_nonempty (he : fd.equiv = true) : fd.fromCols.Nonempty :=
  Finset.card_pos.mp ((fd.equiv_from he).symm ▸ Nat.one_pos)

theorem fromCols_of_isConstant (h : fd.isConstant = true) : fd.fromCols = ∅ := of_decide_eq_true h

theorem Holds.constant (h : fd.Holds R) (hc : fd.isConstant = true) : R.Determines ∅ fd.toCols := by
  have hfrom := fromCols_of_isConstant hc
  intro i j hij
  refine h.laxDetermines i j ?_ ?_
  · simp [hfrom, NonNull]
  · simp [hfrom, AgreeOn]

theorem holds_constant (h : R.Determines ∅ cols) : (FuncDep.constant cols).Holds R := ⟨fun _ => h, nofun, nofun⟩

theorem holds_equivalence {id : ColumnID} (h : R.Equated {id} cols) : (FuncDep.equivalence id cols).Holds R :=
  ⟨fun _ => h.determines (Finset.singleton_nonempty id), nofun, fun _ => h⟩

theorem Holds.reads {R' : Relation ColumnID V} {A : ColSet} {φ : R'.Idx → R.Idx} (h : fd.Holds R)
    (hr : Relation.Reads R' R A φ) (hfrom : fd.fromCols ⊆ A) (hto : fd.toCols ⊆ A) : fd.Holds R' :=
  ⟨fun hs => hr.determines (h.strict hs) hfrom hto, fun hl => hr.laxDetermines (h.lax hl) hfrom hto,
    fun he => hr.equated (h.equiv he) hfrom hto⟩

end FuncDep

/-! Closures. -/

theorem FuncDep.extends_from (h : fd.extends cols = true) : fd.fromCols ⊆ cols := (of_decide_eq_true h).1

/-- Each column of `t` is equal to one of `s` in every row. -/
def Mirrors (R : Relation ColumnID V) (s t : ColSet) : Prop := ∀ b ∈ t, ∃ a ∈ s, ∀ i, R.row i b = R.row i a

theorem Mirrors.refl (R : Relation ColumnID V) (s : ColSet) : Mirrors R s s := fun b hb => ⟨b, hb, fun _ => rfl⟩

/-- An equivalence whose determinant is mirrored brings only mirrored columns. -/
theorem Mirrors.union (h : Mirrors R s t) (hfd : fd.Holds R) (he : fd.equiv = true) (hext : fd.extends t = true) :
    Mirrors R s (t ∪ fd.toCols) := by
  intro b hb
  cases Finset.mem_union.mp hb with
  | inl hb => exact h b hb
  | inr hb =>
    obtain ⟨c, hc⟩ := FuncDep.equiv_nonempty he
    obtain ⟨a, ha, heq⟩ := h c (FuncDep.extends_from hext hc)
    exact ⟨a, ha, fun i => (hfd.equiv he i c hc b hb).symm.trans (heq i)⟩

theorem Mirrors.nonNull {i : R.Idx} (h : Mirrors R s t) (hn : NonNull s (R.row i)) : NonNull t (R.row i) := by
  intro b hb
  obtain ⟨a, ha, heq⟩ := h b hb
  exact heq i ▸ hn a ha

theorem Mirrors.agreeOn {i j : R.Idx} (h : Mirrors R s t) (hij : AgreeOn s (R.row i) (R.row j)) :
    AgreeOn t (R.row i) (R.row j) := by
  intro b hb
  obtain ⟨a, ha, heq⟩ := h b hb
  rw [heq i, heq j]
  exact hij a ha

theorem reduceCol_subset (deps : List FuncDep) (cols : ColSet) (i : ColumnID) : reduceCol deps cols i ⊆ cols := by
  unfold reduceCol
  split_ifs
  · exact Finset.Subset.refl _
  · exact Finset.erase_subset _ _
  · exact Finset.Subset.refl _

theorem reduceCols_subset (deps : List FuncDep) (cols : ColSet) : reduceCols deps cols ⊆ cols := by
  unfold reduceCols
  generalize visited cols = l
  induction l generalizing cols with
  | nil => exact Finset.Subset.refl _
  | cons i l ih => exact (ih (reduceCol deps cols i)).trans (reduceCol_subset deps cols i)

section
variable (h : DepsHold R deps)
include h

theorem nextStrict_determines (hnext : nextStrict deps cols = some fd) :
    R.Determines cols (cols ∪ fd.toCols) := by
  obtain ⟨hmem, hstrict, hext⟩ := nextStrict_some hnext
  exact (Relation.determines_refl _).union (((h fd hmem).strict hstrict).mono (FuncDep.extends_from hext))

theorem computeClosure_determines (cols : ColSet) :
    R.Determines cols (computeClosure deps cols) := by
  fun_induction computeClosure deps cols with
  | case1 cols hnext => exact Relation.determines_refl _
  | case2 cols fd hnext ih => exact (nextStrict_determines h hnext).trans ih

theorem strictReaches_determines (hr : strictReaches deps cols inCols = true) :
    R.Determines inCols cols := by
  fun_induction strictReaches deps cols inCols with
  | case1 inCols hnext => cases hr
  | case2 inCols fd hnext hsub => exact (nextStrict_determines h hnext).subset hsub
  | case3 inCols fd hnext hsub ih => exact (nextStrict_determines h hnext).trans (ih hr)

theorem computeEquivClosure_mirrors (cols : ColSet) :
    Mirrors R cols (computeEquivClosure deps cols) := by
  refine foldlRecOn deps _ (Mirrors.refl R cols) fun t ht fd hfd => ?_
  split
  · next hc =>
    obtain ⟨he, hext⟩ := (Bool.and_eq_true _ _).mp hc
    exact ht.union (h fd hfd) he hext
  · exact ht

/-- The lax loop: what it has reached depends laxly on the columns it started from. -/
theorem laxReach_determines (cols : ColSet) (i : Nat) (inCols laxIn : ColSet) (hin : Mirrors R s inCols)
    (hlax : R.LaxDetermines s laxIn) :
    match laxReach deps cols i inCols laxIn with
    | none => R.LaxDetermines s cols
    | some reached => R.LaxDetermines s reached := by
  have hstep : ∀ {fd : FuncDep} {inCols laxIn : ColSet}, fd ∈ deps → fd.extends inCols = true → Mirrors R s inCols →
      R.LaxDetermines s laxIn → R.LaxDetermines s (laxIn ∪ fd.toCols) := by
    intro fd inCols laxIn hmem hext hin hlax
    refine hlax.union fun i j hn hij => ?_
    exact (h fd hmem).laxDetermines i j ((hin.nonNull hn).mono (FuncDep.extends_from hext))
      ((hin.agreeOn hij).mono (FuncDep.extends_from hext))
  fun_induction laxReach deps cols i inCols laxIn with
  | case1 i inCols laxIn hi fd hext hsub =>
    exact (hstep (get_mem deps ⟨i, hi⟩) hext hin hlax).subset hsub
  | case2 i inCols laxIn hi fd hext hsub he ih =>
    have hmem := get_mem deps ⟨i, hi⟩
    exact ih (hin.union (h fd hmem) he hext) (hstep hmem hext hin hlax)
  | case3 i inCols laxIn hi fd hext hsub he ih =>
    exact ih hin (hstep (get_mem deps ⟨i, hi⟩) hext hin hlax)
  | case4 i inCols laxIn hi fd hext ih => exact ih hin hlax
  | case5 => exact hlax

theorem inClosureOf_strict (hr : inClosureOf deps cols inCols true = true) :
    R.Determines inCols cols := by
  unfold inClosureOf at hr
  split at hr
  · next hsub => exact Relation.determines_of_subset hsub
  · exact strictReaches_determines h hr

theorem inClosureOf_lax (hr : inClosureOf deps cols inCols false = true) :
    R.LaxDetermines inCols cols := by
  unfold inClosureOf at hr
  split at hr
  · next hsub => exact (Relation.determines_of_subset hsub).lax
  have hlax := laxReach_determines h cols 0 inCols inCols (Mirrors.refl R inCols) (Relation.determines_refl _).lax
  cases hreach : laxReach deps cols 0 inCols inCols with
  | none => simpa [hreach] using hlax
  | some reached =>
    rw [hreach] at hr hlax
    exact hlax.trans (strictReaches_determines h hr)

theorem reduceCol_determines (cols : ColSet) (i : ColumnID) :
    R.Determines (reduceCol deps cols i) cols := by
  unfold reduceCol
  split
  · exact Relation.determines_refl _
  split
  · next hin =>
    have hdet := (Relation.determines_refl _).union (inClosureOf_strict h hin)
    refine hdet.subset fun c hc => ?_
    by_cases hci : c = i
    · simp [hci]
    · simp [hci, hc]
  · exact Relation.determines_refl _

/-- The columns that stay determine all of them. -/
theorem reduceCols_determines (cols : ColSet) : R.Determines (reduceCols deps cols) cols := by
  unfold reduceCols
  generalize visited cols = l
  induction l generalizing cols with
  | nil => exact Relation.determines_refl _
  | cons i l ih => exact (ih (reduceCol deps cols i)).trans (reduceCol_determines h cols i)

end

namespace FuncDepSet

variable {f f' g : FuncDepSet}

/-! Queries. -/

theorem colsAreStrictKey_sound (h : Sound R f) (hk : f.colsAreStrictKey cols = true) : R.StrictKey cols := by
  have hkey := h.key
  unfold colsAreStrictKey colsAreKey at hk
  unfold KeyHolds at hkey
  cases ht : f.hasKey with
  | noKey => simp [ht] at hk
  | laxKey => simp [ht] at hk
  | strictKey =>
    rw [ht] at hk hkey
    exact hkey.of_determines (inClosureOf_strict h.deps hk)

theorem colsAreLaxKey_sound (h : Sound R f) (hk : f.colsAreLaxKey cols = true) : R.LaxKey cols := by
  have hkey := h.key
  unfold colsAreLaxKey colsAreKey at hk
  unfold KeyHolds at hkey
  cases ht : f.hasKey with
  | noKey => simp [ht] at hk
  | laxKey =>
    simp only [ht] at hk hkey
    have hsub : f.key ⊆ computeEquivClosure f.deps cols := by simpa using hk
    have hmir := computeEquivClosure_mirrors h.deps cols
    exact fun i j hn hij => hkey i j ((hmir.nonNull hn).mono hsub) ((hmir.agreeOn hij).mono hsub)
  | strictKey =>
    rw [ht] at hk hkey
    exact hkey.of_laxDetermines (inClosureOf_lax h.deps hk)

theorem KeyHolds.reads {R' : Relation ColumnID V} {A : ColSet} {φ : R'.Idx → R.Idx} (h : f.KeyHolds R)
    (hr : Relation.Reads R' R A φ) (hφ : φ.Injective) (hsub : f.hasKey ≠ .noKey → f.key ⊆ A) : f.KeyHolds R' := by
  unfold KeyHolds at h ⊢
  split at h
  · next hk => exact hr.strictKey hφ h (hsub (by rw [hk]; decide))
  · next hk => exact hr.laxKey hφ h (hsub (by rw [hk]; decide))
  · trivial

theorem KeyHolds.lax (h : f.KeyHolds R) (hk : f.hasKey ≠ .noKey) : R.LaxKey f.key := by
  unfold KeyHolds at h
  split at h
  · exact Relation.StrictKey.lax h
  · exact h
  · next hno => exact absurd hno hk

/-! One operation after another. -/

/-- The dependencies hold after an operation, and so does the key if it did before. -/
structure Keeps (R : Relation ColumnID V) (f f' : FuncDepSet) : Prop where
  deps : DepsHold R f'.deps
  key : f.KeyHolds R → f'.KeyHolds R

theorem Keeps.refl (h : DepsHold R f.deps) : Keeps R f f := ⟨h, id⟩

theorem Keeps.trans (h : Keeps R f f') (h' : Keeps R f' g) : Keeps R f g := ⟨h'.deps, fun hk => h'.key (h.key hk)⟩

theorem Keeps.sound (h : Keeps R f f') (hf : Sound R f) : Sound R f' := ⟨h.deps, h.key hf.key⟩

theorem exists_sound {res : Except Err FuncDepSet} (hf : Sound R f) (h : ∃ f', res = .ok f' ∧ Keeps R f f') :
    ∃ f', res = .ok f' ∧ Sound R f' := h.imp fun _ hok => ⟨hok.1, hok.2.sound hf⟩

theorem keeps_of_deps {deps : List FuncDep} (h : DepsHold R deps) : Keeps R f { f with deps := deps } := ⟨h, id⟩

theorem setKey_strict_holds (h : R.StrictKey s) : (f.setKey s .strictKey).KeyHolds R := by
  simpa [KeyHolds, setKey] using h

theorem setKey_lax_holds (h : R.LaxKey s) : (f.setKey s .laxKey).KeyHolds R := by
  by_cases hs : s = ∅
  · subst hs
    have hstrict : R.StrictKey ∅ := fun i j hij => h i j (by simp [NonNull]) hij
    simpa [KeyHolds, setKey] using hstrict
  · simpa [KeyHolds, setKey, hs] using h

theorem reduceStrictKey_keeps (h : DepsHold R f.deps) : Keeps R f f.reduceStrictKey := by
  unfold reduceStrictKey
  split
  · next hs =>
    refine ⟨h, fun hk => ?_⟩
    unfold KeyHolds at hk ⊢
    simp only [hs] at hk ⊢
    exact hk.of_determines (reduceCols_determines h f.key)
  · exact Keeps.refl h

theorem reduceStrictKey_hasKey (f : FuncDepSet) : f.reduceStrictKey.hasKey = f.hasKey := by
  unfold reduceStrictKey
  split <;> rfl

theorem reduceStrictKey_key (f : FuncDepSet) : f.reduceStrictKey.key ⊆ f.key := by
  unfold reduceStrictKey
  split
  · exact reduceCols_subset f.deps f.key
  · exact Finset.Subset.refl _

/-! Constants. -/

variable {fd' newFD : FuncDep}

/-- Constants may go from a strict determinant: rows equal on the rest of it are equal on them too. -/
theorem removeFromCols_holds (hfd : fd.Holds R) (hs : fd.strict = true) (he : ¬ fd.equiv = true)
    (hc : R.Determines ∅ cols) (h : fd.removeFromCols cols = some fd') : fd'.Holds R := by
  unfold FuncDep.removeFromCols at h
  split at h
  · cases h
  cases h
  refine ⟨fun _ i j hij => hfd.strict hs i j fun c hcol => ?_, fun hl => absurd (hs.symm.trans hl) (by decide),
    fun h => absurd h he⟩
  by_cases hmem : c ∈ cols
  · exact hc i j (by simp [AgreeOn]) c hmem
  · exact hij c (Finset.mem_sdiff.mpr ⟨hcol, hmem⟩)

theorem besideConstants_holds (hfd : fd.Holds R) (hc : R.Determines ∅ cols)
    (h : besideConstants cols fd = some fd') : fd'.Holds R := by
  unfold besideConstants at h
  split at h
  · cases h
    exact hfd
  split at h
  · next he hs =>
    obtain ⟨fd₁, h₁, h₂⟩ := Option.bind_eq_some_iff.mp h
    exact (removeFromCols_holds hfd hs he hc h₁).removeToCols h₂
  · exact hfd.removeToCols h

theorem addConstants_keeps (h : DepsHold R f.deps) (hc : R.Determines ∅ cols) : Keeps R f (f.addConstants cols) := by
  unfold addConstants
  split
  · exact Keeps.refl h
  have hclosure : R.Determines ∅ (computeClosure f.deps cols) := hc.trans (computeClosure_determines h cols)
  have hrest : ∀ l : List FuncDep, (∀ fd ∈ l, fd.Holds R) →
      DepsHold R (l.filterMap (besideConstants (computeClosure f.deps cols))) := by
    intro l hl fd' hfd'
    obtain ⟨fd, hfd, heq⟩ := mem_filterMap.mp hfd'
    exact besideConstants_holds (hl fd hfd) hclosure heq
  refine (keeps_of_deps ?_).trans (reduceStrictKey_keeps ?_) <;>
  · cases hdeps : f.deps with
    | nil =>
      rw [hdeps] at hclosure
      exact forall_mem_singleton.mpr (FuncDep.holds_constant hclosure)
    | cons d rest =>
      rw [hdeps] at h hclosure hrest
      simp only
      split
      · next hconst =>
        have hdet : R.Determines d.fromCols (computeClosure (d :: rest) cols) := by
          rw [FuncDep.fromCols_of_isConstant hconst]
          exact hclosure
        refine forall_mem_cons.mpr ⟨⟨fun _ => hdet, fun _ => hdet.lax, fun he => ?_⟩,
          hrest rest (forall_mem_cons.mp h).2⟩
        exact absurd (FuncDep.fromCols_of_isConstant hconst) (FuncDep.equiv_nonempty he).ne_empty
      · exact forall_mem_cons.mpr ⟨FuncDep.holds_constant hclosure, hrest (d :: rest) h⟩

theorem addConstants_hasKey (f : FuncDepSet) (cols : ColSet) : (f.addConstants cols).hasKey = f.hasKey := by
  unfold addConstants
  split
  · rfl
  · exact reduceStrictKey_hasKey _

theorem addConstants_key (f : FuncDepSet) (cols : ColSet) : (f.addConstants cols).key ⊆ f.key := by
  unfold addConstants
  split
  · exact Finset.Subset.refl _
  · exact reduceStrictKey_key _

/-! Equivalences. -/

theorem besideEquivalence_holds (hfd : fd.Holds R) (heq : R.Equated cols cols)
    (h : besideEquivalence cols fd = some fd') : fd'.Holds R := by
  unfold besideEquivalence at h
  split at h
  · cases h
    exact hfd
  split at h
  · next hsub =>
    split at h
    · next he =>
      cases h
      have hall : R.Equated fd.fromCols ((fd.toCols ∪ cols) \ fd.fromCols) := by
        intro i a ha b hb
        cases Finset.mem_union.mp (Finset.mem_sdiff.mp hb).1 with
        | inl hb => exact hfd.equiv he i a ha b hb
        | inr hb => exact heq i a (hsub ha) b hb
      have hdet := hall.determines (FuncDep.equiv_nonempty he)
      exact ⟨fun _ => hdet, fun _ => hdet.lax, fun _ => hall⟩
    · exact hfd.removeToCols h
  · cases h
    exact hfd

theorem constant_of_equated (h : DepsHold R deps) (heq : R.Equated cols cols)
    (hany : (deps.any fun fd => fd.isConstant && decide ((fd.toCols ∩ cols).Nonempty ∧ ¬ cols ⊆ fd.toCols)) = true) :
    R.Determines ∅ cols := by
  obtain ⟨fd, hmem, hfd⟩ := any_eq_true.mp hany
  obtain ⟨hconst, hmeet⟩ := (Bool.and_eq_true _ _).mp hfd
  obtain ⟨a, ha⟩ := (of_decide_eq_true hmeet).1
  obtain ⟨hto, hcol⟩ := Finset.mem_inter.mp ha
  intro i j hij b hb
  rw [heq i b hb a hcol, heq j b hb a hcol]
  exact (h fd hmem).constant hconst i j hij a hto

theorem addEquivalency_keeps (h : DepsHold R f.deps) (heq : R.Equated cols cols) :
    Keeps R f (f.addEquivalency cols) := by
  have hclosure : R.Equated (computeEquivClosure f.deps cols) (computeEquivClosure f.deps cols) := by
    intro i a ha b hb
    obtain ⟨a', ha', haeq⟩ := computeEquivClosure_mirrors h cols a ha
    obtain ⟨b', hb', hbeq⟩ := computeEquivClosure_mirrors h cols b hb
    rw [haeq, hbeq]
    exact heq i a' ha' b' hb'
  unfold addEquivalency
  simp only
  generalize computeEquivClosure f.deps cols = equiv at hclosure ⊢
  generalize List.foldl _ (∅ : ColSet) f.deps = found
  have hbeside : DepsHold R (f.deps.filterMap (besideEquivalence equiv)) := by
    intro fd' hfd'
    obtain ⟨fd, hfd, hsome⟩ := mem_filterMap.mp hfd'
    exact besideEquivalence_holds (h fd hfd) hclosure hsome
  have hfirst : Keeps R f { f with deps := f.deps.filterMap (besideEquivalence equiv) } := keeps_of_deps hbeside
  have hnew : ∀ fd ∈ (visited (equiv \ found)).map fun id => FuncDep.equivalence id (equiv.erase id), fd.Holds R := by
    intro fd hfd
    obtain ⟨id, hid, rfl⟩ := mem_map.mp hfd
    have hmem : id ∈ equiv := (Finset.mem_sdiff.mp ((Finset.mem_sort _).mp hid)).1
    refine FuncDep.holds_equivalence fun i a ha b hb => ?_
    rw [Finset.mem_singleton.mp ha]
    exact hclosure i id hmem b (Finset.mem_of_mem_erase hb)
  have hdone : ∀ g : FuncDepSet, Keeps R f g → Keeps R f (FuncDepSet.reduceStrictKey { g with
        deps := g.deps ++ (visited (equiv \ found)).map fun id => FuncDep.equivalence id (equiv.erase id) }) := by
    intro g hg
    have hall : DepsHold R (g.deps ++ (visited (equiv \ found)).map fun id =>
        FuncDep.equivalence id (equiv.erase id)) := by
      intro fd hfd
      cases mem_append.mp hfd with
      | inl hfd => exact hg.deps fd hfd
      | inr hfd => exact hnew fd hfd
    exact (hg.trans (keeps_of_deps hall)).trans (reduceStrictKey_keeps hall)
  apply hdone
  split
  · next hany => exact hfirst.trans (addConstants_keeps hbeside (constant_of_equated h hclosure hany))
  · exact hfirst

/-! Single dependencies. -/

/-- The dependencies after the loop of `addDependency` are old ones, the new one, or an old one with
    the same determinant and the dependants of both. -/
theorem mergeDep_forall {P : FuncDep → Prop} (hnew : P newFD)
    (hsame : ∀ d, P d → d.strict = newFD.strict ∧ d.equiv = newFD.equiv ∧ d.fromCols = newFD.fromCols →
      P (d.withTo (d.toCols ∪ newFD.toCols))) (added : Bool) (deps : List FuncDep) (h : ∀ d ∈ deps, P d) :
    ∀ fd ∈ (mergeDep newFD added deps).1, P fd := by
  fun_induction mergeDep newFD added deps with
  | case1 added => exact h
  | case2 d rest himp ih => exact ih (forall_mem_cons.mp h).2
  | case3 added d rest himp hadded ih => exact forall_mem_cons.mpr ⟨hnew, ih (forall_mem_cons.mp h).2⟩
  | case5 added d rest himp hadded himp' heq ih =>
    obtain ⟨hd, hrest⟩ := forall_mem_cons.mp h
    exact forall_mem_cons.mpr ⟨hsame d hd heq, ih hrest⟩
  | case4 _ _ _ _ _ _ ih | case6 _ _ _ _ _ _ _ ih | case7 _ _ _ _ _ ih =>
    obtain ⟨hd, hrest⟩ := forall_mem_cons.mp h
    exact forall_mem_cons.mpr ⟨hd, ih hrest⟩

theorem merged_forall {P : FuncDep → Prop} (h : ∀ d ∈ deps, P d) (hnew : P newFD)
    (hsame : ∀ d, P d → d.strict = newFD.strict ∧ d.equiv = newFD.equiv ∧ d.fromCols = newFD.fromCols →
      P (d.withTo (d.toCols ∪ newFD.toCols))) :
    ∀ fd ∈ (if (mergeDep newFD false deps).2 then (mergeDep newFD false deps).1
      else (mergeDep newFD false deps).1 ++ [newFD]), P fd := by
  have hmerged := mergeDep_forall hnew hsame false deps h
  split
  · exact hmerged
  · exact forall_mem_append.mpr ⟨hmerged, forall_mem_singleton.mpr hnew⟩

theorem merged_hold (h : DepsHold R deps) (hnew : newFD.Holds R) :
    DepsHold R (if (mergeDep newFD false deps).2 then (mergeDep newFD false deps).1
      else (mergeDep newFD false deps).1 ++ [newFD]) := by
  refine merged_forall h hnew fun d hold ⟨hstrict, hequiv, hfrom⟩ => ?_
  refine ⟨fun hs => (hold.strict hs).union ?_, fun hs => (hold.lax hs).union ?_, fun he i a ha b hb => ?_⟩
  · exact (hfrom ▸ hnew.strict (hstrict.symm.trans hs) : R.Determines d.fromCols newFD.toCols)
  · exact (hfrom ▸ hnew.lax (hstrict.symm.trans hs) : R.LaxDetermines d.fromCols newFD.toCols)
  cases Finset.mem_union.mp hb with
  | inl hb => exact hold.equiv he i a ha b hb
  | inr hb => exact hnew.equiv (hequiv.symm.trans he) i a (hfrom ▸ ha) b hb

/-- What is passed to `addDependency` holds in the relation. -/
structure Fact (R : Relation ColumnID V) (s t : ColSet) (isStrict isEquiv : Bool) : Prop where
  strict : isStrict = true → R.Determines s t
  lax : isStrict = false → R.LaxDetermines s t ∧ s ≠ ∅
  equiv : isEquiv = true → R.Equated s t ∧ s.Nonempty

theorem Fact.ofStrict (h : R.Determines s t) : Fact R s t true false := ⟨fun _ => h, by simp, by simp⟩

theorem Fact.ofLax (h : R.LaxDetermines s t) (hs : s ≠ ∅) : Fact R s t false false := ⟨by simp, fun _ => ⟨h, hs⟩, by simp⟩

theorem Fact.ofHolds (h : fd.Holds R) : Fact R fd.fromCols fd.toCols fd.strict fd.equiv :=
  ⟨h.strict, fun hl => ⟨h.lax hl, fd.lax_from hl⟩, fun he => ⟨h.equiv he, FuncDep.equiv_nonempty he⟩⟩

theorem addDependency_keeps {strict equiv : Bool} (h : DepsHold R f.deps) (hfact : Fact R s t strict equiv) :
    ∃ f', f.addDependency s t strict equiv = .ok f' ∧ Keeps R f f' := by
  unfold addDependency
  split
  · exact ⟨f, rfl, Keeps.refl h⟩
  next hsub =>
  split
  · next he =>
    obtain ⟨heq, a, ha⟩ := hfact.equiv he
    obtain ⟨b, hb, -⟩ := Finset.not_subset.mp hsub
    refine ⟨_, rfl, addEquivalency_keeps h ?_⟩
    have hcol : ∀ i, ∀ c ∈ s ∪ t, R.row i c = R.row i b := by
      intro i c hc
      cases Finset.mem_union.mp hc with
      | inl hc => exact heq i c hc b hb
      | inr hc => exact (heq i a ha c hc).symm.trans (heq i a ha b hb)
    exact fun i c hc d hd => (hcol i c hc).trans (hcol i d hd).symm
  cases strict with
  | true =>
    have hdet : R.Determines (reduceCols f.deps s) t := (reduceCols_determines h s).trans (hfact.strict rfl)
    simp only [if_true, Bool.not_true, Bool.false_eq_true, if_false]
    split
    · next hempty => exact ⟨_, rfl, addConstants_keeps h (hempty ▸ hdet)⟩
    next hne =>
    refine ⟨_, rfl, keeps_of_deps (merged_hold h ?_)⟩
    exact ⟨fun _ => hdet.subset Finset.sdiff_subset, nofun, nofun⟩
  | false =>
    obtain ⟨hlax, hne⟩ := hfact.lax rfl
    simp only [Bool.false_eq_true, if_false]
    rw [dif_neg hne]
    refine ⟨_, rfl, keeps_of_deps (merged_hold h ?_)⟩
    exact ⟨nofun, fun _ => hlax.subset Finset.sdiff_subset, nofun⟩

end FuncDepSet

end Ratel.Opt
