import Ratel.Opt.FuncDepOps

/- Dependencies of outer joins. The dependencies of a product are about one side each, apart from the
   constants; seen column by column, each of them holds in the left or in the right relation alone.
   Extending one side by NULLs keeps what holds in the other, and of its own side what survives rows of
   NULLs: equivalences, lax dependencies, and strict ones with a determinant that is not NULL. A key of
   the product is a key of each side, with NULLs in the place of the other. -/
namespace Ratel.Opt

open Ratel.Lib List Relation
open Finset hiding mem_singleton

variable {V : Type} {R : Relation ColumnID V} {deps : List FuncDep} {fd : FuncDep} {A B nn cols s t : ColSet}

/-- What holds of each dependency for each of its dependants alone. -/
def Parts (P : FuncDep → Prop) (deps : List FuncDep) : Prop := ∀ fd ∈ deps, ∀ c ∈ fd.toCols, P (fd.withTo {c})

theorem depsHold_iff_parts : DepsHold R deps ↔ Parts (FuncDep.Holds R) deps := by
  constructor
  · exact fun h fd hfd c hc => (h fd hfd).withTo (Finset.singleton_subset_iff.mpr hc)
  intro h fd hfd
  refine ⟨fun hs i j hij c hc => ?_, fun hl i j hn hij c hc => ?_, fun he i a ha b hb => ?_⟩
  · exact (h fd hfd c hc).strict hs i j hij c (Finset.mem_singleton_self c)
  · exact (h fd hfd c hc).lax hl i j hn hij c (Finset.mem_singleton_self c)
  · exact (h fd hfd b hb).equiv he i a ha b (Finset.mem_singleton_self b)

theorem Parts.imp {P Q : FuncDep → Prop} (h : Parts P deps) (hPQ : ∀ fd, P fd → Q fd) : Parts Q deps :=
  fun fd hfd c hc => hPQ _ (h fd hfd c hc)

/-- The part is about the columns of one side. -/
def FuncDep.On (fd : FuncDep) (cols : ColSet) : Prop := fd.fromCols ⊆ cols ∧ fd.toCols ⊆ cols

def FuncDep.laxOf (s t : ColSet) (h : s ≠ ∅) : FuncDep := ⟨s, t, false, false, fun _ => h, nofun⟩

namespace FuncDepSet

variable {f f' : FuncDepSet}

/-! Null extension, part by part. -/

variable {P : FuncDep → Prop}

theorem merged_parts {newFD : FuncDep} (h : Parts P deps) (hnew : ∀ c ∈ newFD.toCols, P (newFD.withTo {c})) :
    Parts P (if (mergeDep newFD false deps).2 then (mergeDep newFD false deps).1
      else (mergeDep newFD false deps).1 ++ [newFD]) := by
  refine merged_forall h hnew fun d hd ⟨hstrict, hequiv, hfrom⟩ c hc => ?_
  rcases Finset.mem_union.mp hc with hc | hc
  · exact hd c hc
  have heq : (d.withTo (d.toCols ∪ newFD.toCols)).withTo {c} = newFD.withTo {c} := by
    obtain ⟨nfrom, nto, ns, ne, h3, h4⟩ := newFD
    subst hstrict hequiv hfrom
    rfl
  rw [heq]
  exact hnew c hc

theorem addDependency_lax_parts (hs : s ≠ ∅) (h : Parts P f.deps) (hnew : ∀ c ∈ t, P (FuncDep.laxOf s {c} hs)) :
    ∃ f', f.addDependency s t false false = .ok f' ∧ Parts P f'.deps ∧ f'.hasKey = f.hasKey ∧ f'.key = f.key := by
  unfold addDependency
  split
  · exact ⟨f, rfl, h, rfl, rfl⟩
  simp only [Bool.false_eq_true, if_false]
  rw [dif_neg hs]
  exact ⟨_, rfl, merged_parts h fun c hc => hnew c (Finset.mem_sdiff.mp hc).1, rfl, rfl⟩

/-- What becomes of the parts of dependencies when the columns `B` are extended by NULLs. -/
inductive Extended (P : FuncDep → Prop) (B nn : ColSet) : FuncDep → Prop
  | other {fd : FuncDep} (hfrom : Disjoint fd.fromCols B) (hto : Disjoint fd.toCols B) (h : P fd) : Extended P B nn fd
  | same {fd : FuncDep} (hfrom : fd.fromCols ⊆ B) (hne : fd.fromCols ≠ ∅) (h : P fd)
      (hsurvives : fd.strict = false ∨ fd.equiv = true ∨ (fd.fromCols ∩ nn).Nonempty) : Extended P B nn fd
  | weakened (fd : FuncDep) (hfrom : fd.fromCols ⊆ B) (hne : fd.fromCols ≠ ∅) (h : P fd) :
      Extended P B nn (FuncDep.laxOf fd.fromCols fd.toCols hne)

/-- Each part is about `B` or has nothing to do with it. -/
def OneSided (P : FuncDep → Prop) (B : ColSet) : Prop :=
  ∀ fd, P fd → (Disjoint fd.fromCols B ∧ Disjoint fd.toCols B) ∨ fd.On B

/-- A dependency that is kept, and the lax ones that are added. -/
def KeptParts (P : FuncDep → Prop) (B nn : ColSet) (fd : FuncDep) : Prop :=
  ∀ c ∈ fd.toCols, Extended P B nn (fd.withTo {c})

def NewParts (P : FuncDep → Prop) (B nn : ColSet) (new : ColSet × ColSet) : Prop :=
  ∃ hs : new.1 ≠ ∅, ∀ c ∈ new.2, Extended P B nn (FuncDep.laxOf new.1 {c} hs)

theorem nullExtendDep_parts (hside : OneSided P B) (nn : ColSet) (isKey : ColSet → Bool)
    (h : ∀ c ∈ fd.toCols, P (fd.withTo {c})) :
    let out := nullExtendDep isKey B nn fd
    (out.2.1 = true → KeptParts P B nn out.1) ∧ ∀ new ∈ out.2.2, NewParts P B nn new := by
  -- a part whose determinant and dependant are not in `B`
  have hother : Disjoint fd.fromCols B → ∀ {t : ColSet}, t ⊆ fd.toCols → Disjoint t B →
      KeptParts P B nn (fd.withTo t) := by
    intro hfrom t ht hdisj c hc
    exact .other hfrom (hdisj.mono_left (Finset.singleton_subset_iff.mpr hc)) (h c (ht hc))
  have hnone : ∀ new ∈ ([] : List (ColSet × ColSet)), NewParts P B nn new := nofun
  unfold nullExtendDep
  split
  · next hconst =>
    have hfrom : Disjoint fd.fromCols B := by
      rw [FuncDep.fromCols_of_isConstant hconst]
      exact disjoint_empty_left B
    split
    · refine ⟨fun _ => hother hfrom sdiff_subset ?_, hnone⟩
      rw [sdiff_inter_self_left]
      exact sdiff_disjoint
    next hdisj =>
    refine ⟨fun _ => hother hfrom (Finset.Subset.refl _) ?_, hnone⟩
    exact Finset.disjoint_iff_inter_eq_empty.mpr (Finset.not_nonempty_iff_eq_empty.mp hdisj)
  split
  · next hmeet =>
    have hnot : ¬ Disjoint fd.fromCols B :=
      fun hd => hmeet.ne_empty (Finset.disjoint_iff_inter_eq_empty.mp hd)
    have hB : ∀ c ∈ fd.toCols, fd.fromCols ⊆ B ∧ c ∈ B := by
      intro c hc
      rcases hside _ (h c hc) with hd | hon
      · exact absurd hd.1 hnot
      · exact ⟨hon.1, hon.2 (Finset.mem_singleton_self c)⟩
    split
    · next hmixed => exact ⟨fun _ c hc => absurd (hB c hc).1 hmixed, hnone⟩
    next hsub =>
    have hsub := not_not.mp hsub
    have hto : fd.toCols ⊆ B := fun c hc => (hB c hc).2
    have hne : fd.fromCols ≠ ∅ := (hmeet.mono inter_subset_left).ne_empty
    have hlax : fd.toCols \ B = ∅ := Finset.sdiff_eq_empty_iff_subset.mpr hto
    simp only [hlax, if_pos hto, sdiff_empty, Finset.not_nonempty_empty, false_and, if_false, nil_append]
    split
    · exact ⟨nofun, forall_mem_singleton.mpr ⟨hne, fun c hc => .weakened (fd.withTo {c}) hsub hne (h c hc)⟩⟩
    next hkeep =>
    refine ⟨fun _ c hc => .same hsub hne (h c hc) ?_, hnone⟩
    by_contra hcon
    rw [not_or, not_or] at hcon
    apply hkeep
    simp only [FuncDep.withTo, Bool.and_eq_true, Bool.not_eq_true'] at hcon ⊢
    exact ⟨⟨Bool.eq_true_of_not_eq_false hcon.1, Bool.eq_false_of_not_eq_true hcon.2.1⟩,
      decide_eq_true (Finset.not_nonempty_iff_eq_empty.mp hcon.2.2)⟩
  · next hmeet =>
    have hfrom := Finset.disjoint_iff_inter_eq_empty.mpr (Finset.not_nonempty_iff_eq_empty.mp hmeet)
    exact ⟨fun _ => hother hfrom sdiff_subset sdiff_disjoint, hnone⟩

/-- The state of the loop before round `i`. -/
structure ExtendingTo (P : FuncDep → Prop) (B nn : ColSet) (deps : List FuncDep) (i : Nat) (st : Extending) : Prop where
  length : st.deps.length = deps.length
  front : st.n ≤ i
  rest : ∀ k, i ≤ k → st.deps[k]? = deps[k]?
  kept : ∀ fd ∈ st.deps.take st.n, KeptParts P B nn fd
  new : ∀ new ∈ st.newFDs, NewParts P B nn new

theorem nullExtendStep_parts {i : Nat} {st : Extending} (hside : OneSided P B)
    (h : Parts P f.deps) (hi : i < f.deps.length) (hst : ExtendingTo P B nn f.deps i st) :
    ExtendingTo P B nn f.deps (i + 1) (nullExtendStep f B nn st i) := by
  have hget : st.deps[i]? = some f.deps[i] := (hst.rest i (Nat.le_refl i)).trans (getElem?_eq_getElem hi)
  have hfd := h f.deps[i] (getElem_mem hi)
  unfold nullExtendStep
  rw [hget]
  simp only
  obtain ⟨hkept, hnew⟩ := nullExtendDep_parts hside nn { f with deps := st.deps }.colsAreStrictKey hfd
  generalize nullExtendDep { f with deps := st.deps }.colsAreStrictKey B nn f.deps[i] = out at hkept hnew ⊢
  have hnews : ∀ new ∈ st.newFDs ++ out.2.2, NewParts P B nn new := forall_mem_append.mpr ⟨hst.new, hnew⟩
  have hn : st.n < (st.deps.set i out.1).length := by
    rw [length_set, hst.length]
    exact Nat.lt_of_le_of_lt hst.front hi
  have hfront : (st.deps.set i out.1).take st.n = st.deps.take st.n := take_set_of_le hst.front
  split
  · next hkeep =>
    refine ⟨by simp [hst.length], Nat.succ_le_succ hst.front, fun k hk => ?_, fun fd hmem => ?_, hnews⟩
    · have hlt := hst.front
      rw [getElem?_set_ne (by omega), getElem?_set_ne (by omega)]
      exact hst.rest k (by omega)
    rw [take_add_one, take_set_of_le (Nat.le_refl _), hfront, getElem?_set_self hn] at hmem
    rcases mem_append.mp hmem with hmem | heq
    · exact hst.kept fd hmem
    · rw [mem_singleton.mp heq]
      exact hkept hkeep
  · refine ⟨by simp [hst.length], Nat.le_succ_of_le hst.front, fun k hk => ?_, fun fd hmem => ?_, hnews⟩
    · show (st.deps.set i out.1)[k]? = _
      rw [getElem?_set_ne (by omega)]
      exact hst.rest k (by omega)
    · rw [hfront] at hmem
      exact hst.kept fd hmem

theorem nullExtendLoop_parts (hside : OneSided P B) (h : Parts P f.deps) (nn : ColSet) :
    ∀ i, i ≤ f.deps.length → ExtendingTo P B nn f.deps i ((List.range i).foldl (nullExtendStep f B nn) ⟨f.deps, 0, []⟩)
  | 0, _ => ⟨rfl, Nat.le_refl 0, fun _ _ => rfl, by simp, by simp⟩
  | i + 1, hi => by
    rw [range_succ, foldl_append]
    exact nullExtendStep_parts hside h hi (nullExtendLoop_parts hside h nn i (Nat.le_of_succ_le hi))

/-- Null extension does not fail, changes the parts as described and leaves the key. -/
theorem nullExtendRightRows_parts (hside : OneSided P B) (h : Parts P f.deps) (nn : ColSet) :
    ∃ f', f.nullExtendRightRows B nn = .ok f' ∧ Parts (Extended P B nn) f'.deps ∧ f'.hasKey = f.hasKey ∧
      f'.key = f.key := by
  have hloop := nullExtendLoop_parts hside h nn f.deps.length (Nat.le_refl _)
  unfold nullExtendRightRows
  generalize (List.range f.deps.length).foldl (nullExtendStep f B nn) ⟨f.deps, 0, []⟩ = st at hloop ⊢
  have hadd : ∀ (l : List (ColSet × ColSet)) (g : FuncDepSet), (∀ new ∈ l, NewParts P B nn new) →
      Parts (Extended P B nn) g.deps →
      ∃ f', l.foldlM (fun f fd => f.addDependency fd.1 fd.2 false false) g = .ok f' ∧
        Parts (Extended P B nn) f'.deps ∧ f'.hasKey = g.hasKey ∧ f'.key = g.key := by
    intro l
    induction l with
    | nil => exact fun g _ hg => ⟨g, rfl, hg, rfl, rfl⟩
    | cons new l ih =>
      intro g hnews hg
      obtain ⟨hs, hnew⟩ := hnews new mem_cons_self
      obtain ⟨g₁, hok, hg₁, hhas, hkey⟩ := addDependency_lax_parts hs hg hnew
      obtain ⟨g₂, hok', hg₂, hhas', hkey'⟩ := ih g₁ (forall_mem_cons.mp hnews).2 hg₁
      refine ⟨g₂, ?_, hg₂, hhas'.trans hhas, hkey'.trans hkey⟩
      rw [foldlM_cons, hok]
      exact hok'
  exact hadd st.newFDs { f with deps := st.deps.take st.n } hloop.new hloop.kept

/-! The parts of a product. -/

theorem computeClosure_subset {U : ColSet} (h : ∀ fd ∈ deps, fd.toCols ⊆ U) (hcols : cols ⊆ U) :
    computeClosure deps cols ⊆ U := by
  fun_induction computeClosure deps cols with
  | case1 cols hnext => exact hcols
  | case2 cols fd hnext ih => exact ih (union_subset hcols (h fd (nextStrict_some hnext).1))

/-- About one of two sides. -/
def OnEither (A B : ColSet) (fd : FuncDep) : Prop := fd.On A ∨ fd.On B

theorem toCols_subset_of_parts (h : Parts (OnEither A B) deps) (hfd : fd ∈ deps) : fd.toCols ⊆ A ∪ B := by
  intro c hc
  have hmem := Finset.mem_singleton_self c
  rcases h fd hfd c hc with hon | hon
  · exact mem_union_left _ (hon.2 hmem)
  · exact mem_union_right _ (hon.2 hmem)

theorem onEither_constant {c : ColumnID} (h : c ∈ A ∪ B) (hfrom : fd.fromCols = ∅) : OnEither A B (fd.withTo {c}) := by
  have hsub : ∀ U : ColSet, c ∈ U → (fd.withTo {c}).On U := fun U hc =>
    ⟨hfrom ▸ empty_subset U, Finset.singleton_subset_iff.mpr hc⟩
  exact (Finset.mem_union.mp h).imp (hsub A) (hsub B)

/-- A dependency beside constants is about the same side, with fewer columns. -/
theorem besideConstants_subset {fd' : FuncDep} (h : besideConstants cols fd = some fd') :
    fd'.fromCols ⊆ fd.fromCols ∧ fd'.toCols ⊆ fd.toCols := by
  have hto : ∀ {d d' : FuncDep}, d.removeToCols cols = some d' → d'.fromCols ⊆ d.fromCols ∧ d'.toCols ⊆ d.toCols := by
    intro d d' hd
    unfold FuncDep.removeToCols at hd
    split at hd
    · cases hd
    · cases hd
      exact ⟨Finset.Subset.refl _, sdiff_subset⟩
  unfold besideConstants at h
  split at h
  · cases h
    exact ⟨Finset.Subset.refl _, Finset.Subset.refl _⟩
  split at h
  · obtain ⟨d, hd, h⟩ := Option.bind_eq_some_iff.mp h
    obtain ⟨hfrom', hto'⟩ := hto h
    unfold FuncDep.removeFromCols at hd
    split at hd
    · cases hd
    · cases hd
      exact ⟨hfrom'.trans sdiff_subset, hto'⟩
  · exact hto h

theorem addConstants_parts (h : Parts (OnEither A B) f.deps) (hcols : cols ⊆ A ∪ B) :
    Parts (OnEither A B) (f.addConstants cols).deps := by
  have hreduce : ∀ g : FuncDepSet, g.reduceStrictKey.deps = g.deps := by
    intro g
    unfold reduceStrictKey
    split <;> rfl
  have hclosure : computeClosure f.deps cols ⊆ A ∪ B :=
    computeClosure_subset (fun fd hfd => toCols_subset_of_parts h hfd) hcols
  have hrest : ∀ l : List FuncDep, Parts (OnEither A B) l →
      Parts (OnEither A B) (l.filterMap (besideConstants (computeClosure f.deps cols))) := by
    intro l hl fd' hfd' c hc
    obtain ⟨fd, hfd, hsome⟩ := mem_filterMap.mp hfd'
    obtain ⟨hfrom, hto⟩ := besideConstants_subset hsome
    exact (hl fd hfd c (hto hc)).imp (fun hon => ⟨hfrom.trans hon.1, hon.2⟩) fun hon => ⟨hfrom.trans hon.1, hon.2⟩
  unfold addConstants
  split
  · exact h
  rw [hreduce]
  cases hdeps : f.deps with
  | nil =>
    rw [hdeps] at hclosure
    exact forall_mem_singleton.mpr fun c hc => onEither_constant (hclosure hc) rfl
  | cons d rest =>
    rw [hdeps] at h hclosure hrest
    simp only
    split
    · next hconst =>
      exact forall_mem_cons.mpr ⟨fun c hc => onEither_constant (hclosure hc) (FuncDep.fromCols_of_isConstant hconst),
        hrest rest (forall_mem_cons.mp h).2⟩
    · exact forall_mem_cons.mpr ⟨fun c hc => onEither_constant (hclosure hc) rfl, hrest (d :: rest) h⟩

theorem productLoop_parts : ∀ (l : List FuncDep) (f : FuncDepSet), Parts (OnEither A B) f.deps → (∀ fd ∈ l, fd.On B) →
    Parts (OnEither A B) (l.foldl productStep f).deps
  | [], _, h, _ => h
  | d :: l, f, h, hl => by
    have hd := hl d mem_cons_self
    refine productLoop_parts l _ ?_ (forall_mem_cons.mp hl).2
    unfold productStep
    split
    · exact addConstants_parts h (hd.2.trans subset_union_right)
    · refine forall_mem_append.mpr ⟨h, forall_mem_singleton.mpr fun c hc => ?_⟩
      exact .inr ⟨hd.1, Finset.singleton_subset_iff.mpr (hd.2 hc)⟩

/-- The part holds in the relation of the side it is about. -/
def OnSide (L R : Relation ColumnID V) (fd : FuncDep) : Prop := (fd.On L.cols ∧ fd.Holds L) ∨ (fd.On R.cols ∧ fd.Holds R)

/-- The dependencies of a product: sound for the product and for that of either side with NULLs, and
    about one side each. -/
structure IsProduct (L R : Relation ColumnID V) (f : FuncDepSet) : Prop where
  pairs : Sound (L.product R) f
  left : Sound (L.product (nulls V R.cols)) f
  right : Sound ((nulls V L.cols).product R) f
  parts : Parts (OnSide L R) f.deps
  key : f.hasKey ≠ .noKey → f.key ⊆ L.cols ∪ R.cols

variable {L : Relation ColumnID V} {left right filters : FuncDepSet}

theorem makeProduct_isProduct (hL : Sound L left) (hR : Sound R right) (hleft : left.colSet ⊆ L.cols)
    (hright : right.colSet ⊆ R.cols) (hdisj : Disjoint L.cols R.cols) :
    ∃ f, left.makeProduct right = .ok f ∧ IsProduct L R f := by
  have hN := sound_nulls V R.cols right
  have hN' := sound_nulls V L.cols left
  obtain ⟨f, hf, hpairs⟩ := makeProduct_sound hL hR hleft hright hdisj
  obtain ⟨f₁, hf₁, hl⟩ := makeProduct_sound hL hN hleft hright hdisj
  obtain ⟨f₂, hf₂, hr⟩ := makeProduct_sound hN' hR hleft hright hdisj
  cases hf.symm.trans hf₁
  cases hf.symm.trans hf₂
  have heq : productKey (right.deps.foldl productStep left) right = f :=
    Except.ok.inj ((makeProduct_eq left right).symm.trans hf)
  refine ⟨f, hf, hpairs, hl, hr, ?_, ?_⟩
  · have hon : ∀ {g : FuncDepSet} {U : ColSet}, g.colSet ⊆ U → ∀ fd ∈ g.deps, fd.On U :=
      fun hU fd hfd => ⟨(dep_subset_colSet hfd).1.trans hU, (dep_subset_colSet hfd).2.trans hU⟩
    have hparts : Parts (OnEither L.cols R.cols) f.deps := by
      rw [← heq, productKey_deps]
      refine productLoop_parts right.deps left (fun fd hfd c hc => .inl ?_) (hon hright)
      exact ⟨(hon hleft fd hfd).1, Finset.singleton_subset_iff.mpr ((hon hleft fd hfd).2 hc)⟩
    intro fd hfd c hc
    have hsub := Finset.singleton_subset_iff.mpr hc
    rcases hparts fd hfd c hc with hon | hon
    · exact .inl ⟨hon, ((hl.deps fd hfd).withTo hsub).reads (L.reads_nulls R.cols) hon.1 hon.2⟩
    · exact .inr ⟨hon, ((hr.deps fd hfd).withTo hsub).reads (R.reads_nulls_right hdisj) hon.1 hon.2⟩
  intro hk
  obtain ⟨hhas, hsub⟩ := productLoop_key right.deps left
  rw [← heq] at hk ⊢
  unfold productKey at hk ⊢
  split
  · next hboth =>
    exact union_subset_union (hsub.trans ((key_subset_colSet (hhas ▸ hboth.1)).trans hleft))
      ((key_subset_colSet hboth.2).trans hright)
  next hboth =>
  rw [if_neg hboth] at hk
  exact absurd rfl hk

/-! What survives rows of NULLs. -/

/-- The dependency holds, also beside rows of NULLs. -/
structure Survives (R : Relation ColumnID V) (nn : ColSet) (fd : FuncDep) : Prop where
  holds : fd.Holds R
  nonempty : fd.fromCols ≠ ∅
  kind : fd.strict = false ∨ fd.equiv = true ∨ (fd.fromCols ∩ nn).Nonempty

theorem Survives.read {J : Relation ColumnID V} {ψ : J.Idx → Option R.Idx} (h : Survives R nn fd)
    (hr : Relation.ReadsOrNull J R B ψ) (hon : fd.On B) (hn : R.NotNull (B ∩ nn)) : fd.Holds J := by
  have hne : fd.fromCols.Nonempty := Finset.nonempty_iff_ne_empty.mpr h.nonempty
  refine ⟨fun hs => ?_, fun _ => hr.laxDetermines h.holds.laxDetermines hne hon.1 hon.2,
    fun he => hr.equated (h.holds.equiv he) hon.1 hon.2⟩
  rcases h.kind with hl | he | ⟨c, hc⟩
  · exact absurd (hs.symm.trans hl) (by decide)
  · exact (hr.equated (h.holds.equiv he) hon.1 hon.2).determines hne
  obtain ⟨hfrom, hnn⟩ := Finset.mem_inter.mp hc
  exact hr.determines (h.holds.strict hs) hon.1 hon.2 hfrom fun j =>
    hn j c (Finset.mem_inter.mpr ⟨hon.1 hfrom, hnn⟩)

theorem survives_laxOf (h : fd.Holds R) (hne : fd.fromCols ≠ ∅) :
    Survives R nn (FuncDep.laxOf fd.fromCols fd.toCols hne) :=
  ⟨⟨nofun, fun _ => h.laxDetermines, nofun⟩, hne, .inl rfl⟩

/-- A dependency about columns of `A` and disjoint from `A` says nothing. -/
theorem holds_of_on_disjoint (hon : fd.On A) (hto : Disjoint fd.toCols A) : fd.Holds R := by
  have hempty : fd.toCols = ∅ := disjoint_self_iff_empty _ |>.mp (hto.mono_right hon.2)
  refine ⟨fun _ => ?_, fun _ => ?_, fun _ i a _ b hb => ?_⟩
  · exact hempty ▸ determines_of_subset (empty_subset _)
  · exact hempty ▸ (determines_of_subset (empty_subset _)).lax
  · rw [hempty] at hb
    cases hb

theorem not_subset_both (hdisj : Disjoint A B) (hne : s ≠ ∅) (hA : s ⊆ A) : ¬ s ⊆ B :=
  fun hB => hne ((disjoint_self_iff_empty s).mp (hdisj.mono hA hB))

theorem oneSided_of_on (hdisj : Disjoint A B) (h : ∀ fd, P fd → fd.On A ∨ fd.On B) : OneSided P B :=
  fun fd hfd => (h fd hfd).imp_left fun hon => ⟨hdisj.mono_left hon.1, hdisj.mono_left hon.2⟩

/-- What is extended is about the other side as before, has no columns, or survives rows of NULLs. -/
theorem Extended.sides {Q : FuncDep → Prop} (hdisj : Disjoint A B)
    (hP : ∀ fd, P fd → (fd.On A ∧ Q fd) ∨ (fd.On B ∧ fd.Holds R)) (h : Extended P B nn fd) :
    (fd.On A ∧ Q fd) ∨ (fd.On B ∧ Disjoint fd.fromCols B ∧ Disjoint fd.toCols B) ∨ (fd.On B ∧ Survives R nn fd) := by
  cases h with
  | other hfrom hto hside => exact (hP _ hside).imp_right fun hon => .inl ⟨hon.1, hfrom, hto⟩
  | same hfrom hne hside hkind =>
    rcases hP _ hside with hother | hon
    · exact absurd hfrom (not_subset_both hdisj hne hother.1.1)
    · exact .inr (.inr ⟨hon.1, hon.2, hne, hkind⟩)
  | weakened d hfrom hne hside =>
    rcases hP _ hside with hother | hon
    · exact absurd hfrom (not_subset_both hdisj hne hother.1.1)
    · exact .inr (.inr ⟨hon.1, survives_laxOf hon.2 hne⟩)

/-! Left outer joins. -/

variable {cond : L.Idx → R.Idx → Prop}

theorem leftOuter_parts (hdisj : Disjoint L.cols R.cols) (hn : R.NotNull (R.cols ∩ nn))
    (h : Extended (OnSide L R) R.cols nn fd) : fd.Holds (L.leftOuter R cond) := by
  rcases h.sides hdisj (fun _ h => h) with hl | ⟨hon, -, hto⟩ | hr
  · exact hl.2.reads reads_leftOuter hl.1.1 hl.1.2
  · exact holds_of_on_disjoint hon hto
  · exact hr.2.read (readsOrNull_leftOuter hdisj) hr.1 hn

theorem leftOuter_leftKey (hL : L.StrictKey s) (hs : s ⊆ L.cols)
    (hF : ((L.product R).filter fun p => cond p.1 p.2).StrictKey L.cols) : (L.leftOuter R cond).StrictKey s := by
  intro x y hxy
  have hleft := hL _ _ ((Relation.reads_leftOuter.agreeOn hs).mp hxy)
  rcases x with p | i
  · rcases y with q | i
    · refine congrArg Sum.inl (hF p q fun c hc => ?_)
      have hpq : p.1.1 = q.1.1 := hleft
      show combine _ _ _ c = combine _ _ _ c
      rw [combine_left hc, combine_left hc, hpq]
    · have hpi : p.1.1 = i.1 := hleft
      exact absurd (hpi ▸ p.2) (i.2 _)
  · rcases y with q | i'
    · have hiq : i.1 = q.1.1 := hleft
      exact absurd (hiq ▸ q.2) (i.2 _)
    · exact congrArg Sum.inr (Subtype.ext hleft)

/-- With one left row at most, what the left columns determine in the pairs is constant. -/
theorem leftOuter_constants (hL : L.StrictKey ∅)
    (hF : ((L.product R).filter fun p => cond p.1 p.2).Determines L.cols t) : (L.leftOuter R cond).Determines ∅ t := by
  intro x y _
  have hone : ∀ i i' : L.Idx, i = i' := fun i i' => hL i i' (by simp [AgreeOn])
  rcases x with p | i
  · rcases y with q | i
    · refine hF p q fun c hc => ?_
      show combine _ _ _ c = combine _ _ _ c
      rw [combine_left hc, combine_left hc, hone p.1.1 q.1.1]
    · exact absurd (hone p.1.1 i.1 ▸ p.2) (i.2 _)
  · rcases y with q | i'
    · exact absurd (hone q.1.1 i.1 ▸ q.2) (i.2 _)
    · rw [Subtype.ext (hone i.1 i'.1)]; exact fun _ _ => rfl

/-- A key that is put back is as it was. -/
theorem setKey_restore {J : Relation ColumnID V} (f : FuncDepSet) {g : FuncDepSet} (h : g.KeyHolds J) :
    (f.setKey g.key g.hasKey).KeyHolds J := by
  have hnot : ¬ (g.hasKey = .laxKey ∧ g.key = ∅) := fun hk => g.lax_key hk.1 hk.2
  unfold KeyHolds setKey
  simp only [if_neg hnot]
  exact h

theorem leftOuter_key (h : IsProduct L R f) : f.KeyHolds (L.leftOuter R cond) := by
  have hP := h.pairs.key
  have hN := h.left.key
  unfold KeyHolds at hP hN ⊢
  cases hk : f.hasKey with
  | noKey => trivial
  | laxKey =>
    rw [hk] at hP hN
    exact leftOuter_laxKey hP hN
  | strictKey =>
    rw [hk] at hP hN
    exact leftOuter_strictKey hP hN

/-- Whether the left columns are a key of the pairs is decided without an error, and truly. -/
theorem leftColsAreInnerJoinKey_true (h : IsProduct L R f) (left : FuncDepSet)
    (hfilters : DepsHold ((L.product R).filter fun p => cond p.1 p.2) filters.deps) :
    ∃ b, f.leftColsAreInnerJoinKey left filters L.cols = .ok b ∧
      (b = true → ((L.product R).filter fun p => cond p.1 p.2).StrictKey L.cols) := by
  unfold leftColsAreInnerJoinKey
  split
  · have hreads := reads_filter (L.product R) (fun p => cond p.1 p.2) f.colSet
    have hsound : Sound ((L.product R).filter fun p => cond p.1 p.2) f :=
      ⟨h.pairs.deps_read hreads (Finset.Subset.refl _),
        h.pairs.key.reads hreads Subtype.val_injective fun hk => key_subset_colSet hk⟩
    obtain ⟨g, hok, hkeeps⟩ := addAll_keeps hsound.deps hfilters
    refine ⟨g.colsAreStrictKey L.cols, ?_, fun hk => colsAreStrictKey_sound (hkeeps.sound hsound) hk⟩
    rw [addFrom, hok]
    rfl
  · exact ⟨false, rfl, nofun⟩

theorem leftOuterKey_sound {g : FuncDepSet} {b : Bool} (h : IsProduct L R f) (hL : Sound L left)
    (hleft : left.colSet ⊆ L.cols) (hdeps : DepsHold (L.leftOuter R cond) g.deps)
    (hinner : b = true → ((L.product R).filter fun p => cond p.1 p.2).StrictKey L.cols)
    (hn : (L.leftOuter R cond).NotNull (L.cols ∩ nn)) :
    ∃ g', g.leftOuterKey f left b (L.cols ∩ nn) = .ok g' ∧ Sound (L.leftOuter R cond) g' := by
  unfold leftOuterKey
  split
  · next hcond =>
    have hstrict := hL.key
    simp only [KeyHolds, hcond.1] at hstrict
    have hsub : left.key ⊆ L.cols := (key_subset_colSet (by rw [hcond.1]; decide)).trans hleft
    exact ⟨_, rfl, hdeps, setKey_strict_holds (leftOuter_leftKey hstrict hsub (hinner hcond.2))⟩
  · have hsound : Sound (L.leftOuter R cond) (g.setKey f.key f.hasKey) := ⟨hdeps, setKey_restore g (leftOuter_key h)⟩
    exact exists_sound hsound (tryToReduceKey_keeps hsound.deps hn hsound.key)

theorem makeLeftOuter_sound (hf : IsProduct L R f) (hL : Sound L left) (hleft : left.colSet ⊆ L.cols)
    (hdisj : Disjoint L.cols R.cols) (hfilters : DepsHold ((L.product R).filter fun p => cond p.1 p.2) filters.deps)
    (hnL : L.NotNull (L.cols ∩ nn)) (hnR : R.NotNull (R.cols ∩ nn)) :
    ∃ g, f.makeLeftOuter left filters L.cols R.cols nn = .ok g ∧ Sound (L.leftOuter R cond) g := by
  obtain ⟨b, hb, hinner⟩ := leftColsAreInnerJoinKey_true hf left hfilters
  obtain ⟨f₁, hnull, hparts, -, -⟩ := nullExtendRightRows_parts
    (oneSided_of_on hdisj fun _ h => h.imp And.left And.left) hf.parts nn
  have hdeps : DepsHold (L.leftOuter R cond) f₁.deps :=
    depsHold_iff_parts.mpr (hparts.imp fun fd h => leftOuter_parts hdisj hnR h)
  have hn : (L.leftOuter R cond).NotNull (L.cols ∩ nn) := Relation.reads_leftOuter.notNull hnL inter_subset_left
  obtain ⟨f₂, hkey, hsound₂⟩ := leftOuterKey_sound hf hL hleft hdeps hinner hn
  obtain ⟨f₃, hclosure, hsound₃⟩ := ensureKeyClosure_keeps hsound₂ (L.cols ∪ R.cols)
  unfold makeLeftOuter
  simp only [bind, Except.bind, hb, hnull, hkey, hclosure]
  split
  · next hmax =>
    obtain ⟨hs, hempty⟩ := of_decide_eq_true hmax
    have hone := hL.key
    simp only [KeyHolds, hs, hempty] at hone
    have hconst := leftOuter_constants hone (computeClosure_determines hfilters L.cols)
    exact ⟨_, rfl, (addConstants_keeps hsound₃.deps (hconst.subset inter_subset_left)).sound hsound₃⟩
  · exact ⟨f₃, rfl, hsound₃⟩

/-! Full outer joins. -/

/-- After the left columns are extended: what holds in the right relation, and what survives of the left. -/
def HalfExtended (L R : Relation ColumnID V) (nn : ColSet) (fd : FuncDep) : Prop :=
  (fd.On R.cols ∧ fd.Holds R) ∨ (fd.On L.cols ∧ Survives L nn fd)

theorem halfExtended_of_extended (hdisj : Disjoint L.cols R.cols) (h : Extended (OnSide L R) L.cols nn fd) :
    HalfExtended L R nn fd := by
  rcases h.sides hdisj.symm (fun _ h => h.symm) with hr | ⟨hon, hfrom, hto⟩ | hl
  · exact .inl hr
  · -- a dependency without columns
    refine .inl ⟨⟨?_, ?_⟩, holds_of_on_disjoint hon hto⟩
    · rw [(disjoint_self_iff_empty _).mp (hfrom.mono_right hon.1)]
      exact empty_subset _
    · rw [(disjoint_self_iff_empty _).mp (hto.mono_right hon.2)]
      exact empty_subset _
  · exact .inr hl

theorem fullOuter_parts (hdisj : Disjoint L.cols R.cols) (hnL : L.NotNull (L.cols ∩ nn))
    (hnR : R.NotNull (R.cols ∩ nn)) (h : Extended (HalfExtended L R nn) R.cols nn fd) :
    fd.Holds (L.fullOuter R cond) := by
  rcases h.sides hdisj (fun _ h => h.symm) with hl | ⟨hon, -, hto⟩ | hr
  · exact hl.2.read readsOrNull_fullOuter_left hl.1 hnL
  · exact holds_of_on_disjoint hon hto
  · exact hr.2.read (readsOrNull_fullOuter_right hdisj) hr.1 hnR

theorem fullOuter_key (h : IsProduct L R f) (hnL : L.NotNull (L.cols ∩ nn)) (hnR : R.NotNull (R.cols ∩ nn)) :
    (f.fullOuterKey nn).KeyHolds (L.fullOuter R cond) := by
  have hP := h.pairs.key
  have hN := h.left.key
  have hN' := h.right.key
  unfold fullOuterKey
  split
  · next hs =>
    simp only [KeyHolds, hs] at hP hN hN'
    split
    · trivial
    next hne =>
    split
    · exact fullOuter_laxKey hP.lax hN.lax hN'.lax (Finset.nonempty_iff_ne_empty.mpr hne)
    next hmeet =>
    obtain ⟨c, hc⟩ := Finset.nonempty_iff_ne_empty.mpr hmeet
    obtain ⟨hk, hnn⟩ := Finset.mem_inter.mp hc
    simp only [KeyHolds, hs]
    refine fullOuter_strictKey hP hN hN' hk (fun hcL i => ?_) fun hcL j => ?_
    · exact hnL i c (Finset.mem_inter.mpr ⟨hcL, hnn⟩)
    have hcR : c ∈ R.cols := by
      rcases Finset.mem_union.mp (h.key (by rw [hs]; decide) hk) with hcL' | hcR
      · exact absurd hcL' hcL
      · exact hcR
    exact hnR j c (Finset.mem_inter.mpr ⟨hcR, hnn⟩)
  · next hs =>
    unfold KeyHolds at hP hN hN' ⊢
    cases hk : f.hasKey with
    | noKey => trivial
    | laxKey =>
      rw [hk] at hP hN hN'
      exact fullOuter_laxKey hP hN hN' (Finset.nonempty_iff_ne_empty.mpr (f.lax_key hk))
    | strictKey => exact absurd hk hs

theorem fullOuterKey_deps (f : FuncDepSet) (nn : ColSet) : (f.fullOuterKey nn).deps = f.deps := by
  unfold fullOuterKey
  split_ifs <;> rfl

theorem makeFullOuter_sound (hf : IsProduct L R f) (hdisj : Disjoint L.cols R.cols) (hnL : L.NotNull (L.cols ∩ nn))
    (hnR : R.NotNull (R.cols ∩ nn)) :
    ∃ g, f.makeFullOuter L.cols R.cols nn = .ok g ∧ Sound (L.fullOuter R cond) g := by
  have hstart : Parts (OnSide L R) (f.fullOuterKey nn).deps := fullOuterKey_deps f nn ▸ hf.parts
  have hkey : (f.fullOuterKey nn).KeyHolds (L.fullOuter R cond) := fullOuter_key hf hnL hnR
  obtain ⟨f₁, hnull₁, hparts₁, hhas₁, hkey₁⟩ := nullExtendRightRows_parts
    (oneSided_of_on hdisj.symm fun _ h => (h.imp And.left And.left).symm) hstart nn
  obtain ⟨f₂, hnull₂, hparts₂, hhas₂, hkey₂⟩ := nullExtendRightRows_parts
    (oneSided_of_on hdisj fun _ h => (h.imp And.left And.left).symm)
    (hparts₁.imp fun fd h => halfExtended_of_extended hdisj h) nn
  have hsound : Sound (L.fullOuter R cond) f₂ := by
    refine ⟨depsHold_iff_parts.mpr (hparts₂.imp fun fd h => fullOuter_parts hdisj hnL hnR h), ?_⟩
    unfold KeyHolds at hkey ⊢
    rw [hhas₂, hhas₁, hkey₂, hkey₁]
    exact hkey
  obtain ⟨f₃, hclosure, hsound₃⟩ := ensureKeyClosure_keeps hsound (L.cols ∪ R.cols)
  refine ⟨f₃, ?_, hsound₃⟩
  unfold makeFullOuter
  simp only [bind, Except.bind, hnull₁, hnull₂]
  exact hclosure

/-- The dependencies of a product are sound for the outer joins, after each side that a join extends
    by NULLs has been extended: its dependencies, its key and its constants. -/
theorem outerJoins_sound (L R : Relation ColumnID V) (left right filters : FuncDepSet) (cond : L.Idx → R.Idx → Prop)
    (notNullInputCols : ColSet) (hL : Sound L left) (hR : Sound R right) (hleft : left.colSet ⊆ L.cols)
    (hright : right.colSet ⊆ R.cols) (hdisj : Disjoint L.cols R.cols)
    (hfilters : Sound ((L.product R).filter fun p => cond p.1 p.2) filters)
    (hnL : L.NotNull (L.cols ∩ notNullInputCols)) (hnR : R.NotNull (R.cols ∩ notNullInputCols)) :
    ∃ f, left.makeProduct right = .ok f ∧
      (∃ g, f.makeLeftOuter left filters L.cols R.cols notNullInputCols = .ok g ∧ Sound (L.leftOuter R cond) g) ∧
      ∃ g, f.makeFullOuter L.cols R.cols notNullInputCols = .ok g ∧ Sound (L.fullOuter R cond) g := by
  obtain ⟨f, hok, hf⟩ := makeProduct_isProduct hL hR hleft hright hdisj
  exact ⟨f, hok, makeLeftOuter_sound hf hL hleft hdisj hfilters.deps hnL hnR, makeFullOuter_sound hf hdisj hnL hnR⟩

/-- Two rows of which one has a match, joined with one row of a NULL. -/
theorem outerJoins_sound_twoRows :
    let right : FuncDepSet := ⟨[FuncDep.constant {3}], .strictKey, ∅, nofun⟩
    let filters : FuncDepSet := ⟨[], .noKey, ∅, nofun⟩
    let R : Relation ColumnID Nat := nulls Nat {3}
    ∃ f, twoRowsDeps.makeProduct right = .ok f ∧ (∃ g, f.makeLeftOuter twoRowsDeps filters {1, 2} {3} {1} = .ok g ∧
        Sound (twoRows.leftOuter R fun i _ => i = true) g) ∧
      ∃ g, f.makeFullOuter {1, 2} {3} {1} = .ok g ∧ Sound (twoRows.fullOuter R fun i _ => i = true) g := by
  refine outerJoins_sound twoRows (nulls Nat {3}) twoRowsDeps _ _ (fun i _ => i = true) {1} twoRows_sound
    (sound_nulls Nat {3} _) ?_ ?_ ?_ ⟨nofun, trivial⟩ ?_ ?_
  · decide
  · decide
  · decide
  · intro i c hc
    rw [Finset.mem_singleton.mp (Finset.mem_inter.mp hc).2]
    exact Option.some_ne_none _
  · intro j c hc
    exact absurd hc (by revert c; decide)

end FuncDepSet

end Ratel.Opt
