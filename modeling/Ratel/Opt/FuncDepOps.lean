import Ratel.Opt.FuncDepSound

/- Soundness of the operations that callers of a dependency set use: keys, columns without NULLs,
   synthesized columns, projections and products. A projection works on the dependencies of the whole
   relation until all of them are about projected columns, and then on the projected relation. A
   product adds the inner dependencies one by one; meanwhile the dependencies hold in the product, and
   the key in the outer relation, seen as its product with one row of NULLs. -/
namespace Ratel.Opt

open Ratel.Lib List
open Finset hiding cons mem_cons mem_singleton

namespace FuncDepSet

variable {V : Type} {R : Relation ColumnID V} {f f' g : FuncDepSet} {fd : FuncDep} {cols s t : ColSet}

/-! Keys. -/

theorem addStrictKey_keeps (h : DepsHold R f.deps) (hsub : s ⊆ t) (hkey : R.StrictKey s) :
    ∃ f', f.addStrictKey s t = .ok f' ∧ Keeps R f f' := by
  have hred : R.StrictKey (reduceCols f.deps s) := hkey.of_determines (reduceCols_determines h s)
  obtain ⟨f₁, hadd, hkeeps⟩ := addDependency_keeps h (Fact.ofStrict (t := t) hred.determines)
  have hkeeps' := hkeeps.trans (reduceStrictKey_keeps hkeeps.deps)
  unfold addStrictKey
  rw [if_neg (not_not_intro hsub)]
  simp only [hadd, bind, Except.bind]
  split
  · exact ⟨_, rfl, hkeeps'.deps, fun _ => setKey_strict_holds hred⟩
  · exact ⟨_, rfl, hkeeps'⟩

theorem addLaxKey_keeps (h : DepsHold R f.deps) (hsub : s ⊆ t) (hne : s ≠ ∅) (hkey : R.LaxKey s) :
    ∃ f', f.addLaxKey s t = .ok f' ∧ Keeps R f f' := by
  obtain ⟨f₁, hadd, hkeeps⟩ := addDependency_keeps h (Fact.ofLax (t := t) hkey.laxDetermines hne)
  unfold addLaxKey
  rw [if_neg (not_not_intro hsub), if_neg hne]
  simp only [hadd, bind, Except.bind]
  split
  · exact ⟨_, rfl, hkeeps.deps, fun _ => setKey_lax_holds hkey⟩
  · exact ⟨_, rfl, hkeeps⟩

theorem key_subset_colSet (hk : f.hasKey ≠ .noKey) : f.key ⊆ f.colSet := by
  unfold colSet
  rw [if_neg hk]
  exact subset_union_right

/-- A key is reduced to columns that determine it; of a lax key, the columns that may be NULL stay. -/
theorem tryToReduceKey_keeps (h : DepsHold R f.deps) (hn : R.NotNull cols) (hkey : f.KeyHolds R) :
    ∃ f', f.tryToReduceKey cols = .ok f' ∧ Keeps R f f' := by
  unfold tryToReduceKey
  split
  · next hk =>
    simp only [KeyHolds, hk] at hkey
    split
    · exact ⟨f, rfl, Keeps.refl h⟩
    simp only
    split
    · next hnone =>
      have hnot : R.NotNull f.key := fun i => (hn i).mono (Finset.sdiff_eq_empty_iff_subset.mp hnone)
      exact addStrictKey_keeps h (key_subset_colSet (by rw [hk]; decide)) (hkey.strict hnot)
    refine ⟨_, rfl, h, fun _ => ?_⟩
    simp only [KeyHolds, hk]
    intro i j hnull hij
    have hkeyij := reduceCols_determines h f.key i j (hij.mono subset_union_left)
    refine hkey i j (fun c hc => ?_) hkeyij
    by_cases hcol : c ∈ cols
    · exact hn i c hcol
    · exact hnull c (mem_union_right _ (Finset.mem_sdiff.mpr ⟨hc, hcol⟩))
  · exact ⟨_, rfl, reduceStrictKey_keeps h⟩
  · exact ⟨f, rfl, Keeps.refl h⟩

/-! Lists of dependencies. -/

/-- A loop each of whose rounds keeps the set sound. -/
theorem foldlM_keeps {α : Type} {step : FuncDepSet → α → Except Err FuncDepSet} :
    ∀ (l : List α) (f : FuncDepSet), DepsHold R f.deps →
      (∀ f a, a ∈ l → DepsHold R f.deps → ∃ f', step f a = .ok f' ∧ Keeps R f f') →
      ∃ f', l.foldlM step f = .ok f' ∧ Keeps R f f'
  | [], f, h, _ => ⟨f, rfl, Keeps.refl h⟩
  | a :: l, f, h, hstep => by
    obtain ⟨f₁, hok, hkeeps⟩ := hstep f a mem_cons_self h
    obtain ⟨f₂, hok', hkeeps'⟩ := foldlM_keeps l f₁ hkeeps.deps fun f b hb => hstep f b (mem_cons_of_mem _ hb)
    refine ⟨f₂, ?_, hkeeps.trans hkeeps'⟩
    rw [foldlM_cons, hok]
    exact hok'

variable {deps : List FuncDep}

theorem addAll_keeps (h : DepsHold R f.deps) (hdeps : DepsHold R deps) :
    ∃ f', f.addAll deps = .ok f' ∧ Keeps R f f' :=
  foldlM_keeps deps f h fun _ fd hfd hf => addDependency_keeps hf (Fact.ofHolds (hdeps fd hfd))

theorem makeNotNull_keeps (h : Sound R f) (hn : R.NotNull cols) :
    ∃ f', f.makeNotNull cols = .ok f' ∧ Sound R f' := by
  have hstep : ∀ g fd, fd ∈ (f.deps.filter fun fd => !fd.strict && decide (fd.fromCols ⊆ cols)) → DepsHold R g.deps →
      ∃ g', addDependency g fd.fromCols fd.toCols true false = .ok g' ∧ Keeps R g g' := by
    intro g fd hfd hg
    obtain ⟨hmem, hcond⟩ := mem_filter.mp hfd
    have hsub : fd.fromCols ⊆ cols := of_decide_eq_true ((Bool.and_eq_true _ _).mp hcond).2
    exact addDependency_keeps hg (Fact.ofStrict ((h.deps fd hmem).laxDetermines.strict fun i => (hn i).mono hsub))
  obtain ⟨f₁, hok, hkeeps⟩ := foldlM_keeps _ f h.deps hstep
  obtain ⟨f₂, hok', hkeeps'⟩ := tryToReduceKey_keeps hkeeps.deps hn (hkeeps.key h.key)
  refine ⟨f₂, ?_, (hkeeps.trans hkeeps').sound h⟩
  unfold makeNotNull
  simp only [bind, Except.bind]
  rw [hok]
  exact hok'

theorem addSynthesizedCol_keeps {col : ColumnID} (h : DepsHold R f.deps) (hcol : col ∉ s)
    (hdet : R.Determines s {col}) : ∃ f', f.addSynthesizedCol s col = .ok f' ∧ Keeps R f f' := by
  obtain ⟨f₁, hok, hkeeps⟩ := addDependency_keeps h (Fact.ofStrict hdet)
  unfold addSynthesizedCol
  rw [if_neg hcol, hok]
  exact ⟨_, rfl, hkeeps.trans (reduceStrictKey_keeps hkeeps.deps)⟩

theorem ensureKeyClosure_keeps (h : Sound R f) (cols : ColSet) :
    ∃ f', f.ensureKeyClosure cols = .ok f' ∧ Sound R f' := by
  have hkey := h.key
  unfold KeyHolds at hkey
  unfold ensureKeyClosure
  split
  · exact ⟨f, rfl, h⟩
  next hne =>
  simp only
  split
  · exact ⟨f, rfl, h⟩
  have hfact : Fact R f.key (cols \ computeClosure f.deps f.key) (decide (f.hasKey = .strictKey)) false := by
    cases hk : f.hasKey with
    | noKey => exact absurd hk hne
    | strictKey =>
      rw [hk] at hkey
      exact Fact.ofStrict hkey.determines
    | laxKey =>
      rw [hk] at hkey
      exact Fact.ofLax hkey.laxDetermines (f.lax_key hk)
  exact exists_sound h (addDependency_keeps h.deps hfact)

/-! Projection. -/

theorem projectKey_sound (h : Sound R f) (cols : ColSet) :
    Sound R (f.projectKey cols) ∧ ((f.projectKey cols).hasKey ≠ .noKey → (f.projectKey cols).key ⊆ cols) := by
  have hreduced : ∀ typ, (f.setKey cols typ).reduceStrictKey.key ⊆ cols := fun _ => reduceStrictKey_key _
  unfold projectKey
  split
  · split
    · next hs =>
      have hset : Sound R (f.setKey cols .strictKey) := ⟨h.deps, setKey_strict_holds (colsAreStrictKey_sound h hs.2)⟩
      exact ⟨(reduceStrictKey_keeps hset.deps).sound hset, fun _ => hreduced _⟩
    split
    · next hl =>
      have hset : Sound R (f.setKey cols .laxKey) := ⟨h.deps, setKey_lax_holds (colsAreLaxKey_sound h hl)⟩
      exact ⟨(reduceStrictKey_keeps hset.deps).sound hset, fun _ => hreduced _⟩
    · exact ⟨⟨h.deps, by simp [KeyHolds, clearKey, setKey]⟩, by simp [clearKey, setKey]⟩
  · next hcond =>
    refine ⟨h, fun hk => ?_⟩
    by_contra hsub
    exact hcond ⟨hk, hsub⟩

/-- A relation with one row at most satisfies every dependency that is not an equivalence. -/
theorem holds_of_strictKey_empty (h : R.StrictKey ∅) (he : fd.equiv = true → R.Equated fd.fromCols fd.toCols) :
    fd.Holds R :=
  ⟨fun _ => h.determines.mono (empty_subset _), fun _ => (h.determines.mono (empty_subset _)).lax, he⟩

theorem strictKey_project (h : R.StrictKey s) (hs : s ⊆ cols) : (R.project cols).StrictKey s :=
  (R.reads_project cols).strictKey Function.injective_id h hs

theorem withinCols_holds {fd' : FuncDep} (hkey : R.StrictKey ∅) (hfd : fd.Holds R)
    (h : withinCols cols fd = some fd') : fd'.Holds (R.project cols) := by
  unfold withinCols at h
  split at h
  · next he =>
    simp only at h
    split at h
    · next hcond =>
      cases h
      refine holds_of_strictKey_empty (strictKey_project hkey (empty_subset _)) fun _ => ?_
      have hfrom : fd.fromCols ⊆ cols := by
        intro a ha
        rw [Finset.card_le_one.mp (fd.equiv_from he).le a ha _ (min'_mem _ _)]
        exact hcond.1
      have heq : R.Equated fd.fromCols (fd.toCols ∩ cols) :=
        fun i a ha b hb => hfd.equiv he i a ha b (Finset.mem_inter.mp hb).1
      exact (R.reads_project cols).equated heq hfrom inter_subset_right
    · cases h
  · cases h

theorem makeMax1Row_sound (h : DepsHold R f.deps) (hkey : R.StrictKey ∅) :
    Sound (R.project cols) (f.makeMax1Row cols) := by
  have hproj := strictKey_project hkey (empty_subset cols)
  have hwithin : DepsHold (R.project cols) (f.deps.filterMap (withinCols cols)) := by
    intro fd' hfd'
    obtain ⟨fd, hfd, hsome⟩ := mem_filterMap.mp hfd'
    exact withinCols_holds hkey (h fd hfd) hsome
  refine ⟨?_, setKey_strict_holds hproj⟩
  show DepsHold _ (if _ then _ else _)
  split
  · exact hwithin
  intro fd hfd
  have hmem : fd = FuncDep.constant cols ∨ fd ∈ f.deps.filterMap (withinCols cols) := by
    unfold constantFirst at hfd
    split at hfd
    · exact .inl (mem_singleton.mp hfd)
    next d rest heq =>
    rw [heq]
    simp only [cons_append, mem_cons, mem_append, not_mem_nil, or_false] at hfd ⊢
    tauto
  rcases hmem with heq | hmem
  · exact heq ▸ FuncDep.holds_constant hproj.determines
  · exact hwithin fd hmem

theorem projectClosures_hold : ∀ (rest done : List FuncDep), DepsHold R (done ++ rest) →
    DepsHold R (projectClosures cols done rest)
  | [], done, h => by simpa [projectClosures] using h
  | fd :: rest, done, h => by
    have hfd : fd.Holds R := h fd (by simp)
    have hnext : ∀ fd' : FuncDep, fd'.Holds R → DepsHold R ((done ++ [fd']) ++ rest) := by
      intro fd' hfd' d hd
      simp only [mem_append, mem_singleton] at hd
      rcases hd with (hd | rfl) | hd
      · exact h d (by simp [hd])
      · exact hfd'
      · exact h d (by simp [hd])
    rw [projectClosures]
    split
    · next hcond =>
      have hclosure := computeClosure_determines h fd.toCols
      refine projectClosures_hold rest _ (hnext _ ⟨fun hs => ?_, fun hl => ?_, fun he => ?_⟩)
      · exact ((hfd.strict hs).trans hclosure).subset sdiff_subset
      · exact ((hfd.lax hl).trans hclosure).subset sdiff_subset
      · exact absurd (hcond.2.symm.trans he) (by decide)
    · exact projectClosures_hold rest _ (hnext fd hfd)

/-- A map from a removed column to a projected one that is equal to it in every row. -/
def Replaces (R : Relation ColumnID V) (cols : ColSet) (equivMap : ColumnID → Option ColumnID) : Prop :=
  ∀ c id, equivMap c = some id → id ∈ cols ∧ ∀ i, R.row i c = R.row i id

theorem equivCol_replaces (h : DepsHold R deps) (fromCols cols : ColSet) :
    Replaces R cols (equivCol deps fromCols cols) := by
  intro c id hid
  unfold equivCol at hid
  split at hid
  · have hmem : id ∈ computeEquivClosure deps {c} ∩ cols := (mem_sort _).mp (mem_of_mem_head? hid)
    obtain ⟨hclosure, hcols⟩ := Finset.mem_inter.mp hmem
    obtain ⟨a, ha, heq⟩ := computeEquivClosure_mirrors h {c} id hclosure
    rw [Finset.mem_singleton.mp ha] at heq
    exact ⟨hcols, fun i => (heq i).symm⟩
  · cases hid

/-- The second pass leaves a dependency about projected columns, or the parts of one. -/
def Projected.Within (R : Relation ColumnID V) (cols : ColSet) : Projected → Prop
  | .keep fd => fd.Holds R ∧ fd.fromCols ⊆ cols ∧ fd.toCols ⊆ cols
  | .replace fd fromCols => Fact R fromCols fd.toCols fd.strict false ∧ fromCols ⊆ cols ∧ fd.toCols ⊆ cols
  | .drop => True

theorem projectDet_within {equivMap : ColumnID → Option ColumnID} (hmap : Replaces R cols equivMap) (hfd : fd.Holds R)
    (hto : fd.toCols ⊆ cols) : (projectDet equivMap cols fd).Within R cols := by
  unfold projectDet
  split
  · next hfrom => exact ⟨hfd, hfrom, hto⟩
  next hfrom =>
  split
  · trivial
  simp only
  split
  · trivial
  next afterCols hafter =>
  obtain ⟨hall, honly⟩ := mapM_some hafter
  have hin : ∀ id ∈ afterCols, id ∈ cols := by
    intro id hid
    obtain ⟨c, -, hc⟩ := honly id hid
    exact (hmap c id hc).1
  -- each column of the determinant is equal to one of the new determinant
  have hmirror : Mirrors R ((fd.fromCols ∪ afterCols.toFinset) \ (fd.fromCols \ cols)) fd.fromCols := by
    intro c hc
    by_cases hcol : c ∈ cols
    · exact ⟨c, by simp [hc, hcol], fun _ => rfl⟩
    · obtain ⟨id, hid, heq⟩ := hall c ((mem_sort _).mpr (Finset.mem_sdiff.mpr ⟨hc, hcol⟩))
      exact ⟨id, by simp [hid, hin id hid], (hmap c id heq).2⟩
  refine ⟨⟨fun hs i j hij => ?_, fun hl => ⟨fun i j hn hij => ?_, ?_⟩, by simp⟩, ?_, hto⟩
  · exact hfd.strict hs i j (hmirror.agreeOn hij)
  · exact hfd.lax hl i j (hmirror.nonNull hn) (hmirror.agreeOn hij)
  · obtain ⟨c, hc⟩ := Finset.nonempty_iff_ne_empty.mpr (fd.lax_from hl)
    obtain ⟨a, ha, -⟩ := hmirror c hc
    exact ne_empty_of_mem ha
  intro c hc
  simp only [mem_sdiff, mem_union, mem_toFinset, not_and, not_not] at hc
  rcases hc.1 with hfrom | hafter
  · exact hc.2 hfrom
  · exact hin c hafter

theorem projectDep_within {equivMap : ColumnID → Option ColumnID} (hmap : Replaces R cols equivMap) (hfd : fd.Holds R)
    (constCols : ColSet) : (projectDep equivMap constCols cols fd).Within R cols := by
  unfold projectDep
  split
  · simp only
    have hsub : (if (!fd.isConstant && !fd.equiv) = true then (fd.toCols ∩ cols) \ constCols else fd.toCols ∩ cols) ⊆
        fd.toCols ∩ cols := by
      split
      · exact sdiff_subset
      · exact Finset.Subset.refl _
    generalize (if (!fd.isConstant && !fd.equiv) = true then (fd.toCols ∩ cols) \ constCols else fd.toCols ∩ cols) = toCols
      at hsub ⊢
    have hwith : (fd.withTo toCols).Holds R := hfd.withTo (hsub.trans inter_subset_left)
    split
    · trivial
    next fd' hsome =>
    have hto : fd'.toCols ⊆ cols := by
      unfold FuncDep.removeToCols at hsome
      split at hsome
      · cases hsome
      · cases hsome
        exact Finset.sdiff_subset.trans (hsub.trans inter_subset_right)
    exact projectDet_within hmap (hwith.removeToCols hsome) hto
  · next hto => exact projectDet_within hmap hfd (not_not.mp hto)

theorem Fact.project {strict : Bool} (h : Fact R s t strict false) (hs : s ⊆ cols) (ht : t ⊆ cols) :
    Fact (R.project cols) s t strict false :=
  ⟨fun hstrict => (R.reads_project cols).determines (h.strict hstrict) hs ht,
    fun hlax => ⟨(R.reads_project cols).laxDetermines (h.lax hlax).1 hs ht, (h.lax hlax).2⟩, by simp⟩

theorem constantCols_determines (h : DepsHold R deps) : R.Determines ∅ (constantCols deps) := by
  refine foldlRecOn deps _ (Relation.determines_refl _) fun t ht fd hfd => ?_
  split
  · next hc => exact (h fd hfd).constant hc
  · exact ht

theorem projectCols_sound (h : Sound R f) (cols : ColSet) :
    ∃ f', f.projectCols cols = .ok f' ∧ Sound (R.project cols) f' := by
  obtain ⟨hsound, hkey⟩ := projectKey_sound h cols
  unfold projectCols
  simp only
  generalize f.projectKey cols = f₀ at hsound hkey ⊢
  split
  · next hmax =>
    obtain ⟨hstrict, hempty⟩ := of_decide_eq_true hmax
    have hrow := hsound.key
    simp only [KeyHolds, hstrict, hempty] at hrow
    exact ⟨_, rfl, makeMax1Row_sound hsound.deps hrow⟩
  have hclosures : DepsHold R (projectClosures cols [] f₀.deps) := projectClosures_hold f₀.deps [] hsound.deps
  have hmap := equivCol_replaces hclosures (unprojected cols f₀.deps ∩ replaceable cols f₀.deps) cols
  generalize equivCol (projectClosures cols [] f₀.deps) (unprojected cols f₀.deps ∩ replaceable cols f₀.deps) cols =
    equivMap at hmap ⊢
  have hconst := constantCols_determines hsound.deps
  generalize constantCols f₀.deps = constCols at hconst ⊢
  -- after the first pass, all still holds in the whole relation, and the key is projected
  obtain ⟨f₁, hf₁, hsound₁, hkey₁⟩ : ∃ f₁, (if constCols = ∅ then { f₀ with deps := projectClosures cols [] f₀.deps }
      else addConstants { f₀ with deps := projectClosures cols [] f₀.deps } constCols) = f₁ ∧ Sound R f₁ ∧
      (f₁.hasKey ≠ .noKey → f₁.key ⊆ cols) := by
    refine ⟨_, rfl, ?_⟩
    split
    · exact ⟨⟨hclosures, hsound.key⟩, hkey⟩
    refine ⟨(addConstants_keeps hclosures hconst).sound ⟨hclosures, hsound.key⟩, fun hk => ?_⟩
    rw [addConstants_hasKey] at hk
    exact (addConstants_key _ _).trans (hkey hk)
  rw [hf₁]
  have hwithin : ∀ p ∈ f₁.deps.map (projectDep equivMap constCols cols), p.Within R cols := by
    intro p hp
    obtain ⟨fd, hfd, rfl⟩ := mem_map.mp hp
    exact projectDep_within hmap (hsound₁.deps fd hfd) constCols
  generalize f₁.deps.map (projectDep equivMap constCols cols) = projected at hwithin ⊢
  -- the second pass leaves only projected columns, and the rest happens in the projected relation
  have hkept : DepsHold (R.project cols) (projected.filterMap Projected.kept) := by
    intro fd hfd
    obtain ⟨p, hp, hsome⟩ := mem_filterMap.mp hfd
    have hp := hwithin p hp
    cases p with
    | keep fd' =>
      cases hsome
      exact hp.1.reads (R.reads_project cols) hp.2.1 hp.2.2
    | replace fd' fromCols => cases hsome
    | drop => cases hsome
  have hsound₂ : Sound (R.project cols) { f₁ with deps := projected.filterMap Projected.kept } :=
    ⟨hkept, hsound₁.key.reads (R.reads_project cols) Function.injective_id hkey₁⟩
  have hstep : ∀ (g : FuncDepSet) (new : ColSet × ColSet × Bool), new ∈ projected.filterMap Projected.replaced →
      DepsHold (R.project cols) g.deps →
      ∃ g', g.addDependency new.1 new.2.1 new.2.2 false = .ok g' ∧ Keeps (R.project cols) g g' := by
    intro g new hnew hg
    obtain ⟨p, hp, hsome⟩ := mem_filterMap.mp hnew
    have hp := hwithin p hp
    cases p with
    | keep fd' => cases hsome
    | replace fd' fromCols =>
      cases hsome
      exact addDependency_keeps hg (hp.1.project hp.2.1 hp.2.2)
    | drop => cases hsome
  obtain ⟨f₃, hok, hkeeps⟩ := foldlM_keeps (projected.filterMap Projected.replaced)
    { f₁ with deps := projected.filterMap Projected.kept } hkept hstep
  obtain ⟨f₄, hok', hsound₄⟩ := ensureKeyClosure_keeps (hkeeps.sound hsound₂) cols
  refine ⟨f₄, ?_, hsound₄⟩
  rw [hok]
  exact hok'

/-! Products. -/

/-- A constant is added as such, without an error. -/
theorem addDependency_constant (f : FuncDepSet) (hc : fd.isConstant = true) :
    f.addDependency fd.fromCols fd.toCols fd.strict fd.equiv = .ok (f.addConstants fd.toCols) := by
  have hfrom := FuncDep.fromCols_of_isConstant hc
  have hstrict : fd.strict = true := by
    by_contra hs
    exact fd.lax_from (Bool.eq_false_of_not_eq_true hs) hfrom
  have hequiv : ¬ fd.equiv = true := fun he => (FuncDep.equiv_nonempty he).ne_empty hfrom
  unfold addDependency
  rw [hfrom, hstrict, if_neg hequiv]
  split
  · next hsub => rw [addConstants, if_pos (Finset.subset_empty.mp hsub)]
  simp only [if_true]
  rw [dif_pos (Finset.subset_empty.mp (reduceCols_subset f.deps ∅))]
  rfl

/-- One round of the loop of `MakeProduct`. -/
def productStep (f : FuncDepSet) (fd : FuncDep) : FuncDepSet :=
  if fd.isConstant then f.addConstants fd.toCols else { f with deps := f.deps ++ [fd] }

theorem productLoop_eq : ∀ (l : List FuncDep) (f : FuncDepSet), l.foldlM (fun (f : FuncDepSet) fd =>
      if fd.isConstant then f.addDependency fd.fromCols fd.toCols fd.strict fd.equiv
      else (.ok { f with deps := f.deps ++ [fd] } : Except Err FuncDepSet)) f = .ok (l.foldl productStep f)
  | [], _ => rfl
  | fd :: l, f => by
    have hstep : (if fd.isConstant then f.addDependency fd.fromCols fd.toCols fd.strict fd.equiv
        else (.ok { f with deps := f.deps ++ [fd] } : Except Err FuncDepSet)) = .ok (productStep f fd) := by
      unfold productStep
      split
      · next hc => exact addDependency_constant f hc
      · rfl
    rw [foldlM_cons, hstep, foldl_cons]
    exact productLoop_eq l (productStep f fd)

def productKey (f inner : FuncDepSet) : FuncDepSet :=
  if f.hasKey ≠ .noKey ∧ inner.hasKey ≠ .noKey then
    f.setKey (f.key ∪ inner.key) (if f.hasKey = .strictKey ∧ inner.hasKey = .strictKey then .strictKey else .laxKey)
  else f.clearKey

/-- The product is made without an error. -/
theorem makeProduct_eq (f inner : FuncDepSet) :
    f.makeProduct inner = .ok (productKey (inner.deps.foldl productStep f) inner) := by
  unfold makeProduct productKey
  rw [productLoop_eq]
  simp only [bind, Except.bind]
  split <;> rfl

theorem productKey_deps (f inner : FuncDepSet) : (productKey f inner).deps = f.deps := by
  unfold productKey
  split <;> rfl

theorem productStep_keeps (h : DepsHold R f.deps) (hfd : fd.Holds R) : Keeps R f (productStep f fd) := by
  unfold productStep
  split
  · next hc => exact addConstants_keeps h (hfd.constant hc)
  · exact keeps_of_deps (forall_mem_append.mpr ⟨h, forall_mem_singleton.mpr hfd⟩)

theorem productLoop_keeps : ∀ (l : List FuncDep) (f : FuncDepSet), DepsHold R f.deps → DepsHold R l →
    Keeps R f (l.foldl productStep f)
  | [], _, h, _ => Keeps.refl h
  | fd :: l, _, h, hl => by
    have hstep := productStep_keeps h (hl fd mem_cons_self)
    exact hstep.trans (productLoop_keeps l _ hstep.deps (forall_mem_cons.mp hl).2)

theorem productLoop_key : ∀ (l : List FuncDep) (f : FuncDepSet),
    (l.foldl productStep f).hasKey = f.hasKey ∧ (l.foldl productStep f).key ⊆ f.key
  | [], _ => ⟨rfl, Finset.Subset.refl _⟩
  | fd :: l, f => by
    have hstep : (productStep f fd).hasKey = f.hasKey ∧ (productStep f fd).key ⊆ f.key := by
      unfold productStep
      split
      · exact ⟨addConstants_hasKey f fd.toCols, addConstants_key f fd.toCols⟩
      · exact ⟨rfl, Finset.Subset.refl _⟩
    obtain ⟨hhas, hkey⟩ := productLoop_key l (productStep f fd)
    exact ⟨hhas.trans hstep.1, hkey.trans hstep.2⟩

theorem holds_nulls (V : Type) (cols : ColSet) (fd : FuncDep) : fd.Holds (Relation.nulls V cols) :=
  ⟨fun _ _ _ _ _ _ => rfl, fun _ _ _ _ _ _ _ => rfl, fun _ _ _ _ _ _ => rfl⟩

theorem sound_nulls (V : Type) (cols : ColSet) (f : FuncDepSet) : Sound (Relation.nulls V cols) f := by
  refine ⟨fun fd _ => holds_nulls V cols fd, ?_⟩
  unfold KeyHolds
  split
  · exact fun _ _ _ => rfl
  · exact fun _ _ _ _ => rfl
  · trivial

theorem subset_foldl_union : ∀ (l : List FuncDep) (cols : ColSet),
    (cols ⊆ l.foldl (fun cols fd => cols ∪ fd.fromCols ∪ fd.toCols) cols) ∧
      ∀ fd ∈ l, fd.fromCols ∪ fd.toCols ⊆ l.foldl (fun cols fd => cols ∪ fd.fromCols ∪ fd.toCols) cols
  | [], _ => ⟨Finset.Subset.refl _, nofun⟩
  | d :: l, cols => by
    obtain ⟨hacc, hmem⟩ := subset_foldl_union l (cols ∪ d.fromCols ∪ d.toCols)
    rw [union_assoc] at hacc hmem
    refine ⟨?_, fun fd hfd => ?_⟩
    · rw [foldl_cons, union_assoc]
      exact Finset.subset_union_left.trans hacc
    rw [foldl_cons, union_assoc]
    rcases mem_cons.mp hfd with heq | hfd
    · rw [heq]
      exact Finset.subset_union_right.trans hacc
    · exact hmem fd hfd

theorem dep_subset_colSet (hfd : fd ∈ f.deps) : fd.fromCols ⊆ f.colSet ∧ fd.toCols ⊆ f.colSet := by
  have hsub := (subset_foldl_union f.deps ∅).2 fd hfd
  have hcol : fd.fromCols ∪ fd.toCols ⊆ f.colSet := by
    unfold colSet
    split
    · exact hsub
    · exact hsub.trans subset_union_left
  exact Finset.union_subset_iff.mp hcol

/-- The dependencies hold in any relation that reads their columns from the one they are about. -/
theorem Sound.deps_read {R' : Relation ColumnID V} {A : ColSet} {φ : R'.Idx → R.Idx} (h : Sound R f)
    (hr : Relation.Reads R' R A φ) (hA : f.colSet ⊆ A) : DepsHold R' f.deps :=
  fun fd hfd => (h.deps fd hfd).reads hr ((dep_subset_colSet hfd).1.trans hA) ((dep_subset_colSet hfd).2.trans hA)

variable {L : Relation ColumnID V} {inner : FuncDepSet}

theorem makeProduct_sound (hf : Sound L f) (hi : Sound R inner) (hfc : f.colSet ⊆ L.cols) (hic : inner.colSet ⊆ R.cols)
    (hdisj : Disjoint L.cols R.cols) : ∃ f', f.makeProduct inner = .ok f' ∧ Sound (L.product R) f' := by
  have hleft : DepsHold (L.product R) f.deps := hf.deps_read (L.reads_product_left R) hfc
  have hright : DepsHold (L.product R) inner.deps := hi.deps_read (L.reads_product_right R hdisj) hic
  -- the key is followed through the loop in the product with NULLs
  have hnull : Sound (L.product (Relation.nulls V R.cols)) f := by
    refine ⟨hf.deps_read (L.reads_product_left _) hfc, ?_⟩
    refine hf.key.reads (L.reads_product_left _) (fun p q h => Prod.ext h rfl) fun hk => ?_
    exact (key_subset_colSet hk).trans hfc
  have hnull' : DepsHold (L.product (Relation.nulls V R.cols)) inner.deps :=
    (sound_nulls V R.cols inner).deps_read (L.reads_product_right _ hdisj) hic
  have hkeeps := productLoop_keeps inner.deps f hleft hright
  have hkey := (productLoop_keeps inner.deps f hnull.deps hnull').key hnull.key
  obtain ⟨hhas, hsub⟩ := productLoop_key inner.deps f
  refine ⟨_, makeProduct_eq f inner, (productKey_deps _ _).symm ▸ hkeeps.deps, ?_⟩
  generalize inner.deps.foldl productStep f = f₁ at hkey hhas hsub ⊢
  unfold productKey
  split
  · next hboth =>
    have hkL : f₁.key ⊆ L.cols := hsub.trans ((key_subset_colSet (hhas ▸ hboth.1)).trans hfc)
    have hkR : Disjoint L.cols inner.key := hdisj.mono_right ((key_subset_colSet hboth.2).trans hic)
    have hkey₁ : f₁.KeyHolds L := hkey.reads (L.reads_nulls R.cols) (fun i j h => (Prod.mk.inj h).1) fun _ => hkL
    split
    · next hs =>
      have hstrict := hi.key
      simp only [KeyHolds, hs.1] at hkey₁
      simp only [KeyHolds, hs.2] at hstrict
      exact setKey_strict_holds (Relation.product_strictKey hkey₁ hstrict hkL hkR)
    · exact setKey_lax_holds (Relation.product_laxKey (hkey₁.lax hboth.1) (hi.key.lax hboth.2) hkL hkR)
  · simp [KeyHolds, clearKey, setKey]

/-- A sound set stays sound: after a fact is added that holds in the relation, for its projections and
    for its product with another relation. What it answers about keys and closures is true. -/
theorem operations_sound (R : Relation ColumnID V) (f : FuncDepSet) (h : Sound R f) :
    (∀ keyCols allCols, keyCols ⊆ allCols → R.StrictKey keyCols →
      ∃ f', f.addStrictKey keyCols allCols = .ok f' ∧ Sound R f') ∧
    (∀ keyCols allCols, keyCols ⊆ allCols → keyCols ≠ ∅ → R.LaxKey keyCols →
      ∃ f', f.addLaxKey keyCols allCols = .ok f' ∧ Sound R f') ∧
    (∀ cols, R.Determines ∅ cols → Sound R (f.addConstants cols)) ∧
    (∀ a b, (∀ i, R.row i a = R.row i b) → Sound R (f.addEquivalencyOf a b)) ∧
    (∀ fromCols col, col ∉ fromCols → R.Determines fromCols {col} →
      ∃ f', f.addSynthesizedCol fromCols col = .ok f' ∧ Sound R f') ∧
    (∀ fdset : FuncDepSet, DepsHold R fdset.deps → ∃ f', f.addFrom fdset = .ok f' ∧ Sound R f') ∧
    (∀ cols, R.NotNull cols → ∃ f', f.makeNotNull cols = .ok f' ∧ Sound R f') ∧
    (∀ cols, ∃ f', f.projectCols cols = .ok f' ∧ Sound (R.project cols) f') ∧
    (∀ (S : Relation ColumnID V) (inner : FuncDepSet), Sound S inner → f.colSet ⊆ R.cols → inner.colSet ⊆ S.cols →
      Disjoint R.cols S.cols → ∃ f', f.makeProduct inner = .ok f' ∧ Sound (R.product S) f') ∧
    (∀ cols, f.colsAreStrictKey cols = true → R.StrictKey cols) ∧
    (∀ cols, f.colsAreLaxKey cols = true → R.LaxKey cols) ∧
    (∀ cols inCols, f.inClosureOf cols inCols = true → R.Determines inCols cols) := by
  refine ⟨?_, ?_, ?_, ?_, ?_, ?_, ?_, ?_, ?_, ?_, ?_, ?_⟩
  · exact fun keyCols allCols hsub hkey => exists_sound h (addStrictKey_keeps h.deps hsub hkey)
  · exact fun keyCols allCols hsub hne hkey => exists_sound h (addLaxKey_keeps h.deps hsub hne hkey)
  · exact fun cols hcols => (addConstants_keeps h.deps hcols).sound h
  · intro a b hab
    unfold addEquivalencyOf
    split
    · exact h
    refine (addEquivalency_keeps h.deps fun i c hc d hd => ?_).sound h
    have hcol : ∀ c ∈ ({a, b} : ColSet), R.row i c = R.row i b := by
      intro c hc
      rcases Finset.mem_insert.mp hc with heq | heq
      · exact heq ▸ hab i
      · rw [Finset.mem_singleton.mp heq]
    exact (hcol c hc).trans (hcol d hd).symm
  · exact fun fromCols col hcol hdet => exists_sound h (addSynthesizedCol_keeps h.deps hcol hdet)
  · exact fun fdset hdeps => exists_sound h (addAll_keeps h.deps hdeps)
  · exact fun cols hcols => makeNotNull_keeps h hcols
  · exact projectCols_sound h
  · exact fun S inner hi hfc hic hdisj => makeProduct_sound h hi hfc hic hdisj
  · exact fun cols hk => colsAreStrictKey_sound h hk
  · exact fun cols hk => colsAreLaxKey_sound h hk
  · exact fun cols inCols hin => inClosureOf_strict h.deps hin

def twoRows : Relation ColumnID Nat where
  cols := {1, 2}
  Idx := Bool
  row i c := if c = 1 then some i.toNat else none

/-- Key (1) with (1) --> (2). -/
def twoRowsDeps : FuncDepSet := ⟨[⟨{1}, {2}, true, false, nofun, nofun⟩], .strictKey, {1}, nofun⟩

theorem twoRows_sound : Sound twoRows twoRowsDeps := by
  constructor
  · intro fd hfd
    rw [mem_singleton.mp hfd]
    refine ⟨fun _ i j _ c hc => ?_, nofun, nofun⟩
    rw [Finset.mem_singleton.mp hc]
    rfl
  · intro i j hij
    have hval := hij 1 (Finset.mem_singleton_self 1)
    revert hval
    cases i <;> cases j <;> simp [twoRows]

theorem operations_sound_twoRows :
    Sound twoRows twoRowsDeps ∧ (∃ f', twoRowsDeps.projectCols {2} = .ok f' ∧ Sound (twoRows.project {2}) f') ∧
      Sound twoRows (twoRowsDeps.addConstants {2}) := by
  obtain ⟨-, -, hconst, -, -, -, -, hproject, -⟩ := operations_sound twoRows twoRowsDeps twoRows_sound
  refine ⟨twoRows_sound, hproject {2}, hconst {2} fun i j _ c hc => ?_⟩
  rw [Finset.mem_singleton.mp hc]
  rfl

end FuncDepSet

end Ratel.Opt
