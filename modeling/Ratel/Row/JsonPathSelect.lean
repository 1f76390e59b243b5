import Ratel.Row.JsonPathMatcher

/- What the selector selects. Fed the entries of a document, it passes on the entries
   of one subtree (or nothing), with their paths below that subtree's root
   (`run_newSelector`): for a path of fixed segments the subtree at them, for any other
   the subtree found by resolving one step after another at the containers.

   The second is an induction over the document. While the stream is below a container
   whose next step is resolved to `seg`, entries below other children leave the
   selector as it is (`select_foreign`): their segment is not `seg`, and no shortcut
   takes them, as a step matches only the child that it resolves to. All this holds with
   and without the shortcut (`runBy_stepwise`). -/
namespace Ratel.Row

open Ratel.Lib Ratel.Lib.Assoc Ratel.Encoding Ratel.Keys Ratel.Rowenc List Selector

/-- Take steps one after another. -/
def walk (next : JSON → PathStep → Option JSON) : JSON → List PathStep → Option JSON
  | j, [] => some j
  | j, step :: steps => (next j step).bind (walk next · steps)

/-- The segment the selector takes a step to, on a fixed path and on any other. -/
def stepSegment (fixed : Bool) (j : JSON) (step : PathStep) : Option Segment :=
  if fixed then step.staticSegment else resolveSubordinateJSONPathStep (nodeKind j) j.len step

def stepChild (fixed : Bool) (j : JSON) (step : PathStep) : Option JSON :=
  (stepSegment fixed j step).bind (find? · j.children)

/-- The subtree the selector's segments lead to. -/
def follow (fixed : Bool) (j : JSON) (steps : List PathStep) : Option JSON := walk (stepChild fixed) j steps

/-- The segments of a path whose steps all fix theirs. -/
def staticPath (steps : List PathStep) : Option Path := steps.mapM PathStep.staticSegment

def selected (steps : List PathStep) (j : JSON) : Option JSON := follow (staticPath steps).isSome j steps

theorem staticPath_cons {step : PathStep} {steps : List PathStep} {target : Path} :
    staticPath (step :: steps) = some target ↔
      ∃ seg rest, step.staticSegment = some seg ∧ staticPath steps = some rest ∧ seg :: rest = target := by
  simp [staticPath, Option.bind_eq_some_iff]

theorem descend_eq_follow : ∀ (steps : List PathStep) {target : Path}, staticPath steps = some target → ∀ j : JSON,
    j.descend target = follow true j steps
  | [], target, h, j => by
    cases h
    rfl
  | step :: steps, target, h, j => by
    obtain ⟨seg, rest, hseg, hrest, rfl⟩ := staticPath_cons.mp h
    rw [JSON.descend_cons, follow, walk, stepChild, stepSegment, if_pos rfl, hseg, Option.bind_some]
    cases find? seg j.children with
    | none => rfl
    | some c => exact descend_eq_follow steps hrest c

/-! Runs of the selector. -/

namespace Selector

/-- Feed entries to a selector; the selected ones come with their path in the subtree. -/
def runBy (direct : Bool) : Selector → List Observation → Selector × List Observation
  | s, [] => (s, [])
  | s, o :: os => ((runBy direct (s.selectBy direct o).1 os).1,
      ((s.selectBy direct o).2.toList.map fun path => { o with path := path }) ++
        (runBy direct (s.selectBy direct o).1 os).2)

def run (s : Selector) (os : List Observation) : Selector × List Observation := s.runBy true os

theorem run_cons (s : Selector) (o : Observation) (os : List Observation) :
    s.run (o :: os) = (((s.select o).1.run os).1,
      ((s.select o).2.toList.map fun path => { o with path := path }) ++ ((s.select o).1.run os).2) := rfl

variable {direct : Bool}

theorem runBy_append (s : Selector) (a b : List Observation) :
    s.runBy direct (a ++ b) = (((s.runBy direct a).1.runBy direct b).1,
      (s.runBy direct a).2 ++ ((s.runBy direct a).1.runBy direct b).2) := by
  induction a generalizing s with
  | nil => rfl
  | cons o a ih =>
    rw [cons_append, runBy, runBy]
    simp only [ih, append_assoc]

variable {s : Selector}

/-- Entries that do not change the selector. -/
theorem runBy_steady {f : Observation → Option Path} {os : List Observation}
    (h : ∀ o ∈ os, s.selectBy direct o = (s, f o)) :
    s.runBy direct os = (s, os.filterMap fun o => (f o).map fun path => { o with path := path }) := by
  induction os with
  | nil => rfl
  | cons o os ih =>
    rw [runBy, h o mem_cons_self, ih (forall_mem_cons.mp h).2]
    cases hf : f o <;> simp [hf]

theorem runBy_idle {os : List Observation} (h : ∀ o ∈ os, s.selectBy direct o = (s, none)) :
    s.runBy direct os = (s, []) := by
  simpa using runBy_steady h

theorem runBy_missing (h : s.missing = true) (os : List Observation) : s.runBy direct os = (s, []) :=
  runBy_idle fun _ _ => if_pos h

end Selector

theorem observations_eq (path : Path) (j : JSON) :
    observations path j = ⟨path, nodeKind j, j.len, nodeScalar j⟩ ::
      j.children.flatMap fun sc => observations (path ++ [sc.1]) sc.2 := by
  rw [observations, JSON.nodes_eq, map_cons, map_flatMap]
  rfl

variable {j : JSON} {target : Path} {n : Nat}

/-- An entry of a subtree is at a path below it. -/
theorem exists_of_mem_observations {path : Path} {o : Observation} (h : o ∈ observations path j) :
    ∃ r, o.path = path ++ r := by
  obtain ⟨pc, hpc, rfl⟩ := mem_map.mp h
  obtain ⟨r, hr⟩ := JSON.prefix_of_mem_nodes path j hpc
  exact ⟨r, hr.symm⟩

theorem observations_append (p q : Path) (j : JSON) :
    observations (p ++ q) j = (observations q j).map fun o => { o with path := p ++ o.path } := by
  rw [observations, JSON.nodes_append, observations, map_map, map_map]
  rfl

/-- The paths in a subtree, from its root. -/
theorem observations_relPath (target : Path) (j : JSON) :
    (observations (.header :: target) j).map (fun o => { o with path := relPath target.length (o.path.drop 1) }) =
      observations [.header] j := by
  have hpath := observations_append (.header :: target) [] j
  have hroot := observations_append [.header] [] j
  rw [append_nil] at hpath hroot
  rw [hpath, hroot]
  simp [relPath]

theorem normalizeObserved_cons (h : target ≠ []) (r : Path) :
    normalizeObserved (.header :: target ++ r) = target ++ r := by
  obtain ⟨s, t, rfl⟩ := exists_cons_of_ne_nil h
  rfl

/-! Paths of fixed segments. -/

/-- The nodes below a path are those of the subtree there. -/
theorem filter_nodes (hn : n ≤ 2 ^ 32) : ∀ (target path : Path) {j : JSON}, j.Bounded n →
    (j.nodes path).filter (fun pc => path ++ target <+: pc.1) =
      ((j.descend target).map fun c => c.nodes (path ++ target)).getD []
  | [], path, j, _ => by
    rw [JSON.descend_nil, append_nil, Option.map_some, Option.getD_some, filter_eq_self]
    intro pc hpc
    simpa using JSON.prefix_of_mem_nodes path j hpc
  | s :: target, path, j, hj => by
    have hroot : ¬ path ++ s :: target <+: path := by
      intro hpre
      have := hpre.length_le
      simp at this
    rw [JSON.nodes_eq, filter_cons_of_neg (by simpa using hroot), filter_flatMap, JSON.descend_cons]
    refine (flatMap_congr fun sc hsc => ?_).trans (((hj.children_ascending hn).flatMap_select
      (fun c => ((c.descend target).map fun c => c.nodes (path ++ s :: target)).getD []) s).trans ?_)
    · by_cases hs : sc.1 = s
      · rw [← hs]
        simpa using filter_nodes hn target (path ++ [sc.1]) (hj.child hsc)
      rw [if_neg hs, filter_eq_nil_iff]
      intro pc hpc hpre
      obtain ⟨r, hr⟩ := JSON.prefix_of_mem_nodes _ _ hpc
      simp only [decide_eq_true_eq] at hpre
      rw [← hr, append_assoc, prefix_append_right_inj] at hpre
      exact hs (cons_prefix_cons.mp hpre).1.symm
    · cases find? s j.children <;> rfl

theorem prefix_normalizeObserved (hne : target ≠ []) (hhead : Segment.header ∉ target) (r : Path) :
    target <+: normalizeObserved (.header :: r) ↔ .header :: target <+: .header :: r := by
  rw [cons_prefix_cons, and_iff_right rfl]
  cases r with
  | nil =>
    obtain ⟨s, t, rfl⟩ := exists_cons_of_ne_nil hne
    simp only [normalizeObserved, cons_prefix_cons, prefix_nil, reduceCtorEq, iff_false]
    rintro ⟨rfl, -⟩
    exact hhead mem_cons_self
  | cons s r => rfl

/-- A selector with a fixed target selects the subtree there. -/
theorem run_static (hn : n ≤ 2 ^ 32) (hj : j.Bounded n) {s : Selector} (hmissing : s.missing = false)
    (hquery : s.queryPath ≠ []) (hne : target ≠ []) (hhead : Segment.header ∉ target)
    (hstatic : s.staticTarget = some target) :
    s.run (observations [.header] j) = (s, ((j.descend target).map fun c => observations [.header] c).getD []) := by
  have hselect : ∀ o : Observation, s.selectBy true o = (s,
      if target <+: normalizeObserved o.path then some (relPath target.length (normalizeObserved o.path)) else none) := by
    simp [selectBy, hmissing, hquery, hstatic]
  have hrun : ∀ os : List Observation, s.run os = (s, (os.filter fun o => target <+: normalizeObserved o.path).map
      fun o => { o with path := relPath target.length (normalizeObserved o.path) }) := by
    intro os
    rw [Selector.run, runBy_steady fun o _ => hselect o, ← filterMap_eq_map, filterMap_filter]
    refine congrArg (Prod.mk s) (filterMap_congr fun o _ => ?_)
    by_cases hpre : target <+: normalizeObserved o.path <;> simp [hpre]
  have hfilter : (observations [.header] j).filter (fun o => target <+: normalizeObserved o.path) =
      ((j.descend target).map fun c => observations (.header :: target) c).getD [] := by
    have hnodes := filter_nodes hn target [.header] hj
    rw [observations, filter_map]
    have hcongr : ∀ pc ∈ j.nodes [.header],
        decide (target <+: normalizeObserved pc.1) = decide ([.header] ++ target <+: pc.1) := by
      intro pc hpc
      obtain ⟨r, hr⟩ := JSON.prefix_of_mem_nodes _ _ hpc
      rw [← hr]
      exact decide_eq_decide.mpr (prefix_normalizeObserved hne hhead r)
    rw [show (fun o : Observation => decide (target <+: normalizeObserved o.path)) ∘
        (fun pc : Path × JSON => (⟨pc.1, nodeKind pc.2, pc.2.len, nodeScalar pc.2⟩ : Observation)) =
        fun pc => decide (target <+: normalizeObserved pc.1) from rfl, filter_congr hcongr, hnodes]
    cases j.descend target <;> rfl
  rw [hrun, hfilter]
  cases j.descend target with
  | none => rfl
  | some c =>
    rw [Option.map_some, Option.getD_some, Option.map_some, ← observations_relPath target c]
    refine congrArg (Prod.mk s) (map_congr_left fun o ho => ?_)
    obtain ⟨r, hr⟩ := exists_of_mem_observations ho
    rw [hr, normalizeObserved_cons hne]
    rfl

/-! Steps at a container. -/

/-- A step as it is decoded: a key-or-index step's index is its value's number, or 0. -/
def PathStep.Decoded (step : PathStep) : Prop :=
  step.kind = .keyOrIndex → step.index = ((Strconv.atoi step.value).toOption).getD 0

theorem decoded_step {enc : Bytes} {step : PathStep} (h : decodeSubordinateJSONQueryPathStep enc = .ok step) :
    step.Decoded := by
  unfold decodeSubordinateJSONQueryPathStep at h
  split at h
  · obtain ⟨value, -, hstep⟩ := exists_of_bind_ok h
    cases hstep
    exact fun hk => by cases hk
  split at h
  · obtain ⟨idx, -, hstep⟩ := exists_of_bind_ok h
    cases hstep
    exact fun hk => by cases hk
  split at h
  · obtain ⟨value, -, hstep⟩ := exists_of_bind_ok h
    intro _
    cases ha : Strconv.atoi value with
    | ok _ | error _ =>
      simp only [ha] at hstep
      cases hstep
      rw [ha]
      rfl
  · cases h

/-- A step matches no other child of a container than the one it resolves to. -/
theorem eq_of_matchObserved {step : PathStep} (hstep : step.Decoded) {seg : Segment}
    (hres : resolveSubordinateJSONPathStep (nodeKind j) j.len step = some seg) {sc : Segment × JSON}
    (hsc : sc ∈ j.children) (hm : matchObservedSubordinateJSONStep step sc.1 = true) : sc.1 = seg := by
  cases j with
  | scalar s => simp [JSON.children] at hsc
  | array xs =>
    obtain ⟨xi, -, rfl⟩ := mem_map.mp hsc
    simp only [nodeKind, resolveSubordinateJSONPathStep] at hres
    rw [matchObservedSubordinateJSONStep] at hm
    have hidx : 0 ≤ step.index → step.kind ≠ .key → seg = uint32Index step.index := by
      intro hpos hkind
      simp only [if_neg hkind, if_neg (not_lt.mpr hpos)] at hres
      split at hres
      · cases hres
      · exact (Option.some.inj hres).symm
    split at hm
    · simp at hm
    · rename_i hkind
      simp only [decide_eq_true_eq] at hm
      rw [hm.2, hidx hm.1 (by rw [hkind]; decide)]
    rename_i hkind
    have hval := hstep hkind
    cases ha : Strconv.atoi step.value with
    | error err =>
      rw [ha] at hm
      cases hm
    | ok idx =>
      rw [ha] at hm hval
      simp only [decide_eq_true_eq] at hm
      have hval' : step.index = idx := hval
      rw [hm.2, hidx (by rw [hval']; exact hm.1) (by rw [hkind]; decide), hval']
  | object kvs =>
    obtain ⟨kv, -, rfl⟩ := mem_map.mp hsc
    simp only [nodeKind, resolveSubordinateJSONPathStep] at hres
    rw [matchObservedSubordinateJSONStep] at hm
    split at hres
    · cases hres
    cases hres
    split at hm
    · simpa using hm
    · simp [uint32Index] at hm
    · simpa using hm

/-! Resolving step by step. -/

/-- The selector that has resolved `q`'s first steps to `target`. -/
def resolving (q : List PathStep) (target : Path) : Selector :=
  { queryPath := q, targetPrefix := target, resolvedSteps := target.length }

section Resolving
variable {q : List PathStep}

variable {target : Path} {step : PathStep} {direct : Bool}

/-- The shortcut leaves the selector as it is at the target and changes nothing where
    a segment does not match. -/
theorem shortcut_short {path : Path} (h : path.length ≤ target.length) (hlt : path.length < q.length) :
    (resolving q target).shortcut direct path = (resolving q target, none) := by
  cases direct with
  | false => rfl
  | true =>
    rw [shortcut, if_pos rfl, tryDirectMatch]
    split
    · rfl
    split
    · rfl
    · rw [if_neg (by show ¬ q.length ≤ path.length; omega), if_neg (by show ¬ target.length < path.length; omega)]

theorem shortcut_differs (path path' : Path) {s : Segment}
    (hstep : q[path.length]? = some step) (hm : matchObservedSubordinateJSONStep step s = false) :
    (resolving q target).shortcut direct (path ++ s :: path') = (resolving q target, none) := by
  have hall : (q.zip (path ++ s :: path')).all (fun sp => matchObservedSubordinateJSONStep sp.1 sp.2) = false := by
    rw [all_eq_false]
    refine ⟨(step, s), ?_, by simp [hm]⟩
    refine mem_of_getElem? (i := path.length) ?_
    rw [getElem?_zip_eq_some]
    exact ⟨hstep, by simp⟩
  cases direct with
  | false => rfl
  | true =>
    rw [shortcut, if_pos rfl, tryDirectMatch]
    split
    · rfl
    · rw [if_pos (by simpa [resolving] using hall)]

theorem selectBy_resolving (hq : q ≠ []) (o : Observation) :
    (resolving q target).selectBy direct o =
      match (resolving q target).shortcut direct (normalizeObserved o.path) with
      | (s, some rel) => (s, some rel)
      | (s, none) => s.observeResolving (normalizeObserved o.path) o.kind o.childCount := by
  rw [selectBy, if_neg (show (resolving q target).queryPath ≠ [] from hq)]
  rfl

/-- The root resolves the first step. -/
theorem selectBy_root (o : Observation) (ho : o.path = [.header]) :
    (resolving (step :: q) []).selectBy direct o =
      match resolveSubordinateJSONPathStep o.kind o.childCount step with
      | none => ({ resolving (step :: q) [] with missing := true }, none)
      | some seg => (resolving (step :: q) [seg], none) := by
  have hm : matchObservedSubordinateJSONStep step .header = false := by
    unfold matchObservedSubordinateJSONStep
    split <;> simp [uint32Index]
  have hdirect : (resolving (step :: q) []).shortcut direct [.header] = (resolving (step :: q) [], none) :=
    shortcut_differs [] [] rfl hm
  rw [selectBy_resolving (by simp), ho, normalizeObserved, hdirect]
  · simp only [observeResolving, if_true, resolving, length_nil, resolveNext, getElem?_cons_zero, Option.bind_some]
    cases resolveSubordinateJSONPathStep o.kind o.childCount step <;> rfl
  · simp

/-- The container at the target resolves the next step. -/
theorem selectBy_target (hne : target ≠ []) (hhead : Segment.header ∉ target)
    (hstep : q[target.length]? = some step) (o : Observation) (ho : o.path = .header :: target) :
    (resolving q target).selectBy direct o =
      match resolveSubordinateJSONPathStep o.kind o.childCount step with
      | none => ({ resolving q target with missing := true }, none)
      | some seg => (resolving q (target ++ [seg]), none) := by
  have hlt : target.length < q.length := (List.getElem?_eq_some_iff.mp hstep).1
  have hnorm : normalizeObserved o.path = target := by
    have := normalizeObserved_cons hne []
    rw [ho]
    simpa using this
  have hroot : target ≠ [.header] := by
    rintro rfl
    exact hhead mem_cons_self
  rw [selectBy_resolving (ne_nil_of_length_pos (by omega)), hnorm, shortcut_short (le_refl _) hlt]
  simp only [observeResolving, if_neg hroot]
  rw [if_neg (by simpa [resolving] using hne), if_pos ⟨hlt, rfl⟩]
  simp only [resolving, resolveNext, hstep, Option.bind_some]
  cases resolveSubordinateJSONPathStep o.kind o.childCount step with
  | none => rfl
  | some seg =>
    simp only [Bool.false_eq_true, if_false, inTarget]
    rw [if_pos]
    · simp
    refine .inr fun hpre => ?_
    have := hpre.length_le
    simp at this

/-- Below a resolved path everything is selected. -/
theorem selectBy_inside (hne : target ≠ []) (hhead : Segment.header ∉ target)
    (hlen : target.length = q.length) (o : Observation) {r : Path} (ho : o.path = .header :: target ++ r) :
    (resolving q target).selectBy direct o = (resolving q target, some (relPath target.length (o.path.drop 1))) := by
  have hdrop : o.path.drop 1 = target ++ r := by rw [ho]; rfl
  have hroot : target ++ r ≠ [.header] := by
    intro h
    obtain ⟨s, t, rfl⟩ := exists_cons_of_ne_nil hne
    exact hhead (by rw [(List.cons.inj h).1]; exact mem_cons_self)
  rw [selectBy_resolving (ne_nil_of_length_pos (by rw [← hlen]; exact length_pos_of_ne_nil hne)), hdrop, ho,
    normalizeObserved_cons hne]
  have hcase : (resolving q target).shortcut direct (target ++ r) = (resolving q target, none) ∨
      (resolving q target).shortcut direct (target ++ r) =
        (resolving q target, some (relPath target.length (target ++ r))) := by
    cases direct with
    | false => exact .inl rfl
    | true =>
      rw [shortcut, if_pos rfl, tryDirectMatch]
      split
      · exact .inl rfl
      split
      · exact .inl rfl
      refine .inr ?_
      rw [if_pos (by show q.length ≤ _; rw [← hlen]; simp), hlen]
      rfl
  rcases hcase with hdirect | hdirect
  · rw [hdirect]
    simp only [observeResolving, if_neg hroot]
    rw [if_neg (by simpa [resolving] using hne), if_neg (by simp [resolving, hlen]), inTarget, if_neg]
    · rfl
    · simp [resolving, hlen]
  · rw [hdirect]

/-- Below another child of a container whose step is resolved nothing happens. -/
theorem selectBy_foreign {path r : Path} {s seg : Segment} (hs : s ≠ .header) (hne : s ≠ seg)
    (hstep : q[path.length]? = some step) (hm : matchObservedSubordinateJSONStep step s = false) (o : Observation)
    (ho : o.path = .header :: (path ++ s :: r)) :
    (resolving q (path ++ seg :: target)).selectBy direct o = (resolving q (path ++ seg :: target), none) := by
  have hlt : path.length < q.length := (List.getElem?_eq_some_iff.mp hstep).1
  have hnorm : normalizeObserved o.path = path ++ s :: r := by
    have hcons : path ++ s :: r ≠ [] := by simp
    rw [ho]
    simpa using normalizeObserved_cons hcons []
  have hroot : path ++ s :: r ≠ [.header] := by
    intro h
    cases path with
    | nil => exact hs (List.cons.inj h).1
    | cons a path => simpa using (List.cons.inj h).2
  have hdiff : ¬ path ++ seg :: target <+: path ++ s :: r := by
    rw [prefix_append_right_inj, cons_prefix_cons]
    exact fun h => hne h.1.symm
  rw [selectBy_resolving (ne_nil_of_length_pos (by omega)), hnorm, shortcut_differs path r hstep hm]
  simp only [observeResolving, if_neg hroot]
  rw [if_neg (by simp [resolving]), if_neg, inTarget, if_pos (.inr hdiff)]
  rintro ⟨-, heq⟩
  exact hdiff (by rw [heq]; exact prefix_refl _)

/-- The selector is done, or has resolved `target` and maybe more. -/
def Ahead (q : List PathStep) (target : Path) (s : Selector) : Prop :=
  s.missing = true ∨ ∃ t, s = resolving q (target ++ t)

theorem runBy_foreign {seg : Segment} (hstep : q[target.length]? = some step)
    {s : Selector} (hs : Ahead q (target ++ [seg]) s) {cs : List (Segment × JSON)}
    (hcs : ∀ sc ∈ cs, sc.1 ≠ .header ∧ sc.1 ≠ seg ∧ matchObservedSubordinateJSONStep step sc.1 = false) :
    s.runBy direct (cs.flatMap fun sc => observations (.header :: target ++ [sc.1]) sc.2) = (s, []) := by
  rcases hs with hs | ⟨t, rfl⟩
  · exact runBy_missing hs _
  refine runBy_idle fun o ho => ?_
  obtain ⟨sc, hsc, ho⟩ := mem_flatMap.mp ho
  obtain ⟨hhead, hne, hm⟩ := hcs sc hsc
  obtain ⟨r, hr⟩ := exists_of_mem_observations ho
  rw [append_assoc]
  refine selectBy_foreign hhead hne hstep hm o (r := r) ?_
  rw [hr]
  simp

/-- A container at the target and all below it, if the subtree of the resolved child
    goes as it should. -/
theorem runBy_container {n : Nat} (hn : n ≤ 2 ^ 32) {j : JSON} (hj : j.Bounded n)
    {rest : List PathStep} (hstep : q[target.length]? = some step) (hdec : step.Decoded)
    (hroot : (resolving q target).selectBy direct ⟨.header :: target, nodeKind j, j.len, nodeScalar j⟩ =
      match resolveSubordinateJSONPathStep (nodeKind j) j.len step with
      | none => ({ resolving q target with missing := true }, none)
      | some seg => (resolving q (target ++ [seg]), none))
    (hchild : ∀ seg c, (seg, c) ∈ j.children → ∃ s', (resolving q (target ++ [seg])).runBy direct
        (observations (.header :: (target ++ [seg])) c) =
          (s', ((follow false c rest).map (observations [.header])).getD []) ∧ Ahead q (target ++ [seg]) s') :
    ∃ s', (resolving q target).runBy direct (observations (.header :: target) j) =
      (s', ((follow false j (step :: rest)).map (observations [.header])).getD []) ∧ Ahead q target s' := by
  rw [observations_eq, runBy, hroot, follow, walk, stepChild, stepSegment, if_neg (by simp)]
  cases hres : resolveSubordinateJSONPathStep (nodeKind j) j.len step with
  | none =>
    rw [runBy_missing rfl]
    exact ⟨_, rfl, .inl rfl⟩
  | some seg =>
    simp only [Option.bind_some]
    have hother : ∀ sc ∈ j.children, sc.1 ≠ seg →
        sc.1 ≠ .header ∧ sc.1 ≠ seg ∧ matchObservedSubordinateJSONStep step sc.1 = false := by
      intro sc hsc hne
      refine ⟨JSON.children_ne_header hsc, hne, ?_⟩
      rw [Bool.eq_false_iff]
      exact fun hm => hne (eq_of_matchObserved hdec hres hsc hm)
    have hstart : Ahead q (target ++ [seg]) (resolving q (target ++ [seg])) := .inr ⟨[], by rw [append_nil]⟩
    have hback : ∀ {s : Selector}, Ahead q (target ++ [seg]) s → Ahead q target s := by
      rintro s (hs | ⟨t, rfl⟩)
      · exact .inl hs
      · exact .inr ⟨seg :: t, by rw [append_assoc]; rfl⟩
    cases hf : find? seg j.children with
    | none =>
      have hall : ∀ sc ∈ j.children, sc.1 ≠ seg :=
        fun sc hsc heq => (hj.children_ascending hn).find?_eq_none_iff.mp hf sc.2 (by rw [← heq]; exact hsc)
      rw [runBy_foreign hstep hstart fun sc hsc => hother sc hsc (hall sc hsc)]
      exact ⟨_, rfl, hback hstart⟩
    | some c =>
      obtain ⟨l₁, l₂, hl, h₁, h₂⟩ := (hj.children_ascending hn).exists_split hf
      have hmem : ∀ sc, sc ∈ l₁ ∨ sc = (seg, c) ∨ sc ∈ l₂ → sc ∈ j.children := by
        intro sc hsc
        rw [hl, mem_append, mem_cons]
        exact hsc
      obtain ⟨s', hrun, hahead⟩ := hchild seg c (hmem _ (.inr (.inl rfl)))
      rw [hl, flatMap_append, flatMap_cons, runBy_append,
        runBy_foreign hstep hstart fun sc hsc => hother sc (hmem sc (.inl hsc)) (h₁ sc hsc)]
      rw [runBy_append, cons_append, hrun]
      rw [runBy_foreign hstep hahead fun sc hsc => hother sc (hmem sc (.inr (.inr hsc))) (h₂ sc hsc)]
      exact ⟨s', by simp [follow], hback hahead⟩

/-- Below a resolved path the selector selects what the rest of the steps resolve to. -/
theorem runBy_subtree {n : Nat} (hn : n ≤ 2 ^ 32) (rest : List PathStep) : ∀ {target : Path} {j : JSON},
    j.Bounded n → (∀ step ∈ rest, step.Decoded) → target ≠ [] → Segment.header ∉ target →
    target.length ≤ q.length → q.drop target.length = rest →
    ∃ s', (resolving q target).runBy direct (observations (.header :: target) j) =
      (s', ((follow false j rest).map (observations [.header])).getD []) ∧ Ahead q target s' := by
  induction rest with
  | nil =>
    intro target j hj hdec hne hhead hle hdrop
    have hlen : target.length = q.length := by
      have := drop_eq_nil_iff.mp hdrop
      omega
    refine ⟨resolving q target, ?_, .inr ⟨[], by rw [append_nil]⟩⟩
    rw [runBy_steady (f := fun o => some (relPath target.length (o.path.drop 1)))]
    · simp only [Option.map_some, filterMap_eq_map', observations_relPath, follow, walk, Option.getD_some]
    intro o ho
    obtain ⟨r, hr⟩ := exists_of_mem_observations ho
    exact selectBy_inside hne hhead hlen o hr
  | cons step rest ih =>
    intro target j hj hdec hne hhead hle hdrop
    have hstep : q[target.length]? = some step := by
      rw [← head?_drop, hdrop]
      rfl
    have hlt : target.length < q.length := (List.getElem?_eq_some_iff.mp hstep).1
    refine runBy_container hn hj hstep (hdec step mem_cons_self) (selectBy_target hne hhead hstep _ rfl) ?_
    intro seg c hc
    refine ih (hj.child hc) (forall_mem_cons.mp hdec).2 (by simp) ?_ ?_ ?_
    · rw [mem_append, mem_singleton, not_or]
      exact ⟨hhead, Ne.symm (JSON.children_ne_header hc)⟩
    · rw [length_append]
      exact hlt
    · rw [length_append, ← drop_drop, hdrop]
      rfl

end Resolving

/-! The whole document. -/

theorem tryStatic_eq : ∀ {path : List Bytes} {steps : List PathStep},
    path.mapM decodeSubordinateJSONQueryPathStep = .ok steps →
    tryStaticSubordinateJSONPath path = .ok (staticPath steps)
  | [], steps, h => by
    cases h
    rfl
  | enc :: path, steps, h => by
    rw [mapM_cons] at h
    obtain ⟨step, hstep, h⟩ := exists_of_bind_ok h
    obtain ⟨rest, hrest, h⟩ := exists_of_bind_ok h
    cases h
    rw [tryStaticSubordinateJSONPath, hstep, bind_ok, staticPath, mapM_cons]
    cases hseg : step.staticSegment with
    | none => rfl
    | some seg =>
      simp only [tryStatic_eq hrest]
      rw [staticPath]
      cases rest.mapM PathStep.staticSegment <;> rfl

theorem newSelector_eq {path : List Bytes} {steps : List PathStep}
    (h : path.mapM decodeSubordinateJSONQueryPathStep = .ok steps) :
    newSelector path = { queryPath := steps, staticTarget := staticPath steps } := by
  rw [newSelector, h]
  simp only [tryStatic_eq h]

theorem decoded_steps : ∀ {path : List Bytes} {steps : List PathStep},
    path.mapM decodeSubordinateJSONQueryPathStep = .ok steps → ∀ step ∈ steps, step.Decoded
  | [], steps, h => by
    cases h
    simp
  | enc :: path, steps, h => by
    rw [mapM_cons] at h
    obtain ⟨step, hstep, h⟩ := exists_of_bind_ok h
    obtain ⟨rest, hrest, h⟩ := exists_of_bind_ok h
    cases h
    exact forall_mem_cons.mpr ⟨decoded_step hstep, decoded_steps hrest⟩

theorem staticPath_spec : ∀ {steps : List PathStep} {target : Path}, staticPath steps = some target →
    target.length = steps.length ∧ Segment.header ∉ target
  | [], target, h => by
    cases h
    simp
  | step :: steps, target, h => by
    obtain ⟨seg, rest, hseg, hrest, rfl⟩ := staticPath_cons.mp h
    obtain ⟨hlen, hhead⟩ := staticPath_spec hrest
    refine ⟨by rw [length_cons, hlen, length_cons], ?_⟩
    rw [mem_cons, not_or]
    refine ⟨?_, hhead⟩
    rintro rfl
    unfold PathStep.staticSegment at hseg
    split at hseg
    · cases hseg
    · split at hseg <;> cases hseg
    · split at hseg <;> cases hseg

/-- Without a fixed target the selector selects what the steps resolve to, by either route. -/
theorem runBy_stepwise (hn : n ≤ 2 ^ 32) (hj : j.Bounded n) (direct : Bool) {path : List Bytes}
    {steps : List PathStep} (h : path.mapM decodeSubordinateJSONQueryPathStep = .ok steps) :
    (({ newSelector path with staticTarget := none } : Selector).runBy direct (observations [.header] j)).2 =
      ((follow false j steps).map (observations [.header])).getD [] := by
  rw [newSelector_eq h]
  cases steps with
  | nil =>
    rw [runBy_steady fun o _ => rfl]
    exact filterMap_some
  | cons step rest =>
    have hdec := decoded_steps h
    obtain ⟨s', hrun, -⟩ : ∃ s', (resolving (step :: rest) []).runBy direct (observations [.header] j) =
        (s', ((follow false j (step :: rest)).map (observations [.header])).getD []) ∧ Ahead (step :: rest) [] s' :=
      runBy_container hn hj rfl (hdec step mem_cons_self) (selectBy_root _ rfl) fun seg c hc =>
        runBy_subtree hn rest (hj.child hc) (forall_mem_cons.mp hdec).2 (by simp)
          (by simpa using Ne.symm (JSON.children_ne_header hc)) (by simp) rfl
    have hinit : ({ queryPath := step :: rest, staticTarget := none } : Selector) = resolving (step :: rest) [] := rfl
    rw [hinit, hrun]

/-- Of a document's entries the selector selects those of one subtree, with their
    paths in it. -/
theorem run_newSelector (hn : n ≤ 2 ^ 32) (hj : j.Bounded n) {path : List Bytes}
    {steps : List PathStep} (h : path.mapM decodeSubordinateJSONQueryPathStep = .ok steps) :
    ((newSelector path).run (observations [.header] j)).2 =
      ((selected steps j).map (observations [.header])).getD [] := by
  rw [selected]
  cases hstatic : staticPath steps with
  | none =>
    have hnone : { newSelector path with staticTarget := none } = newSelector path := by
      rw [newSelector_eq h, hstatic]
    rw [Selector.run, ← hnone]
    exact runBy_stepwise hn hj true h
  | some target =>
    rw [newSelector_eq h, hstatic]
    cases steps with
    | nil =>
      cases hstatic
      rw [Selector.run, runBy_steady fun o _ => rfl]
      exact filterMap_some
    | cons step rest =>
      obtain ⟨hlen, hhead⟩ := staticPath_spec hstatic
      have hne : target ≠ [] := ne_nil_of_length_pos (by rw [hlen]; simp)
      rw [run_static hn hj rfl (by simp) hne hhead rfl, descend_eq_follow _ hstatic]
      rfl

end Ratel.Row
