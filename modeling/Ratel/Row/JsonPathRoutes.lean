import Ratel.Row.JsonPathSelect

/- The three routes of the selector compared: the fixed target, the direct match and the
   resolution at the containers.

   On a fixed path the target selects just the entries that the direct match does
   (`tryDirectMatch_static`), and next to the resolution the direct match changes nothing
   (`runBy_stepwise`). But the target and the resolution may lead to different subtrees
   (`differ_split`): the target keeps only the low 32 bits of an index, and to the
   resolution a key-or-index step that is no number is index 0 of an array. -/
namespace Ratel.Row

open Ratel.Lib Ratel.Lib.Assoc Ratel.Encoding Ratel.Keys Ratel.Rowenc List JSON

/-- What a subtree that only one of two walks leads to says of the two results. -/
def Differ (a b : Option JSON) : Option JSON → Prop
  | none => a = b
  | some c => a = some c ∧ b = none ∨ a = none ∧ b = some c

section Walks
variable {f g : JSON → PathStep → Option JSON} {j : JSON} {step : PathStep} {steps : List PathStep} {c : Option JSON}

/-- A step to the same child on both sides, or to none. -/
theorem differ_same (st : JSON → Option JSON) (hf : f j step = c) (hg : g j step = c)
    (hsome : ∀ d, c = some d → Differ (walk f d steps) (walk g d steps) (st d)) :
    Differ (walk f j (step :: steps)) (walk g j (step :: steps)) (c.bind st) := by
  rw [walk, walk, hf, hg]
  cases c with
  | none => rfl
  | some d => exact hsome d rfl

/-- A step that only the first takes. -/
theorem differ_left (hf : f j step = c) (hg : g j step = none) :
    Differ (walk f j (step :: steps)) (walk g j (step :: steps)) (c.bind (walk f · steps)) := by
  rw [walk, walk, hf, hg]
  cases c.bind (walk f · steps) with
  | none => rfl
  | some d => exact .inl ⟨rfl, rfl⟩

/-- A step that only the second takes. -/
theorem differ_right (hf : f j step = none) (hg : g j step = c) :
    Differ (walk f j (step :: steps)) (walk g j (step :: steps)) (c.bind (walk g · steps)) := by
  rw [walk, walk, hf, hg]
  cases c.bind (walk g · steps) with
  | none => rfl
  | some d => exact .inr ⟨rfl, rfl⟩

end Walks

/-! The steps of the selector. -/

section Steps
variable {n : Nat} {fixed : Bool} {step : PathStep} {steps : List PathStep} {xs : List JSON}

theorem staticSegment_isSome (h : (staticPath (step :: steps)).isSome = true) :
    step.staticSegment.isSome = true ∧ (staticPath steps).isSome = true := by
  obtain ⟨path, hpath⟩ := Option.isSome_iff_exists.mp h
  obtain ⟨seg, rest, hseg, hrest, -⟩ := staticPath_cons.mp hpath
  exact ⟨Option.isSome_of_eq_some hseg, Option.isSome_of_eq_some hrest⟩

theorem of_staticSegment (h : step.staticSegment.isSome = true) :
    (step.kind = .index → ¬ step.index < 0) ∧
      (step.kind = .keyOrIndex → ∃ err, Strconv.atoi step.value = .error err) := by
  unfold PathStep.staticSegment at h
  refine ⟨fun hkind hneg => ?_, fun hkind => ?_⟩
  · simp [hkind, hneg] at h
  rw [hkind] at h
  cases ha : Strconv.atoi step.value with
  | ok idx => simp [ha] at h
  | error err => exact ⟨err, rfl⟩

theorem stepChild_scalar (s : Scalar) : stepChild fixed (.scalar s) step = none := by
  rw [stepChild]
  cases stepSegment fixed (.scalar s) step <;> rfl

theorem stepChild_object (kvs : List (Bytes × JSON)) (hfixed : fixed = true → step.staticSegment.isSome = true) :
    stepChild fixed (.object kvs) step = if step.kind = .index then none else find? step.value kvs := by
  rw [stepChild]
  cases fixed with
  | true =>
    obtain ⟨hindex, hkey⟩ := of_staticSegment (hfixed rfl)
    rw [stepSegment, if_pos rfl, PathStep.staticSegment]
    cases hkind : step.kind with
    | key => simpa using find?_children_object kvs step.value
    | index =>
      simp only [if_neg (hindex hkind), if_true]
      exact find?_arrayIndex_object kvs _
    | keyOrIndex =>
      obtain ⟨err, ha⟩ := hkey hkind
      simp only [ha]
      exact find?_children_object kvs step.value
  | false =>
    rw [stepSegment, if_neg (by simp)]
    simp only [nodeKind, resolveSubordinateJSONPathStep]
    split
    · rfl
    · exact find?_children_object kvs step.value

/-- An index of a fixed path addresses the element of its low 32 bits. -/
theorem find?_uint32Index (hlen : xs.length ≤ 2 ^ 32) (idx : Int) :
    find? (uint32Index idx) (array xs).children = xs[idx.toNat % 2 ^ 32]? := by
  rw [uint32Index, find?_children_array hlen, UInt32.toNat_ofNat']

theorem stepChild_array_fixed (hlen : xs.length ≤ 2 ^ 32) (hstep : step.staticSegment.isSome = true) :
    stepChild true (.array xs) step = if step.kind = .index then xs[step.index.toNat % 2 ^ 32]? else none := by
  obtain ⟨hindex, hkey⟩ := of_staticSegment hstep
  rw [stepChild, stepSegment, if_pos rfl, PathStep.staticSegment]
  cases hkind : step.kind with
  | key => exact find?_objectKey_array xs step.value
  | index =>
    simp only [if_neg (hindex hkind), if_true]
    exact find?_uint32Index hlen step.index
  | keyOrIndex =>
    obtain ⟨err, ha⟩ := hkey hkind
    simp only [ha]
    exact find?_objectKey_array xs step.value

theorem stepChild_array_resolved (step : PathStep) (hlen : xs.length ≤ 2 ^ 32) :
    stepChild false (.array xs) step = if step.kind = .key then none else elemAt? xs step.index := by
  rw [stepChild, stepSegment, if_neg (by simp)]
  by_cases hkind : step.kind = .key
  · simp [nodeKind, resolveSubordinateJSONPathStep, hkind]
  have hresolve : resolveSubordinateJSONPathStep (nodeKind (.array xs)) (array xs).len step =
      if fromEnd xs.length step.index < 0 ∨ xs.length ≤ fromEnd xs.length step.index then none
      else some (uint32Index (fromEnd xs.length step.index)) := by
    simp only [resolveSubordinateJSONPathStep, if_neg hkind]
    rfl
  rw [hresolve, elemAt?, if_neg hkind]
  split
  · split
    · exact (getElem?_eq_none (by omega)).symm
    · rfl
  · rw [Option.bind_some, find?_uint32Index hlen, if_pos (by omega), Nat.mod_eq_of_lt (by omega)]

theorem elemAt?_of_nonneg {idx : Int} (h : ¬ idx < 0) : elemAt? xs idx = xs[idx.toNat]? := by
  rw [elemAt?, fromEnd, if_neg h, if_pos (by omega)]

theorem elemAt?_bounded (h : ∀ c ∈ xs, c.Bounded n) {idx : Int} {c : JSON} (hc : elemAt? xs idx = some c) :
    c.Bounded n := by
  unfold elemAt? at hc
  simp only at hc
  split at hc
  · exact h c (mem_of_getElem? hc)
  · cases hc

/-- Of an index in range the low 32 bits are all. -/
theorem getElem?_low (hlen : xs.length ≤ 2 ^ 32) {i : Nat} {c : JSON} (h : xs[i]? = some c) : xs[i % 2 ^ 32]? = some c := by
  have hlt : i < xs.length := (List.getElem?_eq_some_iff.mp h).1
  rw [Nat.mod_eq_of_lt (by omega), h]

end Steps

/-! The fixed target and the direct match. -/

/-- A step with a fixed segment matches just that segment. -/
theorem matchObserved_static {step : PathStep} {seg : Segment} (h : step.staticSegment = some seg)
    (observed : Segment) : matchObservedSubordinateJSONStep step observed = decide (observed = seg) := by
  unfold PathStep.staticSegment at h
  unfold matchObservedSubordinateJSONStep
  split at h
  · cases h
    rfl
  · split at h
    · cases h
    rename_i hneg
    cases h
    simp [not_lt.mp hneg]
  · split at h
    · cases h
    rename_i ha
    cases h
    cases observed <;> simp

/-- The steps of a fixed path match the paths that its target is a beginning of. -/
theorem prefix_static_iff : ∀ {steps : List PathStep} {target : Path}, staticPath steps = some target →
    ∀ path : Path, target <+: path ↔ steps.length ≤ path.length ∧
      (steps.zip path).all (fun sp => matchObservedSubordinateJSONStep sp.1 sp.2) = true
  | [], target, h, path => by
    cases h
    simp
  | step :: steps, target, h, path => by
    obtain ⟨seg, rest, hseg, hrest, rfl⟩ := staticPath_cons.mp h
    cases path with
    | nil => simp
    | cons s path =>
      rw [cons_prefix_cons, prefix_static_iff hrest path, zip_cons_cons, all_cons, matchObserved_static hseg]
      simp only [length_cons, Nat.add_le_add_iff_right, Bool.and_eq_true, decide_eq_true_eq]
      constructor
      · rintro ⟨rfl, hlen, hall⟩
        exact ⟨hlen, rfl, hall⟩
      · rintro ⟨hlen, rfl, hall⟩
        exact ⟨rfl, hlen, hall⟩

/-- The direct match selects by the steps what the fixed target selects. -/
theorem tryDirectMatch_static {s : Selector} {target : Path} (hq : s.queryPath ≠ [])
    (h : staticPath s.queryPath = some target) (path : Path) :
    (s.tryDirectMatch path).2 = if target <+: path then some (relPath target.length path) else none := by
  have hlen := (staticPath_spec h).1
  have hiff := prefix_static_iff h path
  unfold Selector.tryDirectMatch
  by_cases hnil : path = []
  · have hpre : ¬ target <+: path := by
      rw [hnil, prefix_nil]
      rintro rfl
      exact hq (length_eq_zero_iff.mp hlen.symm)
    rw [if_pos (.inl hnil), if_neg hpre]
  rw [if_neg (by simp [hnil, hq])]
  by_cases hall : (s.queryPath.zip path).all (fun sp => matchObservedSubordinateJSONStep sp.1 sp.2) = true
  · rw [if_neg (by simpa using hall)]
    by_cases hle : s.queryPath.length ≤ path.length
    · rw [if_pos hle, if_pos (hiff.mpr ⟨hle, hall⟩), hlen]
    · rw [if_neg hle, if_neg fun hpre => hle (hiff.mp hpre).1]
      split <;> rfl
  · rw [if_pos (by simpa using hall), if_neg fun hpre => hall (hiff.mp hpre).2]

/-! The fixed target and the resolution. -/

/-- The subtree that only one of the two leads to: the element that the low 32 bits of an
    index address, by the target; and element 0, where a key-or-index step that is no number
    meets an array, by the resolution. -/
def split : JSON → List PathStep → Option JSON
  | _, [] => none
  | .scalar _, _ :: _ => none
  | .object kvs, step :: steps => if step.kind = .index then none else (find? step.value kvs).bind (split · steps)
  | .array xs, step :: steps =>
    match step.kind with
    | .key => none
    | .index =>
      match xs[step.index.toNat]? with
      | some c => split c steps
      | none => xs[step.index.toNat % 2 ^ 32]?.bind (follow true · steps)
    | .keyOrIndex => xs[0]?.bind (follow false · steps)

theorem differ_split {n : Nat} (hn : n ≤ 2 ^ 32) : ∀ (steps : List PathStep) {j : JSON}, j.Bounded n →
    (∀ step ∈ steps, step.Decoded) → (staticPath steps).isSome = true →
    Differ (follow true j steps) (follow false j steps) (split j steps)
  | [], j, _, _, _ => by cases j <;> rfl
  | step :: steps, j, hj, hdec, hstatic => by
    obtain ⟨hseg, hrest⟩ := staticSegment_isSome hstatic
    have ih : ∀ {c : JSON}, c.Bounded n → Differ (follow true c steps) (follow false c steps) (split c steps) :=
      fun hc => differ_split hn steps hc (forall_mem_cons.mp hdec).2 hrest
    cases hj with
    | scalar s => exact differ_same (fun _ => none) (stepChild_scalar s) (stepChild_scalar s) nofun
    | object hlen hasc h =>
      rename_i kvs
      have hchild : ∀ {fixed : Bool}, stepChild fixed (.object kvs) step =
          if step.kind = .index then none else find? step.value kvs := stepChild_object kvs fun _ => hseg
      rw [split]
      by_cases hkind : step.kind = .index
      · simp only [if_pos hkind] at hchild ⊢
        exact differ_same (fun _ => none) hchild hchild nofun
      · simp only [if_neg hkind] at hchild ⊢
        exact differ_same (split · steps) hchild hchild fun c hc => ih (h _ (find?_mem hc))
    | array hlen h =>
      rename_i xs
      have hfixed := stepChild_array_fixed (hlen.trans hn) hseg
      have hresolved := stepChild_array_resolved step (hlen.trans hn)
      obtain ⟨hindex, hkey⟩ := of_staticSegment hseg
      rw [split]
      cases hkind : step.kind with
      | key =>
        simp only [hkind, reduceCtorEq, if_false, if_true] at hfixed hresolved
        exact differ_same (fun _ => none) hfixed hresolved nofun
      | index =>
        simp only [hkind, reduceCtorEq, if_false, if_true, elemAt?_of_nonneg (hindex hkind)] at hfixed hresolved
        cases hc : xs[step.index.toNat]? with
        | none => exact differ_left hfixed (hresolved.trans hc)
        | some c =>
          exact differ_same (split · steps) (hfixed.trans (getElem?_low (hlen.trans hn) hc)) (hresolved.trans hc)
            fun d hd => ih (h d (mem_of_getElem? (hc.trans hd)))
      | keyOrIndex =>
        obtain ⟨err, ha⟩ := hkey hkind
        have hzero : step.index = 0 := by
          rw [hdec step mem_cons_self hkind, ha]
          rfl
        simp only [hkind, reduceCtorEq, if_false, hzero] at hfixed hresolved
        exact differ_right hfixed hresolved

/-- Whether two subtrees, or none, have the same entries. -/
theorem observations_inj_of_differ {a b st : Option JSON} (h : Differ a b st) :
    (a.map (observations [.header])).getD [] = (b.map (observations [.header])).getD [] ↔ st = none := by
  have hne : ∀ c : JSON, observations [.header] c ≠ [] := fun c => by simp [observations, nodes_ne_nil]
  cases st with
  | none =>
    have heq : a = b := h
    simp [heq]
  | some c => rcases h with ⟨rfl, rfl⟩ | ⟨rfl, rfl⟩ <;> simp [hne, (hne c).symm]

/-- The routes over the entries of a document. Next to resolving the steps the direct match
    changes nothing. A fixed path's target selects what resolving the steps selects exactly
    when there is no subtree that only one of them leads to. -/
theorem routes_agree {n : Nat} (hn : n ≤ 2 ^ 32) {j : JSON} (hj : j.Bounded n) {path : List Bytes}
    {steps : List PathStep} (hpath : path.mapM decodeSubordinateJSONQueryPathStep = .ok steps) :
    let stepwise : Selector := { newSelector path with staticTarget := none }
    let os := observations [.header] j
    (stepwise.runBy false os).2 = (stepwise.run os).2 ∧ (((newSelector path).run os).2 = (stepwise.run os).2 ↔
        (staticPath steps).isSome = true → split j steps = none) := by
  intro stepwise os
  have hsteps : ∀ direct, (stepwise.runBy direct os).2 = ((follow false j steps).map (observations [.header])).getD [] :=
    fun direct => runBy_stepwise hn hj direct hpath
  refine ⟨(hsteps false).trans (hsteps true).symm, ?_⟩
  rw [Selector.run, Selector.run, hsteps, ← Selector.run, run_newSelector hn hj hpath, selected]
  cases hstatic : (staticPath steps).isSome with
  | false => simp
  | true =>
    rw [observations_inj_of_differ (differ_split hn steps hj (decoded_steps hpath) hstatic)]
    simp

end Ratel.Row
