import Ratel.Row.JsonPathRoutes
import Ratel.Sql.Expr

/- Scan-local JSON accesses (`pkg/sql/row/json_access_program.go`): the `?` family and
   path fetches, computed from the stream of a column's subordinate entries.

   Path fetches are compared here with the same steps on the document in memory
   (`fetchSteps`). They agree but for what `stray` describes: the evaluator takes a
   scalar for its own element 0 and -1, a fixed path keeps only the low 32 bits of an
   index, and a key-or-index step that is no number is index 0 to the resolver. -/
namespace Ratel.Row

open Ratel.Lib Ratel.Lib.Assoc Ratel.Encoding Ratel.Keys Ratel.Rowenc Ratel.Sql List JSON PathMatcher

/-! Programs. -/

/-- `JSONAccessKind`. -/
inductive AccessKind
  | exists
  | existsAny
  | existsAll
  | fetchJSONPath
  | fetchTextPath
deriving DecidableEq, Repr

/-- `JSONAccessSpec`, of one column. -/
structure AccessSpec where
  kind : AccessKind
  key : Bytes := []
  keys : List Bytes := []
  path : List Bytes := []
deriving DecidableEq, Repr

/-- `JSONAccessProgram`; `keySet` holds the keys not seen so far. -/
structure AccessProgram where
  kind : AccessKind
  key : Bytes
  keySet : List Bytes
  sawSubordinate : Bool := false
  matched : Bool := false
  matchedCount : Nat := 0
  totalKeys : Nat
  matcher : PathMatcher

/-- `NewJSONAccessProgram`. -/
def AccessProgram.new (spec : AccessSpec) : AccessProgram where
  kind := spec.kind
  key := spec.key
  keySet := spec.keys.dedup
  totalKeys := spec.keys.dedup.length
  matcher := .new spec.path

/-- `subordinateJSONExistsCandidate`: the key or text an entry offers to `?`. -/
def existsCandidate (apd : Apd) (o : Observation) : Option Bytes :=
  let path := normalizeObserved o.path
  if path = [.header] ∧ o.kind = .scalar then o.scalar.bind (asText apd)
  else
    match path with
    | [.objectKey k] => some k
    | [.arrayIndex _] => if o.kind = .scalar then o.scalar.bind (asText apd) else none
    | _ => none

namespace AccessProgram

def observeExists (apd : Apd) (p : AccessProgram) (o : Observation) : AccessProgram :=
  if existsCandidate apd o = some p.key then { p with matched := true } else p

def observeExistsSet (apd : Apd) (p : AccessProgram) (o : Observation) : AccessProgram :=
  match existsCandidate apd o with
  | none => p
  | some candidate =>
    if candidate ∈ p.keySet then
      { p with keySet := p.keySet.erase candidate, matchedCount := p.matchedCount + 1, matched := true }
    else p

def observe (apd : Apd) (p : AccessProgram) (o : Observation) : Except Err AccessProgram :=
  let p := { p with sawSubordinate := true }
  match p.kind with
  | .exists => .ok (p.observeExists apd o)
  | .existsAny | .existsAll => .ok (p.observeExistsSet apd o)
  | .fetchJSONPath | .fetchTextPath => do
    let matcher ← p.matcher.observe o
    return { p with matcher := matcher }

def resultDatum (apd : Apd) (p : AccessProgram) : Except Err SqlDatum :=
  match p.kind with
  | .exists | .existsAny => .ok (if ¬ p.sawSubordinate then .null else .bool p.matched)
  | .existsAll => .ok (if ¬ p.sawSubordinate then .null else .bool (p.matchedCount = p.totalKeys))
  | .fetchJSONPath => do
    let j ← p.matcher.materialize
    return fetched j
  | .fetchTextPath => do
    match ← p.matcher.materializeText apd with
    | none => return .null
    | some text => return .string text

end AccessProgram

def runAccess (apd : Apd) (spec : AccessSpec) (os : List Observation) : Except Err SqlDatum := do
  let p ← os.foldlM (AccessProgram.observe apd) (.new spec)
  p.resultDatum apd

/-! Path fetches. -/

theorem select_parseErr (s : Selector) (o : Observation) : (s.select o).1.parseErr = s.parseErr := by
  have hnext : ∀ (s : Selector) kind count, (s.resolveNext kind count).parseErr = s.parseErr := by
    intro s kind count
    unfold Selector.resolveNext
    split <;> rfl
  have hin : ∀ (s : Selector) path, (s.inTarget path).1.parseErr = s.parseErr := by
    intro s path
    unfold Selector.inTarget
    split <;> rfl
  have hdirect : ∀ path, (s.shortcut true path).1.parseErr = s.parseErr := by
    intro path
    rw [Selector.shortcut, if_pos rfl, Selector.tryDirectMatch]
    split
    · rfl
    split
    · rfl
    split
    · rfl
    · split <;> rfl
  have hres : ∀ (s : Selector) path kind count, (s.observeResolving path kind count).1.parseErr = s.parseErr := by
    intro s path kind count
    unfold Selector.observeResolving
    split
    · split
      · exact hnext _ _ _
      · rfl
    split
    · rfl
    split
    · simp only
      split
      · exact hnext _ _ _
      · exact (hin _ _).trans (hnext _ _ _)
    · exact hin _ _
  unfold Selector.select Selector.selectBy
  split
  · rfl
  split
  · rfl
  simp only
  split
  · rfl
  have hd := hdirect (normalizeObserved o.path)
  split
  · rename_i s' rel heq
    rw [heq] at hd
    exact hd
  rename_i s' heq
  rw [heq] at hd
  exact (hres _ _ _ _).trans hd

/-- The matcher's builder takes the selected entries. -/
theorem foldlM_matcher (os : List Observation) : ∀ {m : PathMatcher}, m.selector.parseErr = none → os.foldlM observe m =
      .ok ((m.selector.run os).2.foldl observeSelected { m with selector := (m.selector.run os).1 }) := by
  induction os with
  | nil => exact fun _ => rfl
  | cons o os ih =>
    intro m hm
    have hobs : m.observe o = .ok (((m.selector.select o).2.toList.map fun path => { o with path := path }).foldl
        observeSelected { m with selector := (m.selector.select o).1 }) := by
      rw [observe, Selector.observe, hm]
      simp only [bind_ok]
      cases (m.selector.select o).2 <;> rfl
    have hselected : ∀ (l : List Observation) (m : PathMatcher) (s : Selector),
        { l.foldl observeSelected m with selector := s } = l.foldl observeSelected { m with selector := s } := by
      intro l
      induction l with
      | nil => exact fun _ _ => rfl
      | cons o l ihl => exact fun m s => ihl _ s
    have hsel : ∀ (l : List Observation) (m : PathMatcher), (l.foldl observeSelected m).selector = m.selector :=
      fun l m => (congrArg PathMatcher.selector (hselected l m m.selector)).symm
    rw [foldlM_cons, hobs, bind_ok, ih (by rw [hsel]; exact (select_parseErr _ _).trans hm), hselected, hsel,
      Selector.run_cons, foldl_append]

theorem foldl_observeSelected (s : Selector) : ∀ (os : List Observation) (b : Option NodeBuilder), os ≠ [] →
    os.foldl observeSelected ⟨s, b⟩ = ⟨s, some ((b.getD .empty).setAll (os.map fun o => (o.path, o.kind, o.scalar)))⟩
  | [], _, h => absurd rfl h
  | [_], _, _ => rfl
  | o :: o' :: os, b, _ => by
    exact foldl_observeSelected s (o' :: os) (some ((b.getD .empty).set o.path (o.kind, o.scalar))) (by simp)

variable {n : Nat} {j : JSON} {steps : List PathStep}

/-- Fed the entries of a document, or none, the builder materializes it, or nothing. -/
theorem materialize_selected (hn : n ≤ 2 ^ 32) {sel : Option JSON} (hsel : ∀ c ∈ sel, c.Bounded n) (s : Selector) :
    (((sel.map (observations [.header])).getD []).foldl observeSelected ⟨s, none⟩).materialize = .ok sel := by
  cases sel with
  | none => rfl
  | some c =>
    have hne : observations [.header] c ≠ [] := by simp [observations, nodes_ne_nil]
    have hentries : (observations [.header] c).map (fun o => (o.path, o.kind, o.scalar)) =
        (entriesOf c).map fun e => (.header :: e.1, e.2) := by
      rw [observations, nodes_header, entriesOf, map_map, map_map, map_map]
      rfl
    rw [Option.map_some, Option.getD_some, foldl_observeSelected s _ _ hne, hentries, setAll_header]
    show some <$> (NodeBuilder.empty.setAll (entriesOf c)).materialize = _
    rw [materialize_setAll hn (hsel c rfl) (List.Perm.refl _)]
    rfl

theorem selected_bounded (hj : j.Bounded n) :
    ∀ c ∈ selected steps j, c.Bounded n := by
  rw [selected]
  generalize (staticPath steps).isSome = fixed
  induction steps generalizing j with
  | nil =>
    rintro c ⟨⟩
    exact hj
  | cons step steps ih =>
    intro c hc
    obtain ⟨d, hd, hc⟩ := Option.bind_eq_some_iff.mp hc
    obtain ⟨seg, -, hd⟩ := Option.bind_eq_some_iff.mp hd
    exact ih (hj.child (find?_mem hd)) c hc

/-- The matcher's result over a document's entries is the selected subtree. -/
theorem foldlM_fetch (hn : n ≤ 2 ^ 32) (hj : j.Bounded n) {path : List Bytes}
    (h : path.mapM decodeSubordinateJSONQueryPathStep = .ok steps) :
    ∃ m, (observations [.header] j).foldlM observe (.new path) = .ok m ∧ m.materialize = .ok (selected steps j) := by
  refine ⟨_, foldlM_matcher _ (by rw [new, newSelector_eq h]), ?_⟩
  rw [new, run_newSelector hn hj h]
  exact materialize_selected hn (selected_bounded hj) _

theorem foldlM_path_program (apd : Apd) (os : List Observation) : ∀ {p : AccessProgram} {m : PathMatcher},
    p.kind = .fetchJSONPath ∨ p.kind = .fetchTextPath → os.foldlM observe p.matcher = .ok m →
    ∃ p', os.foldlM (AccessProgram.observe apd) p = .ok p' ∧ p'.kind = p.kind ∧ p'.matcher = m := by
  induction os with
  | nil =>
    intro p m _ h
    cases h
    exact ⟨p, rfl, rfl, rfl⟩
  | cons o os ih =>
    intro p m hkind h
    obtain ⟨m', hm', h⟩ := exists_of_bind_ok h
    obtain ⟨p', hp', hk, hmat⟩ := ih (p := { p with sawSubordinate := true, matcher := m' }) hkind h
    refine ⟨p', ?_, hk, hmat⟩
    have hobs : p.observe apd o = .ok { p with sawSubordinate := true, matcher := m' } := by
      unfold AccessProgram.observe
      rcases hkind with hkind | hkind <;> simp [hkind, hm']
    rw [foldlM_cons, hobs]
    exact hp'

theorem runAccess_fetch (apd : Apd) (hn : n ≤ 2 ^ 32) (hj : j.Bounded n) {path : List Bytes}
    (h : path.mapM decodeSubordinateJSONQueryPathStep = .ok steps) :
    runAccess apd { kind := .fetchJSONPath, path := path } (observations [.header] j) =
        .ok (fetched (selected steps j)) ∧
      runAccess apd { kind := .fetchTextPath, path := path } (observations [.header] j) =
        .ok (fetchedText apd (selected steps j)) := by
  obtain ⟨m, hm, hmat⟩ := foldlM_fetch hn hj h
  constructor
  · obtain ⟨p', hp', hkind, hmatcher⟩ := foldlM_path_program apd (observations [.header] j)
      (p := .new { kind := .fetchJSONPath, path := path }) (.inl rfl) hm
    rw [runAccess, hp', bind_ok, AccessProgram.resultDatum, hkind]
    rw [hmatcher, hmat]
    rfl
  obtain ⟨p', hp', hkind, hmatcher⟩ := foldlM_path_program apd (observations [.header] j)
    (p := .new { kind := .fetchTextPath, path := path }) (.inr rfl) hm
  rw [runAccess, hp', bind_ok, AccessProgram.resultDatum, hkind]
  have htext : m.materializeText apd = .ok ((selected steps j).bind (asText apd)) := by
    rw [materializeText, hmat]
    rfl
  rw [hmatcher, htext, fetchedText]
  cases (selected steps j).bind (asText apd) <;> rfl

/-! Compared with the document in memory. -/

/-- One step on the document in memory: `FetchValKey`, `FetchValIdx` or
    `FetchValKeyOrIdx`. -/
def fetchStep (j : JSON) (step : PathStep) : Option JSON :=
  match step.kind with
  | .key => j.fetchValKey step.value
  | .index => j.fetchValIdx step.index
  | .keyOrIndex => j.fetchValKeyOrIdx step.value

/-- The steps one after another on the document in memory. -/
def fetchSteps (j : JSON) (steps : List PathStep) : Option JSON := walk fetchStep j steps

/-- Whether a step is index 0 or -1, which on a scalar is the scalar itself. -/
def PathStep.onScalar (step : PathStep) : Bool := step.kind = .index ∧ (step.index = 0 ∨ step.index = -1)

/-- The subtree that only one of stream and document in memory leads to, if they
    differ: a scalar with nothing but index steps 0 and -1 left; the element that the
    low 32 bits of an index address, on a fixed path; and element 0, where a
    key-or-index step that is no number meets an array, on any other. -/
def stray (fixed : Bool) : JSON → List PathStep → Option JSON
  | _, [] => none
  | .scalar s, step :: steps => if (step :: steps).all PathStep.onScalar then some (.scalar s) else none
  | .object kvs, step :: steps =>
    if step.kind = .index then none else (find? step.value kvs).bind (stray fixed · steps)
  | .array xs, step :: steps =>
    match step.kind with
    | .key => none
    | .index =>
      match elemAt? xs step.index with
      | some c => stray fixed c steps
      | none => if fixed then xs[step.index.toNat % 2 ^ 32]?.bind (follow fixed · steps) else none
    | .keyOrIndex =>
      match Strconv.atoi step.value with
      | .ok idx => (elemAt? xs idx).bind (stray fixed · steps)
      | .error _ => if fixed then none else xs[0]?.bind (follow fixed · steps)

theorem fetchStep_scalar (s : Scalar) (step : PathStep) :
    fetchStep (.scalar s) step = if step.onScalar then some (.scalar s) else none := by
  unfold fetchStep PathStep.onScalar
  split <;> simp_all [fetchValKey, fetchValIdx, fetchValKeyOrIdx]

theorem fetchSteps_scalar (s : Scalar) : ∀ steps : List PathStep,
    fetchSteps (.scalar s) steps = if steps.all PathStep.onScalar then some (.scalar s) else none
  | [] => rfl
  | step :: steps => by
    rw [fetchSteps, walk, fetchStep_scalar, all_cons]
    by_cases h : step.onScalar = true
    · rw [if_pos h, h]
      exact fetchSteps_scalar s steps
    · rw [if_neg h, Bool.eq_false_iff.mpr h]
      rfl

theorem fetchStep_object (kvs : List (Bytes × JSON)) (step : PathStep) :
    fetchStep (.object kvs) step = if step.kind = .index then none else find? step.value kvs := by
  unfold fetchStep
  cases step.kind <;> rfl

section Compare
variable {fixed : Bool} {step : PathStep} {steps : List PathStep}

/-- One step more, at each kind of node, given that the rest strays by `stray`. -/
def StraysBelow (fixed : Bool) (steps : List PathStep) (n : Nat) : Prop :=
  ∀ c : JSON, c.Bounded n → Differ (follow fixed c steps) (fetchSteps c steps) (stray fixed c steps)

theorem differ_scalar (s : Scalar) : Differ (follow fixed (.scalar s) (step :: steps))
    (fetchSteps (.scalar s) (step :: steps)) (stray fixed (.scalar s) (step :: steps)) := by
  have hfetch := fetchSteps_scalar s (step :: steps)
  have hst : stray fixed (.scalar s) (step :: steps) = (fetchStep (.scalar s) step).bind (fetchSteps · steps) := by
    rw [stray, ← hfetch]
    rfl
  rw [hst]
  exact differ_right (stepChild_scalar s) rfl

theorem differ_object {kvs : List (Bytes × JSON)} (hseg : fixed = true → step.staticSegment.isSome = true)
    (h : ∀ kv ∈ kvs, kv.2.Bounded n) (hrest : StraysBelow fixed steps n) :
    Differ (follow fixed (.object kvs) (step :: steps)) (fetchSteps (.object kvs) (step :: steps))
      (stray fixed (.object kvs) (step :: steps)) := by
  have hfollow := stepChild_object kvs hseg
  have hfetch := fetchStep_object kvs step
  rw [stray]
  by_cases hkind : step.kind = .index
  · simp only [if_pos hkind] at hfollow hfetch ⊢
    exact differ_same (fun _ => none) hfollow hfetch nofun
  · simp only [if_neg hkind] at hfollow hfetch ⊢
    exact differ_same (stray fixed · steps) hfollow hfetch fun c hc => hrest c (h _ (find?_mem hc))

section Arrays
variable {xs : List JSON} (hlen : xs.length ≤ 2 ^ 32) (h : ∀ c ∈ xs, c.Bounded n)
  (hseg : fixed = true → step.staticSegment.isSome = true) (hrest : StraysBelow fixed steps n)

include hlen hseg

theorem differ_array_key (hkind : step.kind = .key) :
    Differ (follow fixed (.array xs) (step :: steps)) (fetchSteps (.array xs) (step :: steps)) none := by
  have hfollow : stepChild fixed (.array xs) step = none := by
    cases fixed with
    | true => simp [stepChild_array_fixed hlen (hseg rfl), hkind]
    | false => simp [stepChild_array_resolved step hlen, hkind]
  have hfetch : fetchStep (.array xs) step = none := by
    rw [fetchStep, hkind]
    rfl
  exact differ_same (fun _ => none) hfollow hfetch nofun

include h hrest

/-- An index is one of the same element, unless a fixed path keeps only its low bits. -/
theorem differ_array_index (hkind : step.kind = .index) :
    Differ (follow fixed (.array xs) (step :: steps)) (fetchSteps (.array xs) (step :: steps))
      (match elemAt? xs step.index with
        | some c => stray fixed c steps
        | none => if fixed then xs[step.index.toNat % 2 ^ 32]?.bind (follow fixed · steps) else none) := by
  have hfetch : fetchStep (.array xs) step = elemAt? xs step.index := by
    rw [fetchStep, hkind]
    rfl
  have hsame : stepChild fixed (.array xs) step = elemAt? xs step.index → ∀ c, elemAt? xs step.index = some c →
      Differ (follow fixed (.array xs) (step :: steps)) (fetchSteps (.array xs) (step :: steps)) (stray fixed c steps) :=
    fun hfollow c hc => differ_same (stray fixed · steps) (hfollow.trans hc) (hfetch.trans hc)
      fun d hd => hrest d (elemAt?_bounded h (hc.trans hd))
  cases fixed with
  | false =>
    have hfollow := stepChild_array_resolved step hlen
    simp only [hkind, reduceCtorEq, if_false] at hfollow
    cases hc : elemAt? xs step.index with
    | none => exact differ_same (fun _ => none) (hfollow.trans hc) (hfetch.trans hc) nofun
    | some c => exact hsame hfollow c hc
  | true =>
    have hfollow := stepChild_array_fixed hlen (hseg rfl)
    simp only [hkind, if_true] at hfollow
    have helem : elemAt? xs step.index = xs[step.index.toNat]? := elemAt?_of_nonneg ((of_staticSegment (hseg rfl)).1 hkind)
    cases hc : elemAt? xs step.index with
    | none => exact differ_left hfollow (hfetch.trans hc)
    | some c =>
      have hlow := getElem?_low hlen (helem.symm.trans hc)
      exact hsame (hfollow.trans (hlow.trans hc.symm)) c hc

/-- A key that is a number is an index of both; one that is not is one of the resolver only. -/
theorem differ_array_keyOrIndex (hdec : step.Decoded) (hkind : step.kind = .keyOrIndex) :
    Differ (follow fixed (.array xs) (step :: steps)) (fetchSteps (.array xs) (step :: steps))
      (match Strconv.atoi step.value with
        | .ok idx => (elemAt? xs idx).bind (stray fixed · steps)
        | .error _ => if fixed then none else xs[0]?.bind (follow fixed · steps)) := by
  have hindex := hdec hkind
  have hfetch : fetchStep (.array xs) step = (array xs).fetchValKeyOrIdx step.value := by rw [fetchStep, hkind]
  rw [fetchValKeyOrIdx] at hfetch
  have hresolved := stepChild_array_resolved step hlen
  simp only [hkind, reduceCtorEq, if_false, hindex] at hresolved
  cases ha : Strconv.atoi step.value with
  | ok idx =>
    simp only [ha] at hfetch hresolved ⊢
    cases fixed with
    | true =>
      obtain ⟨err, herr⟩ := (of_staticSegment (hseg rfl)).2 hkind
      rw [ha] at herr
      cases herr
    | false =>
      exact differ_same (stray false · steps) hresolved hfetch fun c hc => hrest c (elemAt?_bounded h hc)
  | error err =>
    simp only [ha] at hfetch hresolved ⊢
    cases fixed with
    | true =>
      have hfollow := stepChild_array_fixed hlen (hseg rfl)
      simp only [hkind, reduceCtorEq, if_false] at hfollow
      exact differ_same (fun _ => none) hfollow hfetch nofun
    | false => exact differ_left hresolved hfetch

end Arrays

/-- The stray subtree is just the difference. -/
theorem differ_stray {n : Nat} (hn : n ≤ 2 ^ 32) : ∀ (steps : List PathStep) {j : JSON}, j.Bounded n →
    (∀ step ∈ steps, step.Decoded) → (fixed = true → (staticPath steps).isSome = true) →
    Differ (follow fixed j steps) (fetchSteps j steps) (stray fixed j steps)
  | [], j, _, _, _ => by cases j <;> rfl
  | step :: steps, j, hj, hdec, hfixed => by
    have hseg : fixed = true → step.staticSegment.isSome = true := fun h => (staticSegment_isSome (hfixed h)).1
    have hrest : StraysBelow fixed steps n := fun c hc =>
      differ_stray hn steps hc (forall_mem_cons.mp hdec).2 fun h => (staticSegment_isSome (hfixed h)).2
    cases hj with
    | scalar s => exact differ_scalar s
    | object hlen hasc h => exact differ_object hseg h hrest
    | array hlen h =>
      rw [stray]
      cases hkind : step.kind with
      | key => exact differ_array_key (hlen.trans hn) hseg hkind
      | index => exact differ_array_index (hlen.trans hn) h hseg hrest hkind
      | keyOrIndex => exact differ_array_keyOrIndex (hlen.trans hn) h hseg hrest (hdec step mem_cons_self) hkind

end Compare

theorem fetched_inj {a b : Option JSON} : fetched a = fetched b ↔ a = b := by
  cases a <;> cases b <;> simp [fetched]

theorem fetchedText_inj {apd : Apd} {a b : Option JSON} :
    fetchedText apd a = fetchedText apd b ↔ a.bind (asText apd) = b.bind (asText apd) := by
  unfold fetchedText
  cases a.bind (asText apd) <;> cases b.bind (asText apd) <;> simp

/-- Over the entries of any document a path fetch gives what its steps give on the
    document in memory exactly when there is no stray subtree; fetched as text, when
    there is none but a JSON null. Of the selector's routes, the direct match never
    disagrees: on a fixed path it selects the entries that the target does, and next to
    resolving the steps it changes nothing. The target and resolving the steps agree
    exactly when there is no subtree that only one of them leads to. -/
theorem path_fetch_agrees_iff (apd : Apd) {j : JSON} (hj : j.WF) {path : List Bytes} {steps : List PathStep}
    (hpath : path.mapM decodeSubordinateJSONQueryPathStep = .ok steps) :
    (runAccess apd { kind := .fetchJSONPath, path := path } (observations [.header] j) =
        .ok (fetched (fetchSteps j steps)) ↔ stray (staticPath steps).isSome j steps = none) ∧
      (runAccess apd { kind := .fetchTextPath, path := path } (observations [.header] j) =
        .ok (fetchedText apd (fetchSteps j steps)) ↔
          (stray (staticPath steps).isSome j steps).bind (asText apd) = none) ∧
      (let stepwise : Selector := { newSelector path with staticTarget := none }
        let os := observations [.header] j
        (steps ≠ [] → ∀ target, (newSelector path).staticTarget = some target → ∀ p,
          ((newSelector path).tryDirectMatch p).2 = if target <+: p then some (relPath target.length p) else none) ∧
        (stepwise.runBy false os).2 = (stepwise.run os).2 ∧
        (((newSelector path).run os).2 = (stepwise.run os).2 ↔
          (staticPath steps).isSome = true → split j steps = none)) := by
  have hn : containerHeaderLenMask ≤ 2 ^ 32 := by decide
  obtain ⟨hjson, htext⟩ := runAccess_fetch apd hn hj hpath
  have hdiff : Differ (selected steps j) (fetchSteps j steps) (stray (staticPath steps).isSome j steps) :=
    differ_stray hn steps hj (decoded_steps hpath) fun h => h
  have hdirect : steps ≠ [] → ∀ target, (newSelector path).staticTarget = some target → ∀ p,
      ((newSelector path).tryDirectMatch p).2 = if target <+: p then some (relPath target.length p) else none := by
    intro hne target htarget
    rw [newSelector_eq hpath] at htarget ⊢
    exact tryDirectMatch_static (s := { queryPath := steps, staticTarget := staticPath steps }) hne htarget
  refine and_assoc.mp ⟨?_, hdirect, routes_agree hn hj hpath⟩
  rw [hjson, htext, Except.ok.injEq, Except.ok.injEq, fetched_inj, fetchedText_inj]
  cases hst : stray (staticPath steps).isSome j steps with
  | none =>
    rw [hst] at hdiff
    rw [show selected steps j = fetchSteps j steps from hdiff]
    simp
  | some c =>
    rw [hst] at hdiff
    rcases hdiff with ⟨hsel, hfetch⟩ | ⟨hsel, hfetch⟩
    · rw [hsel, hfetch]
      simp
    · rw [hsel, hfetch]
      simp [eq_comm]

theorem path_fetch_agrees_last_element :
    runAccess plainApd { kind := .fetchJSONPath, path := [[112, 58, 34, 97, 34], [105, 58, 45, 49]] }
      (observations [.header] sampleDoc) = .ok (.json (.object [])) := by
  have hpath : [[112, 58, 34, 97, 34], [105, 58, 45, 49]].mapM decodeSubordinateJSONQueryPathStep =
      .ok [⟨.keyOrIndex, [97], 0⟩, ⟨.index, [], -1⟩] := by decide
  exact (path_fetch_agrees_iff plainApd sampleDoc_wf hpath).1.mpr (by decide)

/-- The three ways of going astray: index 0 of a scalar is lost, index 2^32 of a fixed
    path finds element 0, and on a path with a negative index so does a key. For a key that
    meets an array and for index 2^32 the fixed target and resolving the steps disagree. -/
theorem path_fetch_strays :
    let fetch (path : List Bytes) (j : JSON) : Except Err SqlDatum :=
      runAccess plainApd { kind := .fetchJSONPath, path := path } (observations [.header] j)
    let memory (path : List Bytes) (j : JSON) : Except Err (Option JSON) :=
      fetchSteps j <$> path.mapM decodeSubordinateJSONQueryPathStep
    let t : JSON := .scalar (.bool true)
    let first : List Bytes := [[105, 58, 48]]
    let beyond : List Bytes := [[105, 58, 52, 50, 57, 52, 57, 54, 55, 50, 57, 54]]
    let key : Bytes := [112, 58, 34, 97, 34]
    let keyThenLast : List Bytes := [key, [105, 58, 45, 49]]
    let routes (path : List Bytes) (j : JSON) : List Observation × List Observation :=
      (((newSelector path).run (observations [.header] j)).2,
        (({ newSelector path with staticTarget := none } : Selector).run (observations [.header] j)).2)
    (fetch first t = .ok .null ∧ memory first t = .ok (some t)) ∧
      (fetch beyond (.array [t]) = .ok (.json t) ∧ memory beyond (.array [t]) = .ok none) ∧
      (fetch keyThenLast (.array [.array [t]]) = .ok (.json t) ∧ memory keyThenLast (.array [.array [t]]) = .ok none) ∧
      routes [key] (.array [.array [t]]) = ([], observations [.header] (.array [t])) ∧
      routes beyond (.array [t]) = (observations [.header] t, []) := by
  decide +kernel

end Ratel.Row
