import Ratel.Sql.SubordinateUpdate

/- The attempt to plan an UPDATE of a JSON column as a direct mutation
   (`tryPlanSubordinateJSONDirectUpdate` in `pkg/sql/subordinate_json_update.go`). The
   source is a list of render expressions over a scan. A plan reads the column no more, so
   its expressions are overwritten and the scan loses it; without a plan the generic update
   runs on the same source.

   The expressions are overwritten before the last two tests, that no other one reads the
   column and that the scan can do without it. Proven here: on every source that
   `buildUpdate` makes both succeed, so an attempt without a plan leaves the source alone.
   Such a source renders the fetched columns, the primary key among them, as variables of
   the scan and then the new value; no JSON column is part of the key. -/
namespace Ratel.Sql

open Ratel.Lib Ratel.Encoding

/-- What the planner asks of expressions, those it does not recognise included. The value
    of a mutation that it recognises reads no column. -/
structure ExprOps (E : Type) where
  /-- `NewTypedOrdinalReference`. -/
  var : Nat → E
  /-- The index of an `IndexedVar` under transparent casts. -/
  indexedVar : E → Option Nat
  usesIndexedVar : E → Nat → Bool
  /-- `WalkExpr` with an `indexedVarRemapVisitor`, then `Rebind` to the new helper. -/
  remap : (removed numVars : Nat) → E → E
  nullJSON : E
  tryBuild : E → (sourceIdx : Nat) → Except Err (Option (MutationPlan × Option E))
  indexedVar_var : ∀ i, indexedVar (var i) = some i
  uses_var : ∀ i idx, usesIndexedVar (var i) idx = decide (i = idx)
  uses_nullJSON : ∀ idx, usesIndexedVar nullJSON idx = false
  tryBuild_value : ∀ {e sourceIdx plan value}, tryBuild e sourceIdx = .ok (some (plan, some value)) →
    ∀ idx, usesIndexedVar value idx = false

structure CatalogColumn where
  id : Nat
  type : Nat
deriving DecidableEq, Repr

/-- The family of `json` and `jsonb`. -/
def CatalogColumn.isJSON (col : CatalogColumn) : Bool := col.type = 114 ∨ col.type = 3802

/-- The columns of a `scanNode`; `inverted` is the inverted column with its type. -/
structure ScanNode where
  desc : List CatalogColumn
  wantedColumns : List Nat
  inverted : Option CatalogColumn
  cols : List (Option CatalogColumn)
deriving DecidableEq, Repr

/-- A `renderNode` over a scan; `numVars` is what its `ivarHelper` was made for. -/
structure RenderNode (E : Type) where
  render : List E
  scan : ScanNode
  columns : List (Option CatalogColumn)
  numVars : Nat
deriving DecidableEq, Repr

/-- The loop of `initColsForScan`: the entries from the first unknown column on stay nil. -/
def findCols (desc : List CatalogColumn) (inverted : Option CatalogColumn) :
    List Nat → List (Option CatalogColumn) × Option Err
  | [] => ([], none)
  | id :: rest =>
    match desc.find? (·.id = id) with
    | none => (List.replicate (rest.length + 1) none, some ⟨"column-id \"%d\" does not exist", [.int id]⟩)
    | some col =>
      let (cols, err) := findCols desc inverted rest
      (some ((inverted.filter (·.id = id)).getD col) :: cols, err)

/-- `initColsForScan`, for a list that `append` made: without elements it is nil. -/
def initColsForScan (scan : ScanNode) : List (Option CatalogColumn) × Option Err :=
  if scan.wantedColumns = [] then ([], some ⟨"wantedColumns is nil", []⟩)
  else findCols scan.desc scan.inverted scan.wantedColumns

inductive PlanOutcome
  | planned (plan : MutationPlan)
  | noPlan (err : Option Err)
  | panics
deriving DecidableEq, Repr

/-- What `tryPlanSubordinateJSONDirectUpdate` is given besides its source. -/
structure UpdateArgs where
  rowsNeeded : Bool
  checksEmpty : Bool
  deletableNonPrimaryIndexes : Nat
  fetchCols : List CatalogColumn
  updateCols : List CatalogColumn

/-- A mutation that was recognised. -/
structure Candidate (E : Type) where
  fetchIdx : Nat
  sourceIdx : Nat
  plan : MutationPlan
  replacement : Option E

/-- `row.ColMapping` of one column. -/
def colMapping (col : CatalogColumn) (toCols : List CatalogColumn) : Option Nat :=
  (toCols.zipIdx.filter (·.1.id = col.id)).getLast?.map (·.2)

section
variable {E : Type} (ops : ExprOps E) (args : UpdateArgs) (r : RenderNode E)

/-- `dropRenderSourceColumn`, with the plan it is done for. -/
def dropRenderSourceColumn (c : Candidate E) : PlanOutcome × RenderNode E :=
  if r.scan.wantedColumns.length ≤ c.sourceIdx then (.panics, r)
  else
    let scan := { r.scan with wantedColumns := r.scan.wantedColumns.eraseIdx c.sourceIdx }
    match initColsForScan scan with
    | (cols, some err) => (.noPlan (some err), { r with scan := { scan with cols := cols } })
    | (cols, none) =>
      (.planned c.plan,
        { render := r.render.map (ops.remap c.sourceIdx cols.length)
          scan := { scan with cols := cols }
          columns := cols
          numVars := cols.length })

/-- The function up to its first write. -/
def recognise : Except Err (Option (Candidate E)) :=
  match args.updateCols with
  | [updateCol] =>
    if args.rowsNeeded ∨ ¬ args.checksEmpty ∨ args.deletableNonPrimaryIndexes ≠ 0 ∨ ¬ updateCol.isJSON ∨
        r.render.length < args.fetchCols.length + 1 then .ok none
    else
      match colMapping updateCol args.fetchCols with
      | none => .ok none
      | some fetchIdx =>
        match r.render[fetchIdx]?.bind ops.indexedVar, r.render[args.fetchCols.length]? with
        | some sourceIdx, some expr =>
          (ops.tryBuild expr sourceIdx).map (·.map fun p => ⟨fetchIdx, sourceIdx, p.1, p.2⟩)
        | _, _ => .ok none
  | _ => .ok none

/-- The render expressions once a candidate's are written. -/
def Candidate.overwrite (c : Candidate E) : List E :=
  (r.render.set c.fetchIdx ops.nullJSON).set args.fetchCols.length (c.replacement.getD ops.nullJSON)

/-- `tryPlanSubordinateJSONDirectUpdate`: what it returns, and the source it leaves. -/
def tryPlanSubordinateJSONDirectUpdate : PlanOutcome × RenderNode E :=
  match recognise ops args r with
  | .error err => (.noPlan (some err), r)
  | .ok none => (.noPlan none, r)
  | .ok (some c) =>
    let r := { r with render := c.overwrite ops args r }
    if r.render.any (ops.usesIndexedVar · c.sourceIdx) then (.noPlan none, r)
    else dropRenderSourceColumn ops r c

end

/-- A source as `buildUpdate` makes it. The scan was initialised with the columns that it
    wants. The fetched columns are rendered as its variables; after them come the new values,
    and nothing else unless rows, checks or partial indexes ask for it. The key's columns are
    fetched, and none is a JSON column. -/
structure PlannedSource {E : Type} (ops : ExprOps E) (args : UpdateArgs) (r : RenderNode E) (vars : List Nat)
    (exprs : List E) : Prop where
  initialised : (initColsForScan r.scan).2 = none
  render : r.render = vars.map ops.var ++ exprs
  length : vars.length = args.fetchCols.length
  fetched : ∀ {i v : Nat} {col : CatalogColumn}, vars[i]? = some v → args.fetchCols[i]? = some col →
    r.scan.wantedColumns[v]? = some col.id
  nodup : (args.fetchCols.map CatalogColumn.id).Nodup
  values : args.rowsNeeded = false → args.checksEmpty → args.deletableNonPrimaryIndexes = 0 →
    exprs.length = args.updateCols.length
  key : ∃ col ∈ args.fetchCols, ∀ u ∈ args.updateCols, u.isJSON → col.id ≠ u.id

variable {E : Type} {ops : ExprOps E} {args : UpdateArgs} {r : RenderNode E} {c : Candidate E}

theorem colMapping_some {col : CatalogColumn} {toCols : List CatalogColumn} {i : Nat}
    (h : colMapping col toCols = some i) : ∃ to_, toCols[i]? = some to_ ∧ to_.id = col.id := by
  obtain ⟨p, hp, rfl⟩ := Option.map_eq_some_iff.mp h
  have hmem := List.mem_filter.mp (List.mem_of_getLast? hp)
  exact ⟨p.1, List.mk_mem_zipIdx_iff_getElem?.mp hmem.1, by simpa using hmem.2⟩

/-- What was recognised: one JSON column is updated, it is fetched and rendered as a
    variable, and the expression after the fetched columns is a mutation of it. -/
theorem recognise_some (h : recognise ops args r = .ok (some c)) :
    ∃ u, args.updateCols = [u] ∧ u.isJSON ∧
      (args.rowsNeeded = false ∧ args.checksEmpty ∧ args.deletableNonPrimaryIndexes = 0) ∧
      colMapping u args.fetchCols = some c.fetchIdx ∧
      r.render[c.fetchIdx]?.bind ops.indexedVar = some c.sourceIdx ∧
      ∃ expr, ops.tryBuild expr c.sourceIdx = .ok (some (c.plan, c.replacement)) := by
  rw [recognise] at h
  split at h <;> [skip; cases h]
  next u hcols =>
  obtain ⟨hcond, h⟩ := of_ite_ne h (by simp)
  simp only [not_or, not_not, Bool.not_eq_true, Bool.not_eq_false] at hcond
  split at h <;> [cases h; skip]
  next fetchIdx hmap =>
  split at h <;> [skip; cases h]
  next sourceIdx expr hvar _ =>
  cases hb : ops.tryBuild expr sourceIdx with
  | error e => simp [hb, Except.map] at h
  | ok b =>
    cases b with
    | none => simp [hb, Except.map] at h
    | some p =>
      simp only [hb, Except.map, Option.map_some, Except.ok.injEq, Option.some.injEq] at h
      subst h
      exact ⟨u, hcols, hcond.2.2.2.1, ⟨hcond.1, hcond.2.1, hcond.2.2.1⟩, hmap, hvar, expr, hb⟩

theorem findCols_err {desc : List CatalogColumn} (inverted : Option CatalogColumn) {wanted : List Nat} :
    (findCols desc inverted wanted).2 = none ↔ ∀ id ∈ wanted, ∃ col ∈ desc, col.id = id := by
  induction wanted with
  | nil => simp [findCols]
  | cons id rest ih =>
    rw [findCols, List.forall_mem_cons, ← ih]
    cases hf : desc.find? (·.id = id) with
    | none => simpa using fun col hcol hid => absurd hid (by simpa using List.find?_eq_none.mp hf col hcol)
    | some col => simpa using fun _ => ⟨col, List.mem_of_find?_eq_some hf, by simpa using List.find?_some hf⟩

/-- A scan that can do without a column drops it. -/
theorem dropRenderSourceColumn_planned (ops : ExprOps E) (hlt : c.sourceIdx < r.scan.wantedColumns.length)
    (hne : r.scan.wantedColumns.eraseIdx c.sourceIdx ≠ [])
    (hids : ∀ id ∈ r.scan.wantedColumns.eraseIdx c.sourceIdx, ∃ col ∈ r.scan.desc, col.id = id) :
    (dropRenderSourceColumn ops r c).1 = .planned c.plan := by
  have herr := (findCols_err r.scan.inverted).mpr hids
  rcases hfind : findCols r.scan.desc r.scan.inverted (r.scan.wantedColumns.eraseIdx c.sourceIdx) with ⟨cols, err⟩
  rw [hfind] at herr
  cases herr
  simp only [dropRenderSourceColumn, if_neg (Nat.not_le.mpr hlt), initColsForScan, if_neg hne, hfind]

section Planned
variable {vars : List Nat} {exprs : List E} (h : PlannedSource ops args r vars exprs)
include h

theorem PlannedSource.column_of_var {i v : Nat} (hv : vars[i]? = some v) :
    ∃ col, args.fetchCols[i]? = some col ∧ r.scan.wantedColumns[v]? = some col.id := by
  have hlt : i < args.fetchCols.length := h.length ▸ (List.getElem?_eq_some_iff.mp hv).1
  exact ⟨_, List.getElem?_eq_getElem hlt, h.fetched hv (List.getElem?_eq_getElem hlt)⟩

/-- Fetched columns are rendered as different variables. -/
theorem PlannedSource.var_inj {i j v : Nat} (hi : vars[i]? = some v) (hj : vars[j]? = some v) : i = j := by
  obtain ⟨col, hcol, hwant⟩ := h.column_of_var hi
  obtain ⟨col', hcol', hwant'⟩ := h.column_of_var hj
  have hids : (args.fetchCols.map CatalogColumn.id)[i]? = (args.fetchCols.map CatalogColumn.id)[j]? := by
    rw [List.getElem?_map, List.getElem?_map, hcol, hcol', Option.map_some, Option.map_some, ← hwant, hwant']
  refine (List.getElem?_inj ?_ h.nodup).mp hids
  rw [List.length_map]
  exact (List.getElem?_eq_some_iff.mp hcol).1

variable (hrec : recognise ops args r = .ok (some c))
include hrec

/-- The recognised column is a variable of the scan, and another column is wanted. -/
theorem PlannedSource.source :
    vars[c.fetchIdx]? = some c.sourceIdx ∧ exprs.length = 1 ∧
      c.sourceIdx < r.scan.wantedColumns.length ∧ r.scan.wantedColumns.eraseIdx c.sourceIdx ≠ [] := by
  obtain ⟨u, hcols, hjson, ⟨hrows, hchecks, hindexes⟩, hmap, hvar, -⟩ := recognise_some hrec
  obtain ⟨col, hcol, hid⟩ := colMapping_some hmap
  have hlt : c.fetchIdx < vars.length := h.length ▸ (List.getElem?_eq_some_iff.mp hcol).1
  have hsource : vars[c.fetchIdx]? = some c.sourceIdx := by
    rw [h.render, List.getElem?_append_left (by simpa using hlt), List.getElem?_map,
      List.getElem?_eq_getElem hlt, Option.map_some, Option.bind_some, ops.indexedVar_var] at hvar
    rw [List.getElem?_eq_getElem hlt, hvar]
  have hwant := (List.getElem?_eq_some_iff.mp (h.fetched hsource hcol)).1
  refine ⟨hsource, by rw [h.values hrows hchecks hindexes, hcols]; rfl, hwant, fun hnil => ?_⟩
  -- a column of the key is wanted beside it
  obtain ⟨k, hk, hne⟩ := h.key
  obtain ⟨i, hi⟩ := List.getElem?_of_mem hk
  have hlt' : i < vars.length := h.length ▸ (List.getElem?_eq_some_iff.mp hi).1
  have hkey := h.fetched (List.getElem?_eq_getElem hlt') hi
  have hother : vars[i] ≠ c.sourceIdx := by
    intro heq
    rw [heq, h.fetched hsource hcol] at hkey
    exact hne u (by simp [hcols]) hjson (by rw [← Option.some.inj hkey, hid])
  have hlen := congrArg List.length hnil
  rw [List.length_eraseIdx_of_lt hwant] at hlen
  have hkeylt := (List.getElem?_eq_some_iff.mp hkey).1
  simp only [List.length_nil] at hlen
  omega

/-- No expression written for a candidate reads the column. -/
theorem PlannedSource.unused {e : E} (he : e ∈ c.overwrite ops args r) : ops.usesIndexedVar e c.sourceIdx = false := by
  obtain ⟨hsource, hone, -, -⟩ := h.source hrec
  obtain ⟨-, -, -, -, -, -, expr, hbuild⟩ := recognise_some hrec
  obtain ⟨i, hi⟩ := List.getElem?_of_mem he
  rw [Candidate.overwrite, List.getElem?_set, List.getElem?_set] at hi
  split at hi
  · -- the mutation's value
    next hlast =>
    split at hi <;> [skip; cases hi]
    cases hi
    cases hvalue : c.replacement with
    | none => exact ops.uses_nullJSON _
    | some value =>
      rw [hvalue] at hbuild
      exact ops.tryBuild_value hbuild _
  next hlast =>
  split at hi
  · split at hi <;> [skip; cases hi]
    cases hi
    exact ops.uses_nullJSON _
  -- another fetched column
  next hcol =>
  have hlt : i < vars.length := by
    have hlen := (List.getElem?_eq_some_iff.mp hi).1
    rw [h.render, List.length_append, List.length_map, hone, h.length] at hlen
    rw [h.length]
    omega
  rw [h.render, List.getElem?_append_left (by simpa using hlt), List.getElem?_map, List.getElem?_eq_getElem hlt] at hi
  cases hi
  rw [ops.uses_var]
  refine decide_eq_false fun heq => hcol ?_
  exact h.var_inj hsource (by rw [List.getElem?_eq_getElem hlt, heq])

end Planned

/-- On a source that `buildUpdate` makes, the attempt does not panic, and if it returns no
    plan, with or without an error, the source is as it was. -/
theorem tryPlan_keeps_source (ops : ExprOps E) (args : UpdateArgs) (r : RenderNode E) {vars : List Nat}
    {exprs : List E} (h : PlannedSource ops args r vars exprs) :
    (tryPlanSubordinateJSONDirectUpdate ops args r).1 ≠ .panics ∧
      ∀ err, (tryPlanSubordinateJSONDirectUpdate ops args r).1 = .noPlan err →
        (tryPlanSubordinateJSONDirectUpdate ops args r).2 = r := by
  unfold tryPlanSubordinateJSONDirectUpdate
  rcases hrec : recognise ops args r with err | _ | c
  · simp
  · simp
  -- once recognised, the mutation passes the two last tests
  obtain ⟨-, -, hlt, hne⟩ := h.source hrec
  have hunused : (c.overwrite ops args r).any (ops.usesIndexedVar · c.sourceIdx) = false :=
    List.any_eq_false.mpr fun e he => by simp [h.unused hrec he]
  have hids : ∀ id ∈ r.scan.wantedColumns.eraseIdx c.sourceIdx, ∃ col ∈ r.scan.desc, col.id = id := by
    intro id hid
    have hinit := h.initialised
    rw [initColsForScan] at hinit
    split at hinit
    · cases hinit
    · exact (findCols_err _).mp hinit id (List.mem_of_mem_eraseIdx hid)
  have hplanned := dropRenderSourceColumn_planned ops (r := { r with render := c.overwrite ops args r }) hlt hne hids
  simp only [hunused, Bool.false_eq_true, if_false, hplanned]
  simp

/-! The expressions of the planner's fragment. -/

/-- `exprUsesIndexedVar` on one expression. -/
def TypedExpr.usesIndexedVar (idx : Nat) : TypedExpr → Bool
  | .indexedVar i => i = idx
  | .const _ => false
  | .cast e _ => e.usesIndexedVar idx
  | .binary _ l r => l.usesIndexedVar idx || r.usesIndexedVar idx
  | .jsonbArrayLength e => e.usesIndexedVar idx
  | .jsonbSet t p v => t.usesIndexedVar idx || p.usesIndexedVar idx || v.usesIndexedVar idx
  | .jsonbSetCreate t p v c =>
    t.usesIndexedVar idx || p.usesIndexedVar idx || v.usesIndexedVar idx || c.usesIndexedVar idx

/-- The walk of `indexedVarRemapVisitor`. -/
def TypedExpr.remap (removed : Nat) : TypedExpr → TypedExpr
  | .indexedVar i => .indexedVar (if i < removed then i else i - 1)
  | .const d => .const d
  | .cast e to_ => .cast (e.remap removed) to_
  | .binary op l r => .binary op (l.remap removed) (r.remap removed)
  | .jsonbArrayLength e => .jsonbArrayLength (e.remap removed)
  | .jsonbSet t p v => .jsonbSet (t.remap removed) (p.remap removed) (v.remap removed)
  | .jsonbSetCreate t p v c =>
    .jsonbSetCreate (t.remap removed) (p.remap removed) (v.remap removed) (c.remap removed)

theorem TypedExpr.uses_of_closed (idx : Nat) {e : TypedExpr} (h : containsIndexedVar e = false) :
    e.usesIndexedVar idx = false := by
  induction e with
  | indexedVar i => cases h
  | const d => rfl
  | cast e to_ ih => exact ih h
  | jsonbArrayLength e ih => exact ih h
  | binary op l r ihl ihr =>
    simp only [containsIndexedVar, Bool.or_eq_false_iff] at h
    simp only [usesIndexedVar, ihl h.1, ihr h.2, Bool.or_self]
  | jsonbSet t p v iht ihp ihv =>
    simp only [containsIndexedVar, Bool.or_eq_false_iff] at h
    simp only [usesIndexedVar, iht h.1.1, ihp h.1.2, ihv h.2, Bool.or_self]
  | jsonbSetCreate t p v c iht ihp ihv ihc =>
    simp only [containsIndexedVar, Bool.or_eq_false_iff] at h
    simp only [usesIndexedVar, iht h.1.1.1, ihp h.1.1.2, ihv h.1.2, ihc h.2, Bool.or_self]

/-- The value of an accepted mutation is closed. -/
theorem tryBuild_value_closed {ctx : EvalContext} {sourceIdx : Nat} {e value : TypedExpr} {plan : MutationPlan}
    (h : tryBuildSubordinateJSONMutationPlan ctx sourceIdx e = .ok (some (plan, some value))) :
    containsIndexedVar value = false := by
  obtain ⟨hshape, hacc⟩ := tryBuild_accepted h
  have hvalue := hacc.value_eq
  have hplanned := hshape.of_planned
  generalize planned ctx sourceIdx e = e' at hvalue hplanned
  cases hplanned <;> cases hvalue <;> assumption

def jsonOps (ctx : EvalContext) : ExprOps TypedExpr where
  var := .indexedVar
  indexedVar e :=
    match stripTransparentTypedCasts ctx e with
    | .indexedVar i => some i
    | _ => none
  usesIndexedVar e idx := e.usesIndexedVar idx
  remap removed _ e := e.remap removed
  nullJSON := .const .null
  tryBuild e sourceIdx := tryBuildSubordinateJSONMutationPlan ctx sourceIdx e
  indexedVar_var _ := rfl
  uses_var _ _ := rfl
  uses_nullJSON _ := rfl
  tryBuild_value h idx := TypedExpr.uses_of_closed idx (tryBuild_value_closed h)

/-- `UPDATE t SET j = j -> 'a'` on a table of `k` and `j`: no plan, and the source stays. -/
theorem tryPlan_keeps_lookup :
    let lookup : TypedExpr := .binary .fetchVal (.indexedVar 1) (.const (.string [97]))
    let table : List CatalogColumn := [⟨1, 20⟩, ⟨2, 3802⟩]
    let source : RenderNode TypedExpr := ⟨[.indexedVar 0, .indexedVar 1, lookup],
      ⟨table, [1, 2], none, table.map some⟩, table.map some, 2⟩
    tryPlanSubordinateJSONDirectUpdate (jsonOps sampleContext) ⟨false, true, 0, table, [⟨2, 3802⟩]⟩ source =
      (.noPlan none, source) := by
  intro lookup table source
  have hplanned : PlannedSource (jsonOps sampleContext) ⟨false, true, 0, table, [⟨2, 3802⟩]⟩ source [0, 1] [lookup] := by
    refine ⟨by decide, rfl, rfl, ?_, by decide, fun _ _ _ => rfl, ⟨1, 20⟩, by decide, by decide⟩
    intro i v col hv hcol
    rcases i with _ | _ | i
    · cases hv; cases hcol; rfl
    · cases hv; cases hcol; rfl
    · simp at hv
  have hnone : (tryPlanSubordinateJSONDirectUpdate (jsonOps sampleContext)
      ⟨false, true, 0, table, [⟨2, 3802⟩]⟩ source).1 = .noPlan none := by decide
  exact Prod.ext hnone ((tryPlan_keeps_source _ _ _ hplanned).2 none hnone)

end Ratel.Sql
