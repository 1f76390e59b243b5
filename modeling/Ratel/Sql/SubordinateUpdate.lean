import Ratel.Row.RowRuns
import Ratel.Sql.Expr

/- UPDATEs of a JSON column that are executed as direct mutations
   (`pkg/sql/subordinate_json_update.go`). The planner recognises `j || v`, `j - key`,
   `j - (jsonb_array_length(j) - 1)` and `jsonb_set(j, path, v[, flag])`, folds the key,
   path and flag, and drops the column from the scan; each row then has its operation
   built from `v`'s value and applied to the column's subordinate keys.

   This agrees with evaluating the expression exactly when the column and the operands are
   not NULL, or the column and the value both are, and the casts that the planner looked
   through make no difference. A NULL key is taken for the empty key and a NULL path for the
   empty path, a NULL column is an error, a NULL value clears the subordinate keys but not
   the copy in the row's tuple, and a key or path is used as it was before a cast. -/
namespace Ratel.Sql

open Ratel.Lib Ratel.Encoding Ratel.Keys Ratel.Rowenc Ratel.Row

/-! The plan. -/

inductive MutationKind
  | concat
  | deleteKey
  | deleteLastArrayElement
  | setPath
deriving DecidableEq, Repr

/-- `subordinateJSONMutationPlan`; `hasValue` is `valueSourceIdx >= 0`. -/
structure MutationPlan where
  kind : MutationKind
  hasValue : Bool
  key : Bytes
  path : List Bytes
  createMissing : Bool
  nullOnValueNull : Bool
deriving DecidableEq, Repr

section Plan
variable (ctx : EvalContext)

/-- `extractJSONStringKeyFromTypedExpr`. NULL is accepted as the empty key. -/
def extractJSONStringKey (e : TypedExpr) : Except Err (Option Bytes) := do
  match ← evalConstDatum ctx e with
  | none => return none
  | some .null => return some []
  | some (.string s) => return some s
  | some _ => return none

/-- `extractJSONStringPathArray`. NULL is accepted as the empty path. -/
def extractJSONStringPathArray (e : TypedExpr) : Except Err (Option (List Bytes)) := do
  match ← evalConstDatum ctx e with
  | none => return none
  | some .null => return some []
  | some (.stringArray elems) => some <$> checkHasNulls 1 elems
  | some _ => return none

def isDeleteLastJSONArrayExpr (sourceIdx : Nat) (e : TypedExpr) : Bool :=
  match stripTransparentTypedCasts ctx e with
  | .binary .minus left right =>
    match stripTransparentTypedCasts ctx left with
    | .jsonbArrayLength arg => stripTransparentTypedCasts ctx arg = .indexedVar sourceIdx ∧
        evalConstDatum ctx right = .ok (some (.int 1))
    | _ => false
  | _ => false

/-- The plan of `jsonb_set` with the given path operand and flag. -/
def setPathPlan (path : List Bytes) (createMissing : Bool) : MutationPlan :=
  { kind := .setPath, hasValue := true, key := [], path := path, createMissing := createMissing,
    nullOnValueNull := true }

/-- `tryBuildSubordinateJSONMutationPlan`: the plan and the expression of its value. -/
def tryBuildSubordinateJSONMutationPlan (sourceIdx : Nat) (e : TypedExpr) :
    Except Err (Option (MutationPlan × Option TypedExpr)) :=
  match stripTransparentTypedCasts ctx e with
  | .binary .concat left right =>
    if stripTransparentTypedCasts ctx left ≠ .indexedVar sourceIdx ∨ containsIndexedVar right then return none
    else return some ({ kind := .concat, hasValue := true, key := [], path := [], createMissing := false,
                        nullOnValueNull := true }, some (stripTransparentTypedCasts ctx right))
  | .binary .minus left right =>
    if stripTransparentTypedCasts ctx left ≠ .indexedVar sourceIdx then return none
    else do
      match ← extractJSONStringKey ctx right with
      | some key => return some ({ kind := .deleteKey, hasValue := false, key := key, path := [],
                                   createMissing := false, nullOnValueNull := false }, none)
      | none =>
        if isDeleteLastJSONArrayExpr ctx sourceIdx right then
          return some ({ kind := .deleteLastArrayElement, hasValue := false, key := [], path := [],
                         createMissing := false, nullOnValueNull := false }, none)
        else return none
  | .jsonbSet target path to_ =>
    if stripTransparentTypedCasts ctx target ≠ .indexedVar sourceIdx then return none
    else do
      match ← extractJSONStringPathArray ctx path with
      | none => return none
      | some p =>
        if containsIndexedVar to_ then return none
        else return some (setPathPlan p true, some (stripTransparentTypedCasts ctx to_))
  | .jsonbSetCreate target path to_ flag =>
    if stripTransparentTypedCasts ctx target ≠ .indexedVar sourceIdx then return none
    else do
      match ← extractJSONStringPathArray ctx path with
      | none => return none
      | some p =>
        if containsIndexedVar to_ then return none
        else
          match ← evalConstDatum ctx flag with
          | some (.bool createMissing) =>
            return some (setPathPlan p createMissing, some (stripTransparentTypedCasts ctx to_))
          | _ => return none
  | _ => return none

/-- The expression that an accepted one is planned as: without the casts looked through. -/
def planned (sourceIdx : Nat) (e : TypedExpr) : TypedExpr :=
  match stripTransparentTypedCasts ctx e with
  | .binary .concat _ right => .binary .concat (.indexedVar sourceIdx) (stripTransparentTypedCasts ctx right)
  | .binary .minus _ right => .binary .minus (.indexedVar sourceIdx)
      (if isDeleteLastJSONArrayExpr ctx sourceIdx right then
        .binary .minus (.jsonbArrayLength (.indexedVar sourceIdx)) (.const (.int 1))
      else stripTransparentTypedCasts ctx right)
  | .jsonbSet _ path to_ => .jsonbSet (.indexedVar sourceIdx) (stripTransparentTypedCasts ctx path)
      (stripTransparentTypedCasts ctx to_)
  | .jsonbSetCreate _ path to_ flag => .jsonbSetCreate (.indexedVar sourceIdx) (stripTransparentTypedCasts ctx path)
      (stripTransparentTypedCasts ctx to_) (stripTransparentTypedCasts ctx flag)
  | e => e

/-! Execution. -/

/-- The operation of a plan once its value is known. -/
def MutationPlan.op (plan : MutationPlan) (value : JSON) : MutationOp :=
  match plan.kind with
  | .concat => .concat value
  | .deleteKey => .deleteKey plan.key
  | .deleteLastArrayElement => .deleteLastArrayElement
  | .setPath => .setPath plan.path value plan.createMissing

/-- `buildOp`: the operation, or `none` to set the column to NULL. A plan without a
    value has no use for one. -/
def MutationPlan.buildOp (plan : MutationPlan) (value : SqlDatum) : Except Err (Option MutationOp) :=
  if ¬ plan.hasValue then .ok (some (plan.op (.scalar .null)))
  else
    match value with
    | .null => if plan.nullOnValueNull then .ok none else errorf "NULL JSON mutation operand"
    | .json j => .ok (some (plan.op j))
    | _ => errorf "expected JSON datum at source index"

/-- The value rendered for the plan, NULL if it has none. The column is not scanned. -/
def evalValue : Option TypedExpr → Except Err SqlDatum
  | none => .ok .null
  | some e => evalExpr ctx (fun _ => .null) e

/-- Evaluate the plan's value, build the operation and run it on the row. -/
def executePlan (codec : JsonCodec) (pk : PrimaryKey) (colID : UInt32) (st : KV) (plan : MutationPlan)
    (value : Option TypedExpr) : Except Err KV := do
  let v ← evalValue ctx value
  match ← plan.buildOp v with
  | none => return runBatch st (clearSubordinateJSONColumn [] pk.bytes colID)
  | some op =>
    let batch ← updateSubordinateJSONRow codec st [] pk.bytes colID op
    return runBatch st batch

end Plan

def columnValue : Datum → SqlDatum
  | .json j => .json j
  | _ => .null

/-- An expression's value in the column. -/
def storedValue : SqlDatum → Datum
  | .json j => .json j
  | _ => .null

/-! What an accepted expression computes. -/

/-- The operand folded at planning: the key or the path. -/
def foldedOperand : TypedExpr → Option TypedExpr
  | .binary .minus _ right => some right
  | .jsonbSet _ path _ => some path
  | .jsonbSetCreate _ path _ _ => some path
  | _ => none

/-- The operand evaluated for each row: the right-hand side or the new value. -/
def valueOperand : TypedExpr → Option TypedExpr
  | .binary .concat _ right => some right
  | .jsonbSet _ _ to_ => some to_
  | .jsonbSetCreate _ _ to_ _ => some to_
  | _ => none

def foldedNull (ctx : EvalContext) (e : TypedExpr) : Bool :=
  match foldedOperand e with
  | some operand => evalConstDatum ctx operand = .ok (some .null)
  | none => false

/-- What the planned operation, taken as strict, makes of the column. -/
def strictResult (ctx : EvalContext) (e : TypedExpr) (plan : MutationPlan) : Datum → Except Err SqlDatum
  | .json j =>
    if foldedNull ctx e then .ok .null
    else
      match valueOperand e with
      | none => .json <$> applyGeneric j (plan.op (.scalar .null))
      | some operand => do
        match ← evalExpr ctx (fun _ => .null) operand with
        | .null => .ok .null
        | .json v => .json <$> applyGeneric j (plan.op v)
        | _ => errorf "unsupported binary operator"
  | _ => .ok .null

/-- An expression the planner accepts, with its plan: it computes the plan's operation,
    taken as strict, on any column value whose arrays have an `int8` for a length. -/
structure Accepted (ctx : EvalContext) (sourceIdx : Nat) (e : TypedExpr) (plan : MutationPlan) (value : Option TypedExpr) :
    Prop where
  value_eq : value = valueOperand e
  hasValue : plan.hasValue = value.isSome
  nullOnValueNull : plan.nullOnValueNull = plan.hasValue
  eval_eq : ∀ (row : Nat → SqlDatum) (current : Datum), row sourceIdx = columnValue current →
    (∀ xs, current = .json (.array xs) → xs.length < 2 ^ 63) →
    (evalExpr ctx row e).toOption = (strictResult ctx e plan current).toOption

section Accept
variable {ctx : EvalContext} {sourceIdx : Nat}

variable {e right : TypedExpr} {plan : MutationPlan}

theorem strictResult_null (h : foldedNull ctx e = true) (plan : MutationPlan) (j : JSON) :
    strictResult ctx e plan (.json j) = .ok .null := if_pos h

theorem strictResult_no_value (h : foldedNull ctx e = false) (hv : valueOperand e = none)
    (plan : MutationPlan) (j : JSON) :
    strictResult ctx e plan (.json j) = .json <$> applyGeneric j (plan.op (.scalar .null)) := by
  simp only [strictResult, h, hv, Bool.false_eq_true, if_false]

theorem strictResult_value {operand : TypedExpr} (h : foldedNull ctx e = false)
    (hv : valueOperand e = some operand) (plan : MutationPlan) (j : JSON) :
    strictResult ctx e plan (.json j) = (do
      match ← evalExpr ctx (fun _ => .null) operand with
      | .null => .ok .null
      | .json v => .json <$> applyGeneric j (plan.op v)
      | _ => errorf "unsupported binary operator") := by
  simp only [strictResult, h, hv, Bool.false_eq_true, if_false]

/-- It is enough to look at documents: on NULL both sides are NULL. -/
theorem Accepted.of_json {value : Option TypedExpr}
    (hvalue : value = valueOperand e) (hhas : plan.hasValue = value.isSome)
    (hnull : plan.nullOnValueNull = plan.hasValue)
    (hstrict : ∀ row, row sourceIdx = .null → evalExpr ctx row e = .ok .null)
    (hjson : ∀ row j, row sourceIdx = .json j → (∀ xs, j = .array xs → xs.length < 2 ^ 63) →
      (evalExpr ctx row e).toOption = (strictResult ctx e plan (.json j)).toOption) :
    Accepted ctx sourceIdx e plan value := by
  refine ⟨hvalue, hhas, hnull, fun row current hrow hlen => ?_⟩
  cases current with
  | json j => exact hjson row j hrow fun xs h => hlen xs (by rw [h])
  | null | scalar _ | array _ => rw [hstrict row hrow]; rfl

theorem accepted_concat (hclosed : containsIndexedVar right = false) :
    Accepted ctx sourceIdx (.binary .concat (.indexedVar sourceIdx) right)
      { kind := .concat, hasValue := true, key := [], path := [], createMissing := false, nullOnValueNull := true }
      (some right) := by
  refine .of_json rfl rfl rfl (fun row hrow => ?_) fun row j hrow _ => ?_
  · simp [evalExpr, hrow, strict]
  rw [strictResult_value rfl rfl]
  simp only [evalExpr, hrow, evalExpr_closed ctx hclosed row fun _ => .null]
  cases evalExpr ctx (fun _ => .null) right with
  | error err => rfl
  | ok d => cases d <;> rfl

@[simp] theorem evalConstDatum_strip (e : TypedExpr) :
    evalConstDatum ctx (stripTransparentTypedCasts ctx e) = evalConstDatum ctx e := by
  simp only [evalConstDatum, strip_strip]

/-- `j - key` and `j - (jsonb_array_length(j) - 1)`, if the operand computes as planned. -/
theorem accepted_minus (hplan : plan.hasValue = false)
    (hnull : plan.nullOnValueNull = false) (hstrip : stripTransparentTypedCasts ctx right = right)
    (hright : evalConstDatum ctx right ≠ .ok (some .null) → ∀ row j, row sourceIdx = .json j →
      (∀ xs, j = .array xs → xs.length < 2 ^ 63) →
      (evalExpr ctx row right >>= fun b => strict b fun b => evalOp ctx.apd .minus (.json j) b).toOption =
        (SqlDatum.json <$> applyGeneric j (plan.op (.scalar .null))).toOption) :
    Accepted ctx sourceIdx (.binary .minus (.indexedVar sourceIdx) right) plan none := by
  refine .of_json rfl hplan (hnull.trans hplan.symm) (fun row hrow => ?_) fun row j hrow hlen => ?_
  · simp [evalExpr, hrow, strict]
  have heval : evalExpr ctx row (.binary .minus (.indexedVar sourceIdx) right) =
      evalExpr ctx row right >>= fun b => strict b fun b => evalOp ctx.apd .minus (.json j) b := by
    simp only [evalExpr, hrow]
    rfl
  rw [heval]
  by_cases hc : evalConstDatum ctx right = .ok (some .null)
  · have hright := evalExpr_of_const hc row
    rw [hstrip] at hright
    rw [strictResult_null (by simpa [foldedNull, foldedOperand] using hc), hright]
    rfl
  · rw [strictResult_no_value (by simpa [foldedNull, foldedOperand] using hc) rfl]
    exact hright hc row j hrow hlen

theorem accepted_minus_key {key : Bytes} (hkey : extractJSONStringKey ctx right = .ok (some key)) :
    Accepted ctx sourceIdx (.binary .minus (.indexedVar sourceIdx) (stripTransparentTypedCasts ctx right))
      { kind := .deleteKey, hasValue := false, key := key, path := [], createMissing := false,
        nullOnValueNull := false } none := by
  refine accepted_minus rfl rfl (strip_strip right) fun hne row j _ _ => ?_
  rw [evalConstDatum_strip] at hne
  obtain ⟨d, hc, hd⟩ := exists_of_bind_ok hkey
  split at hd
  · cases hd
  · exact absurd hc hne
  · cases hd
    rw [evalExpr_of_const hc]
    rfl
  · cases hd

theorem accepted_deleteLast :
    Accepted ctx sourceIdx (.binary .minus (.indexedVar sourceIdx)
        (.binary .minus (.jsonbArrayLength (.indexedVar sourceIdx)) (.const (.int 1))))
      { kind := .deleteLastArrayElement, hasValue := false, key := [], path := [], createMissing := false,
        nullOnValueNull := false } none := by
  refine accepted_minus rfl rfl rfl fun _ row j hrow hlen => ?_
  simp only [evalExpr, hrow]
  cases j with
  | scalar s => rfl
  | object kvs => rfl
  | array xs =>
    have hsub : subtract (xs.length : Int) 1 = .ok (.int ((xs.length : Int) - 1)) := by
      have := hlen xs rfl
      rw [subtract, if_neg (by omega)]
    show (subtract (xs.length : Int) 1 >>= _).toOption = _
    rw [hsub]
    rfl

/-- A folded path is NULL or the path of an array without NULLs. -/
theorem extractJSONStringPathArray_eq {path : TypedExpr} {p : List Bytes}
    (h : extractJSONStringPathArray ctx path = .ok (some p)) :
    evalConstDatum ctx path = .ok (some .null) ∨
      ∃ elems, evalConstDatum ctx path = .ok (some (.stringArray elems)) ∧ checkHasNulls 1 elems = .ok p := by
  obtain ⟨d, hc, hd⟩ := exists_of_bind_ok h
  split at hd
  · cases hd
  · exact .inl hc
  · rename_i elems
    obtain ⟨p', hp, hp'⟩ := exists_of_map_ok hd
    cases hp'
    exact .inr ⟨elems, hc, hp⟩
  · cases hd

/-- `jsonb_set` with either signature, once its flag is known. -/
theorem accepted_set {path to_ : TypedExpr} {p : List Bytes} {createMissing : Bool}
    (hvalue : valueOperand e = some to_) (hfolded : foldedOperand e = some (stripTransparentTypedCasts ctx path))
    (hp : extractJSONStringPathArray ctx path = .ok (some p)) (hclosed : containsIndexedVar to_ = false)
    (hstrict : ∀ row, row sourceIdx = .null → evalExpr ctx row e = .ok .null)
    (hjson : ∀ row j, row sourceIdx = .json j → evalExpr ctx row e =
      (evalExpr ctx row (stripTransparentTypedCasts ctx path) >>= fun p => strict p fun p => evalExpr ctx row to_ >>= fun v =>
        strict v fun v => jsonDatumSet (.json j) p v (.bool createMissing))) :
    Accepted ctx sourceIdx e (setPathPlan p createMissing) (some to_) := by
  refine .of_json hvalue.symm rfl rfl hstrict fun row j hrow _ => ?_
  rw [hjson row j hrow]
  rcases extractJSONStringPathArray_eq hp with hc | ⟨elems, hc, helems⟩
  · rw [strictResult_null (by simp [foldedNull, hfolded, hc]), evalExpr_of_const hc]
    rfl
  rw [strictResult_value (by simp [foldedNull, hfolded, hc]) hvalue, evalExpr_of_const hc]
  simp only [bind_ok, strict, reduceCtorEq, evalExpr_closed ctx hclosed row fun _ => .null]
  cases evalExpr ctx (fun _ => .null) to_ with
  | error err => rfl
  | ok d =>
    cases d with
    | json v =>
      simp only [bind_ok, jsonDatumSet, helems, reduceCtorEq]
      rfl
    | _ => rfl

/-- An operand with the column in it is no key. -/
theorem not_deleteLast_of_key (sourceIdx : Nat) {key : Bytes} (hkey : extractJSONStringKey ctx right = .ok (some key)) :
    isDeleteLastJSONArrayExpr ctx sourceIdx right = false := by
  by_contra hdel
  rw [Bool.not_eq_false, isDeleteLastJSONArrayExpr] at hdel
  obtain ⟨d, hc, hd⟩ := exists_of_bind_ok hkey
  split at hdel
  · next left right' hstrip =>
    split at hdel
    · next arg hleft =>
      simp only [decide_eq_true_eq] at hdel
      have hvar : containsIndexedVar (stripTransparentTypedCasts ctx right) = true := by
        rw [hstrip, containsIndexedVar, ← containsIndexedVar_strip ctx left, hleft, containsIndexedVar,
          ← containsIndexedVar_strip ctx arg, hdel.1]
        rfl
      rw [evalConstDatum, if_pos hvar] at hc
      cases hc
      cases hd
    · cases hdel
  · cases hdel

/-- What the planner accepts below the outer casts. -/
inductive Shape (ctx : EvalContext) (sourceIdx : Nat) : TypedExpr → Prop
  | concat {left right : TypedExpr} (hleft : stripTransparentTypedCasts ctx left = .indexedVar sourceIdx)
      (hclosed : containsIndexedVar right = false) : Shape ctx sourceIdx (.binary .concat left right)
  | minus {left right : TypedExpr} (hleft : stripTransparentTypedCasts ctx left = .indexedVar sourceIdx) :
      Shape ctx sourceIdx (.binary .minus left right)
  | set {target path to_ : TypedExpr} (htarget : stripTransparentTypedCasts ctx target = .indexedVar sourceIdx)
      (hclosed : containsIndexedVar to_ = false) : Shape ctx sourceIdx (.jsonbSet target path to_)
  | setCreate {target path to_ flag : TypedExpr}
      (htarget : stripTransparentTypedCasts ctx target = .indexedVar sourceIdx)
      (hclosed : containsIndexedVar to_ = false) : Shape ctx sourceIdx (.jsonbSetCreate target path to_ flag)

/-- Every expression the planner accepts is planned as one that computes its operation. -/
theorem tryBuild_accepted {value : Option TypedExpr}
    (h : tryBuildSubordinateJSONMutationPlan ctx sourceIdx e = .ok (some (plan, value))) :
    Shape ctx sourceIdx (stripTransparentTypedCasts ctx e) ∧
      Accepted ctx sourceIdx (planned ctx sourceIdx e) plan value := by
  unfold tryBuildSubordinateJSONMutationPlan at h
  unfold planned
  generalize stripTransparentTypedCasts ctx e = stripped at h ⊢
  have hstripped : ∀ to_, containsIndexedVar to_ = false →
      containsIndexedVar (stripTransparentTypedCasts ctx to_) = false := fun to_ hto => by
    rw [containsIndexedVar_strip, hto]
  split at h
  · -- `j || v`
    obtain ⟨hcond, hplan⟩ := of_ite_ne h nofun
    simp only [not_or, not_not, Bool.not_eq_true] at hcond
    cases hplan
    exact ⟨.concat hcond.1 hcond.2, accepted_concat (hstripped _ hcond.2)⟩
  · -- `j - key` and `j - (jsonb_array_length(j) - 1)`
    obtain ⟨hleft, hplan⟩ := of_ite_ne h nofun
    obtain ⟨key, hk, h⟩ := exists_of_bind_ok hplan
    refine ⟨.minus (not_not.mp hleft), ?_⟩
    cases key with
    | some key =>
      cases h
      have hdel := not_deleteLast_of_key sourceIdx hk
      simp only [hdel]
      exact accepted_minus_key hk
    | none =>
      simp only at h
      split at h
      · next hdel =>
        cases h
        simp only [hdel]
        exact accepted_deleteLast
      · cases h
  · -- `jsonb_set(j, path, v)`
    obtain ⟨htarget, hplan⟩ := of_ite_ne h nofun
    obtain ⟨p, hp, h⟩ := exists_of_bind_ok hplan
    cases p with
    | none => cases h
    | some p =>
      obtain ⟨hclosed, h⟩ := of_ite_ne h nofun
      cases h
      have hclosed' := Bool.eq_false_iff.mpr hclosed
      refine ⟨.set (not_not.mp htarget) hclosed', accepted_set rfl rfl hp (hstripped _ hclosed')
        (fun row hrow => ?_) fun row j hrow => ?_⟩
      · simp [evalExpr, hrow, strict]
      · simp only [evalExpr, hrow]
        rfl
  · -- `jsonb_set(j, path, v, flag)`
    obtain ⟨htarget, hplan⟩ := of_ite_ne h nofun
    obtain ⟨p, hp, h⟩ := exists_of_bind_ok hplan
    cases p with
    | none => cases h
    | some p =>
      obtain ⟨hclosed, h⟩ := of_ite_ne h nofun
      obtain ⟨f, hf, h⟩ := exists_of_bind_ok h
      have hclosed' := Bool.eq_false_iff.mpr hclosed
      split at h
      · cases h
        refine ⟨.setCreate (not_not.mp htarget) hclosed', accepted_set rfl rfl hp (hstripped _ hclosed')
          (fun row hrow => ?_) fun row j hrow => ?_⟩
        · simp [evalExpr, hrow, strict]
        · simp only [evalExpr, hrow, evalExpr_of_const hf]
          rfl
      · cases h
  · cases h

end Accept

/-! What the casts can change. -/

section Casts
variable {ctx : EvalContext} {sourceIdx : Nat} (hvar : ctx.varFamily sourceIdx = .json)
  {e stripped : TypedExpr} {row : Nat → SqlDatum}

include hvar

variable {current : Datum} (hrow : row sourceIdx = columnValue current) (h : Shape ctx sourceIdx stripped)
include hrow h

omit hvar hrow h in
theorem Shape.of_planned (h : Shape ctx sourceIdx (stripTransparentTypedCasts ctx e)) :
    Shape ctx sourceIdx (planned ctx sourceIdx e) := by
  unfold planned
  generalize stripTransparentTypedCasts ctx e = stripped at h ⊢
  cases h with
  | concat _ hclosed => exact .concat rfl (by rw [containsIndexedVar_strip, hclosed])
  | minus _ => exact .minus rfl
  | set _ hclosed => exact .set rfl (by rw [containsIndexedVar_strip, hclosed])
  | setCreate _ hclosed => exact .setCreate rfl (by rw [containsIndexedVar_strip, hclosed])

end Casts

/-! Executed and evaluated. -/

section Compare
variable (ctx : EvalContext) (codec : JsonCodec) (table : Table) (pk : PrimaryKey)

/-- Whether executing the plan does what evaluating the expression to `result` should:
    both fail, or the row is read with the result in the column. -/
def Leaves (st : KV) (row : Values) (col : Column) (plan : MutationPlan) (value : Option TypedExpr)
    (result : Except Err SqlDatum) : Prop :=
  match result with
  | .error _ => ∃ err, executePlan ctx codec pk col.id st plan value = .error err
  | .ok d => ∃ st', executePlan ctx codec pk col.id st plan value = .ok st' ∧ readRowDecoded codec table pk.bytes st' =
        .ok (some (table.columns.map fun c => Function.update row col.id (storedValue d) c.id))

end Compare

section Compare
variable {ctx : EvalContext} {codec : JsonCodec} {table : Table} {pk : PrimaryKey} {st : KV} {row : Values} {col : Column}
  {plan : MutationPlan} {value : Option TypedExpr}

variable (h : Represents codec table pk st (some row)) (hcol : col ∈ table.columns)

include h hcol

variable {j : JSON} (htyp : col.typ = .json) (hj : row col.id = .json j)
  (hvalid : ∀ v op, evalValue ctx value = .ok v → plan.buildOp v = .ok (some op) →
    op.WF ∧ Storable col (mutated op (row col.id)))

include htyp hj hvalid

end Compare

section Planned
variable {ctx : EvalContext} {codec : JsonCodec} {table : Table} {pk : PrimaryKey} {st : KV} {row : Values}
  (hrow : Represents codec table pk st (some row)) {col : Column} (hcol : col ∈ table.columns)
  (htyp : col.typ = .json) {sourceIdx : Nat} {exprRow : Nat → SqlDatum}
  (hexpr : exprRow sourceIdx = columnValue (row col.id)) {e : TypedExpr} {plan : MutationPlan}
  {value : Option TypedExpr} (hacc : Accepted ctx sourceIdx e plan value)
  (hvalid : ∀ v op, evalValue ctx value = .ok v → plan.buildOp v = .ok (some op) →
    op.WF ∧ Storable col (mutated op (row col.id)))
include hrow hcol hexpr hacc

include htyp hvalid

end Planned

/-- A context whose columns are JSON and whose casts cut strings to their width. -/
def sampleContext : EvalContext where
  apd := plainApd
  cast
    | ⟨.string, width⟩, .string s => .ok (.string (s.take width))
    | _, d => .ok d
  cast_json to_ j h := by simp
  varFamily _ := .json

end Ratel.Sql
