import Ratel.Json.Text

/- The scalar expressions over JSON columns that the planner recognises, and the SQL
   evaluator on them (`pkg/sql/sem/eval`, `pkg/sql/sem/builtins`). All operators here
   are strict: an operand that is NULL makes the result NULL, and operands after it are
   not evaluated. Constants stand for closed expressions, those the optimizer does not fold
   included. The planner looks through a cast within a type family
   (`stripTransparentTypedCasts`), whether it changes the value or not. -/
namespace Ratel.Sql

open Ratel.Lib Ratel.Encoding

/-- A value of the types these expressions have. -/
inductive SqlDatum
  | null
  | bool (b : Bool)
  | int (n : Int)
  | string (s : Bytes)
  | stringArray (elems : List (Option Bytes))
  | json (j : JSON)
deriving DecidableEq, Repr

/-- `types.Family`, of these values and of NULL. -/
inductive Family
  | unknown
  | bool
  | int
  | string
  | array
  | json
deriving DecidableEq, Repr

def SqlDatum.family : SqlDatum → Family
  | .null => .unknown
  | .bool _ => .bool
  | .int _ => .int
  | .string _ => .string
  | .stringArray _ => .array
  | .json _ => .json

/-- The type of a cast: its family and the width that types like `VARCHAR(2)` have. -/
structure CastType where
  family : Family
  width : Nat
deriving DecidableEq, Repr

/-- `treebin` and `treecmp` operators on JSON: `||`, `-`, `->`, `->>`, `#>`, `#>>`, `?`,
    `?|` and `?&`. -/
inductive BinaryOp
  | concat
  | minus
  | fetchVal
  | fetchText
  | fetchValPath
  | fetchTextPath
  | exists
  | someExists
  | allExists
deriving DecidableEq, Repr

/-- `tree.TypedExpr`. `jsonb_set` has an overload with and one without its flag. -/
inductive TypedExpr
  | indexedVar (idx : Nat)
  | const (d : SqlDatum)
  | cast (e : TypedExpr) (to_ : CastType)
  | binary (op : BinaryOp) (left right : TypedExpr)
  | jsonbArrayLength (arg : TypedExpr)
  | jsonbSet (target path to_ : TypedExpr)
  | jsonbSetCreate (target path to_ createMissing : TypedExpr)
deriving DecidableEq, Repr

/-! Evaluation. -/

def fetched : Option JSON → SqlDatum
  | some j => .json j
  | none => .null

def fetchedText (apd : Apd) (j : Option JSON) : SqlDatum :=
  match j.bind (JSON.asText apd) with
  | some text => .string text
  | none => .null

/-- `darrayToStringSlice`: a path without NULLs. -/
def stringPath (elems : List (Option Bytes)) : Option (List Bytes) := elems.mapM id

def getJSONPath (j : JSON) (elems : List (Option Bytes)) : Option JSON :=
  (stringPath elems).bind j.fetchPath

/-- Subtraction of `int8`s. -/
def subtract (a b : Int) : Except Err SqlDatum :=
  if a - b < - 2 ^ 63 ∨ 2 ^ 63 ≤ a - b then errorf "integer out of range" else .ok (.int (a - b))

/-- An operator on operands that are not NULL; others than these do not type-check. -/
def evalOp (apd : Apd) : BinaryOp → SqlDatum → SqlDatum → Except Err SqlDatum
  | .concat, .json a, .json b => .json <$> a.concat b
  | .minus, .json a, .string s => .json <$> a.removeString s
  | .minus, .json a, .int n => .json <$> a.removeIndex n
  | .minus, .json a, .stringArray ss =>
    .json <$> (ss.filterMap id).foldlM (fun j s => JSON.removeString j s) a
  | .minus, .int a, .int b => subtract a b
  | .fetchVal, .json a, .string s => .ok (fetched (a.fetchValKey s))
  | .fetchVal, .json a, .int n => .ok (fetched (a.fetchValIdx n))
  | .fetchText, .json a, .string s => .ok (fetchedText apd (a.fetchValKey s))
  | .fetchText, .json a, .int n => .ok (fetchedText apd (a.fetchValIdx n))
  | .fetchValPath, .json a, .stringArray ss => .ok (fetched (getJSONPath a ss))
  | .fetchTextPath, .json a, .stringArray ss => .ok (fetchedText apd (getJSONPath a ss))
  | .exists, .json a, .string s => .ok (.bool (a.hasKey s))
  | .someExists, .json a, .stringArray ss => .ok (.bool ((ss.filterMap id).any a.hasKey))
  | .allExists, .json a, .stringArray ss => .ok (.bool ((ss.filterMap id).all a.hasKey))
  | _, _, _ => errorf "unsupported binary operator"

def arrayLength : SqlDatum → Except Err SqlDatum
  | .json (.array xs) => .ok (.int xs.length)
  | .json (.object _) => errorf "cannot get array length of a non-array"
  | .json (.scalar _) => errorf "cannot get array length of a scalar"
  | _ => errorf "unknown signature"

/-- `checkHasNulls`, from position `i` on. -/
def checkHasNulls (i : Nat) : List (Option Bytes) → Except Err (List Bytes)
  | [] => .ok []
  | none :: _ => errorf "path element at position %d is null" [.int i]
  | some s :: rest => do
    let path ← checkHasNulls (i + 1) rest
    return s :: path

def jsonDatumSet : SqlDatum → SqlDatum → SqlDatum → SqlDatum → Except Err SqlDatum
  | .json target, .stringArray elems, .json to_, .bool createMissing => do
    let path ← checkHasNulls 1 elems
    let j ← target.deepSet path to_ createMissing
    return .json j
  | _, _, _, _ => errorf "unknown signature"

/-- Go on with an operand, or stop at NULL. -/
def strict (d : SqlDatum) (k : SqlDatum → Except Err SqlDatum) : Except Err SqlDatum :=
  if d = .null then .ok .null else k d

/-- What evaluation depends on. `cast` is `PerformCast`, of which only this is assumed: a
    document that is cast to its own family stays as it is. `varFamily` is the families of
    `IndexedVarResolvedType`. -/
structure EvalContext where
  apd : Apd
  cast : CastType → SqlDatum → Except Err SqlDatum
  cast_json : ∀ to_ j, to_.family = .json → cast to_ (.json j) = .ok (.json j)
  varFamily : Nat → Family

/-- `eval.Expr` on a row. -/
def evalExpr (ctx : EvalContext) (row : Nat → SqlDatum) : TypedExpr → Except Err SqlDatum
  | .indexedVar idx => .ok (row idx)
  | .const d => .ok d
  | .cast e to_ => do
    let a ← evalExpr ctx row e
    strict a (ctx.cast to_)
  | .binary op left right => do
    let a ← evalExpr ctx row left
    strict a fun a => do
      let b ← evalExpr ctx row right
      strict b fun b => evalOp ctx.apd op a b
  | .jsonbArrayLength arg => do
    let a ← evalExpr ctx row arg
    strict a arrayLength
  | .jsonbSet target path to_ => do
    let a ← evalExpr ctx row target
    strict a fun a => do
      let p ← evalExpr ctx row path
      strict p fun p => do
        let v ← evalExpr ctx row to_
        strict v fun v => jsonDatumSet a p v (.bool true)
  | .jsonbSetCreate target path to_ createMissing => do
    let a ← evalExpr ctx row target
    strict a fun a => do
      let p ← evalExpr ctx row path
      strict p fun p => do
        let v ← evalExpr ctx row to_
        strict v fun v => do
          let c ← evalExpr ctx row createMissing
          strict c fun c => jsonDatumSet a p v c

/-! Casts. -/

/-- The family of `ResolvedType`. -/
def TypedExpr.family (ctx : EvalContext) : TypedExpr → Family
  | .indexedVar idx => ctx.varFamily idx
  | .const d => d.family
  | .cast _ to_ => to_.family
  | .binary op left _ =>
    match op with
    | .concat | .fetchVal | .fetchValPath => .json
    | .minus => left.family ctx
    | .fetchText | .fetchTextPath => .string
    | .exists | .someExists | .allExists => .bool
  | .jsonbArrayLength _ => .int
  | .jsonbSet _ _ _ | .jsonbSetCreate _ _ _ _ => .json

def stripTransparentTypedCasts (ctx : EvalContext) : TypedExpr → TypedExpr
  | .cast e to_ => if e.family ctx = to_.family then stripTransparentTypedCasts ctx e else .cast e to_
  | e => e

section Strip
variable {ctx : EvalContext} {row : Nat → SqlDatum}

@[simp] theorem strip_strip (e : TypedExpr) :
    stripTransparentTypedCasts ctx (stripTransparentTypedCasts ctx e) = stripTransparentTypedCasts ctx e := by
  induction e with
  | cast e to_ ih =>
    rw [stripTransparentTypedCasts]
    split
    · exact ih
    · next h => rw [stripTransparentTypedCasts, if_neg h]
  | _ => rfl

end Strip

/-! Constants. -/

def containsIndexedVar : TypedExpr → Bool
  | .indexedVar _ => true
  | .const _ => false
  | .cast e _ => containsIndexedVar e
  | .binary _ left right => containsIndexedVar left || containsIndexedVar right
  | .jsonbArrayLength arg => containsIndexedVar arg
  | .jsonbSet target path to_ => containsIndexedVar target || containsIndexedVar path || containsIndexedVar to_
  | .jsonbSetCreate target path to_ createMissing => containsIndexedVar target || containsIndexedVar path ||
      containsIndexedVar to_ || containsIndexedVar createMissing

/-- `evalConstDatum`: the value of a closed expression, without its outer casts. -/
def evalConstDatum (ctx : EvalContext) (e : TypedExpr) : Except Err (Option SqlDatum) :=
  let e := stripTransparentTypedCasts ctx e
  if containsIndexedVar e then .ok none else some <$> evalExpr ctx (fun _ => .null) e

theorem containsIndexedVar_strip (ctx : EvalContext) (e : TypedExpr) :
    containsIndexedVar (stripTransparentTypedCasts ctx e) = containsIndexedVar e := by
  induction e with
  | cast e to_ ih =>
    rw [stripTransparentTypedCasts]
    split
    · exact ih
    · rfl
  | _ => rfl

/-- A closed expression has the same value on every row. -/
theorem evalExpr_closed (ctx : EvalContext) {e : TypedExpr} (h : containsIndexedVar e = false) (row row' : Nat → SqlDatum) :
    evalExpr ctx row e = evalExpr ctx row' e := by
  induction e with
  | indexedVar idx => simp [containsIndexedVar] at h
  | const d => rfl
  | cast e to_ ih => simp only [evalExpr, ih h]
  | binary op left right ihl ihr =>
    simp only [containsIndexedVar, Bool.or_eq_false_iff] at h
    simp only [evalExpr, ihl h.1, ihr h.2]
  | jsonbArrayLength arg ih => simp only [evalExpr, ih h]
  | jsonbSet target path to_ iht ihp ihv =>
    simp only [containsIndexedVar, Bool.or_eq_false_iff] at h
    simp only [evalExpr, iht h.1.1, ihp h.1.2, ihv h.2]
  | jsonbSetCreate target path to_ createMissing iht ihp ihv ihc =>
    simp only [containsIndexedVar, Bool.or_eq_false_iff] at h
    simp only [evalExpr, iht h.1.1.1, ihp h.1.1.2, ihv h.1.2, ihc h.2]

/-- What a constant was evaluated to is its value on every row, but for its casts. -/
theorem evalExpr_of_const {ctx : EvalContext} {e : TypedExpr} {d : SqlDatum} (h : evalConstDatum ctx e = .ok (some d))
    (row : Nat → SqlDatum) : evalExpr ctx row (stripTransparentTypedCasts ctx e) = .ok d := by
  rw [evalConstDatum] at h
  split at h
  · cases h
  rename_i hclosed
  obtain ⟨d', he, hd⟩ := exists_of_map_ok h
  cases hd
  rw [evalExpr_closed ctx (by simpa using hclosed) row fun _ => .null, he]

end Ratel.Sql
