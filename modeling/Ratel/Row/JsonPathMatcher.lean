import Ratel.Row.Builders
import Ratel.Strconv.Quote

/- Picking the subtree a query path addresses out of the stream of a document's
   subordinate entries (`pkg/sql/row/json_path_matcher.go`). A path is a list of encoded
   steps: `k:` with a quoted key, `i:` with an index and `p:` with a quoted key that on
   an array is an index. A path whose steps fix their segments is matched as a prefix;
   any other is resolved step by step as the containers it leads through go by, with a
   shortcut for entries whose segments match the steps as they are. -/
namespace Ratel.Row

open Ratel.Lib Ratel.Lib.Assoc Ratel.Encoding Ratel.Keys Ratel.Rowenc

/-! Steps. -/

/-- `subordinateJSONQueryPathStepKind`. -/
inductive PathStepKind
  | key
  | index
  | keyOrIndex
deriving DecidableEq, Repr

/-- `subordinateJSONQueryPathStep`. -/
structure PathStep where
  kind : PathStepKind
  value : Bytes
  index : Int
deriving DecidableEq, Repr

/-- `decodeSubordinateJSONQueryPathStep`. A key-or-index step that is no number has
    index 0. -/
def decodeSubordinateJSONQueryPathStep (enc : Bytes) : Except Err PathStep :=
  if enc.take 2 = [107, 58] then do
    let value ← Strconv.unquote (enc.drop 2)
    return ⟨.key, value, 0⟩
  else if enc.take 2 = [105, 58] then do
    let idx ← Strconv.atoi (enc.drop 2)
    return ⟨.index, [], idx⟩
  else if enc.take 2 = [112, 58] then do
    let value ← Strconv.unquote (enc.drop 2)
    match Strconv.atoi value with
    | .ok idx => return ⟨.keyOrIndex, value, idx⟩
    | .error _ => return ⟨.keyOrIndex, value, 0⟩
  else errorf "unknown subordinate JSON path step encoding %q" [.bytes enc]

/-- `uint32` of an index that is not negative. -/
def uint32Index (idx : Int) : Segment := .arrayIndex (UInt32.ofNat idx.toNat)

/-- The segment a step addresses in any document, if it does not depend on it. -/
def PathStep.staticSegment (step : PathStep) : Option Segment :=
  match step.kind with
  | .key => some (.objectKey step.value)
  | .index => if step.index < 0 then none else some (uint32Index step.index)
  | .keyOrIndex =>
    match Strconv.atoi step.value with
    | .ok _ => none
    | .error _ => some (.objectKey step.value)

def tryStaticSubordinateJSONPath : List Bytes → Except Err (Option Path)
  | [] => .ok (some [])
  | enc :: path => do
    let step ← decodeSubordinateJSONQueryPathStep enc
    match step.staticSegment with
    | none => return none
    | some seg =>
      let rest ← tryStaticSubordinateJSONPath path
      return rest.map (seg :: ·)

/-- `resolveSubordinateJSONPathStep`: the segment of a step in a container of the given
    kind and size. An object's member need not be there. -/
def resolveSubordinateJSONPathStep (containerKind : NodeKind) (childCount : Int) (step : PathStep) :
    Option Segment :=
  match containerKind with
  | .object => if step.kind = .index then none else some (.objectKey step.value)
  | .array =>
    if step.kind = .key then none
    else
      let idx := if step.index < 0 then childCount + step.index else step.index
      if idx < 0 ∨ childCount ≤ idx then none else some (uint32Index idx)
  | .scalar => none

/-- `matchObservedSubordinateJSONStep`: whether a segment is a step's as it is. A
    negative index is unresolved, which its caller takes for no match. -/
def matchObservedSubordinateJSONStep (step : PathStep) (observed : Segment) : Bool :=
  match step.kind with
  | .key => observed = .objectKey step.value
  | .index => 0 ≤ step.index ∧ observed = uint32Index step.index
  | .keyOrIndex =>
    match observed with
    | .objectKey k => k = step.value
    | .arrayIndex _ =>
      match Strconv.atoi step.value with
      | .ok idx => 0 ≤ idx ∧ observed = uint32Index idx
      | .error _ => false
    | .header => false

/-! The selector. -/

/-- `subordinateJSONPathSelector`. -/
structure Selector where
  queryPath : List PathStep := []
  staticTarget : Option Path := none
  targetPrefix : Path := []
  resolvedSteps : Nat := 0
  missing : Bool := false
  parseErr : Option Err := none
deriving DecidableEq, Repr

/-- `newSubordinateJSONPathSelector`. -/
def newSelector (path : List Bytes) : Selector :=
  match path.mapM decodeSubordinateJSONQueryPathStep with
  | .error err => { parseErr := some err }
  | .ok steps =>
    match tryStaticSubordinateJSONPath path with
    | .error err => { queryPath := steps, parseErr := some err }
    | .ok target => { queryPath := steps, staticTarget := target }

/-- `normalizeObservedSubordinateJSONPath`: the path from the root, which is the header
    alone for the root itself. -/
def normalizeObserved : Path → Path
  | .header :: s :: path => s :: path
  | path => path

/-- An entry of a document: where it is and what it says of the node there. -/
structure Observation where
  path : Path
  kind : NodeKind
  childCount : Int
  scalar : Option JSON
deriving DecidableEq, Repr

/-- The entries of a document stored at `path`, in key order. -/
def observations (path : Path) (j : JSON) : List Observation :=
  (j.nodes path).map fun pc => ⟨pc.1, nodeKind pc.2, pc.2.len, nodeScalar pc.2⟩

/-- The path below a selected subtree's root. -/
def relPath (target : Nat) (path : Path) : Path := .header :: path.drop target

namespace Selector

def tryDirectMatch (s : Selector) (path : Path) : Selector × Option Path :=
  if path = [] ∨ s.queryPath = [] then (s, none)
  else if ¬ (s.queryPath.zip path).all fun sp => matchObservedSubordinateJSONStep sp.1 sp.2 then (s, none)
  else if s.queryPath.length ≤ path.length then (s, some (relPath s.queryPath.length path))
  else if s.resolvedSteps < path.length then
    ({ s with targetPrefix := path, resolvedSteps := path.length }, none)
  else (s, none)

/-- The last part of `Observe`: whether the path is in the resolved subtree. -/
def inTarget (s : Selector) (path : Path) : Selector × Option Path :=
  if s.resolvedSteps ≠ s.queryPath.length ∨ ¬ s.targetPrefix <+: path then (s, none)
  else (s, some (relPath s.targetPrefix.length path))

/-- Resolve the next step at the container it applies to. -/
def resolveNext (s : Selector) (kind : NodeKind) (childCount : Int) : Selector :=
  match s.queryPath[s.resolvedSteps]?.bind (resolveSubordinateJSONPathStep kind childCount) with
  | none => { s with missing := true }
  | some seg => { s with targetPrefix := s.targetPrefix ++ [seg], resolvedSteps := s.resolvedSteps + 1 }

/-- The part of `Observe` for paths that are not matched as they are. -/
def observeResolving (s : Selector) (path : Path) (kind : NodeKind) (childCount : Int) : Selector × Option Path :=
  if path = [.header] then
    if s.resolvedSteps = 0 then ({ s with targetPrefix := [] }.resolveNext kind childCount, none) else (s, none)
  else if s.resolvedSteps = 0 then (s, none)
  else if s.resolvedSteps < s.queryPath.length ∧ path = s.targetPrefix then
    let s := s.resolveNext kind childCount
    if s.missing then (s, none) else s.inTarget path
  else s.inTarget path

/-- The direct match, or nothing in its place. -/
def shortcut (direct : Bool) (s : Selector) (path : Path) : Selector × Option Path :=
  if direct then s.tryDirectMatch path else (s, none)

/-- `Observe` once the query path is parsed, with or without the direct match: the selector
    after the entry, and the entry's path in the selected subtree if it is in it. -/
def selectBy (direct : Bool) (s : Selector) (o : Observation) : Selector × Option Path :=
  if s.missing then (s, none)
  else if s.queryPath = [] then (s, some o.path)
  else
    let path := normalizeObserved o.path
    match s.staticTarget with
    | some target => (s, if target <+: path then some (relPath target.length path) else none)
    | none =>
      match s.shortcut direct path with
      | (s, some rel) => (s, some rel)
      | (s, none) => s.observeResolving path o.kind o.childCount

def select (s : Selector) (o : Observation) : Selector × Option Path := s.selectBy true o

def observe (s : Selector) (o : Observation) : Except Err (Selector × Option Path) :=
  match s.parseErr with
  | some err => .error err
  | none => .ok (s.select o)

end Selector

/-! The matcher. -/

/-- `subordinateJSONPathMatcher`; there is no builder before the first match. -/
structure PathMatcher where
  selector : Selector
  builder : Option NodeBuilder := none

namespace PathMatcher

def new (path : List Bytes) : PathMatcher := { selector := newSelector path }

def observeSelected (m : PathMatcher) (o : Observation) : PathMatcher :=
  { m with builder := some ((m.builder.getD .empty).set o.path (o.kind, o.scalar)) }

def observe (m : PathMatcher) (o : Observation) : Except Err PathMatcher := do
  let (selector, rel) ← m.selector.observe o
  match rel with
  | none => return { m with selector := selector }
  | some path => return { m with selector := selector }.observeSelected { o with path := path }

/-- `Materialize`; `none` when nothing matched. -/
def materialize (m : PathMatcher) : Except Err (Option JSON) :=
  match m.builder with
  | none => .ok none
  | some b => some <$> b.materialize

def materializeText (apd : Apd) (m : PathMatcher) : Except Err (Option Bytes) := do
  let j ← m.materialize
  return j.bind (JSON.asText apd)

end PathMatcher

end Ratel.Row
