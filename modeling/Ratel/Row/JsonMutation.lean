import Ratel.Lib.Store
import Ratel.Row.Builders

/- Direct updates of a stored JSON column (`pkg/sql/row/subordinate_json_mutation.go`).
   `UpdateSubordinateJSONRow` reads the column's root header and, for the common
   shapes, edits only the affected subtrees and headers; otherwise it reads the whole
   document, changes it in memory and rewrites the column. `ClearSubordinateJSONColumn`
   deletes the column's keys. Reads see the transaction's state, writes go to a batch.

   The checks at the head of the two functions (that the statement fetched the column
   and writes only the primary index) are established by the planner and left out. -/
namespace Ratel.Row

open Ratel.Lib Ratel.Lib.Assoc Ratel.Encoding Ratel.Keys Ratel.Rowenc

/-- The key-value store as rows see it. -/
abbrev KV := Store Bytes Value

/-- `kv.Batch`: the requests so far. -/
abbrev Batch := List (Write Bytes Value)

/-- `SubordinateJSONMutationOp`, by kind. -/
inductive MutationOp
  | concat (value : JSON)
  | deleteKey (key : Bytes)
  | deleteLastArrayElement
  | setPath (path : List Bytes) (value : JSON) (createMissing : Bool)
deriving Repr

/-- `applyGenericSubordinateJSONMutation`: the operation on the document in memory. -/
def applyGeneric (current : JSON) : MutationOp → Except Err JSON
  | .concat value => current.concat value
  | .deleteKey key => current.removeString key
  | .deleteLastArrayElement =>
    match current with
    | .array xs => current.removeIndex ((xs.length : Int) - 1)
    | .object _ => errorf "cannot get array length of a non-array"
    | .scalar _ => errorf "cannot get array length of a scalar"
  | .setPath path value createMissing => current.deepSet path value createMissing

def deleteSubordinatePrefix (batch : Batch) (pre : Bytes) : Batch :=
  batch ++ [.delRange pre (prefixEnd pre)]

/-- `deleteSubordinateExactSubtree`; the source panics when the key does not decode. -/
def deleteSubordinateExactSubtree (batch : Batch) (exactKey : Bytes) : Except Err Batch := do
  let (rowPrefix, colID, path) ← decodeSubordinatePathKey exactKey
  return deleteSubordinatePrefix batch (makeSubordinatePathPrefix (makeFamilyKey rowPrefix 0) colID path)

def readSubordinateJSONValue (codec : JsonCodec) (st : KV) (columnPrefix : Bytes) : Except Err JSON :=
  buildFrom codec (st.scan columnPrefix (prefixEnd columnPrefix))

section Local
variable (codec : JsonCodec) (st : KV) (rowKey : Bytes) (colID : UInt32)

def putSubordinateJSONSubtree (batch : Batch) (path : Path) (j : JSON) : Batch :=
  batch ++ (encodeJSONSubordinateEntriesAtPath codec [] rowKey colID path j).map fun e => .put e.1 e.2

def putSubordinateJSONHeader (batch : Batch) (path : Path) (kind : NodeKind) (childCount : Int) :
    Except Err Batch := do
  let val ← encodeSubordinateJSONContainerValue kind childCount
  return batch ++ [.put (makeSubordinatePathKey rowKey colID path) val]

/-- Read the exact key of `path`. -/
def getExact (path : Path) : Option Value := st.get (makeSubordinatePathKey rowKey colID path)

/-- The step the local paths share: put `value` at `childPath`, over the subtree there
    or as one more child. -/
def putChild (batch : Batch) (childPath : Path) (value : JSON) (count : Int) : Except Err (Batch × Int) :=
  if (getExact st rowKey colID childPath).isSome then do
    let batch ← deleteSubordinateExactSubtree batch (makeSubordinatePathKey rowKey colID childPath)
    return (putSubordinateJSONSubtree codec rowKey colID batch childPath value, count)
  else return (putSubordinateJSONSubtree codec rowKey colID batch childPath value, count + 1)

/-- Rewrite a container's header when its child count changed. -/
def putHeaderIfChanged (batch : Batch) (path : Path) (kind : NodeKind) (oldCount newCount : Int) :
    Except Err Batch :=
  if newCount ≠ oldCount then putSubordinateJSONHeader rowKey colID batch path kind newCount
  else return batch

def applyLocalRootObjectConcat (batch : Batch) (rootCount : Int) (right : List (Bytes × JSON)) :
    Except Err Batch := do
  let (batch, newCount) ← right.foldlM (fun bc kv =>
    putChild codec st rowKey colID bc.1 [.header, .objectKey kv.1] kv.2 bc.2) (batch, rootCount)
  putHeaderIfChanged rowKey colID batch [.header] .object rootCount newCount

def applyLocalRootObjectDeleteKey (batch : Batch) (rootCount : Int) (key : Bytes) : Except Err Batch :=
  if (getExact st rowKey colID [.header, .objectKey key]).isSome then do
    let batch ← deleteSubordinateExactSubtree batch (makeSubordinatePathKey rowKey colID [.header, .objectKey key])
    putSubordinateJSONHeader rowKey colID batch [.header] .object (rootCount - 1)
  else return batch

/-- Set a member of the object at `path`, which has `count` members. -/
def setObjectKey (batch : Batch) (path : Path) (count : Int) (key : Bytes) (value : JSON)
    (createMissing : Bool) : Except Err Batch :=
  let childPath := path ++ [.objectKey key]
  if (getExact st rowKey colID childPath).isNone ∧ ¬ createMissing then return batch
  else do
    let (batch, newCount) ← putChild codec st rowKey colID batch childPath value count
    putHeaderIfChanged rowKey colID batch path .object count newCount

def applyLocalRootObjectSetKey (batch : Batch) (rootCount : Int) (key : Bytes) (value : JSON)
    (createMissing : Bool) : Except Err Batch :=
  setObjectKey codec st rowKey colID batch [.header] rootCount key value createMissing

def applyLocalRootArrayAppend (batch : Batch) (rootCount : Int) (right : List JSON) : Except Err Batch :=
  let batch := right.zipIdx.foldl (fun batch xi => putSubordinateJSONSubtree codec rowKey colID batch
    [.header, .arrayIndex (UInt32.ofNat (rootCount + xi.2).toNat)] xi.1) batch
  putSubordinateJSONHeader rowKey colID batch [.header] .array (rootCount + right.length)

def applyLocalRootArrayDeleteLast (batch : Batch) (rootCount : Int) : Except Err Batch :=
  if rootCount = 0 then return batch
  else do
    let batch ← deleteSubordinateExactSubtree batch (makeSubordinatePathKey rowKey colID
      [.header, .arrayIndex (UInt32.ofNat (rootCount - 1).toNat)])
    putSubordinateJSONHeader rowKey colID batch [.header] .array (rootCount - 1)

/-- `applyLocalRootArrayObjectKeySet`; `none` is its fallback error. -/
def applyLocalRootArrayObjectKeySet (batch : Batch) (rootCount idx : Int) (key : Bytes) (value : JSON)
    (createMissing : Bool) : Except Err (Option Batch) :=
  if idx ≥ rootCount then return some batch
  else
    let elemPath : Path := [.header, .arrayIndex (UInt32.ofNat idx.toNat)]
    match getExact st rowKey colID elemPath with
    | none => return some batch
    | some v => do
      let (elemKind, elemCount, _) ← decodeSubordinateJSONValueWithCardinality codec v
      if elemKind ≠ .object then return none
      else
        let batch ← setObjectKey codec st rowKey colID batch elemPath elemCount key value createMissing
        return some batch

/-- `tryApplyLocalSubordinateJSONMutation`: the batch, or `none` when no local path
    applies. -/
def tryApplyLocal (batch : Batch) (op : MutationOp) : Except Err (Option Batch) :=
  match getExact st rowKey colID [.header] with
  | none => return none
  | some header => do
    let (rootKind, rootCount, _) ← decodeSubordinateJSONValueWithCardinality codec header
    match op with
    | .concat (.object right) =>
      if rootKind = .object then
        some <$> applyLocalRootObjectConcat codec st rowKey colID batch rootCount right
      else return none
    | .concat (.array right) =>
      if rootKind = .array then
        some <$> applyLocalRootArrayAppend codec rowKey colID batch rootCount right
      else return none
    | .concat (.scalar _) => return none
    | .deleteKey key =>
      if rootKind = .object then
        some <$> applyLocalRootObjectDeleteKey st rowKey colID batch rootCount key
      else return none
    | .deleteLastArrayElement =>
      if rootKind = .array then some <$> applyLocalRootArrayDeleteLast rowKey colID batch rootCount
      else return none
    | .setPath [key] value createMissing =>
      if rootKind = .object then
        some <$> applyLocalRootObjectSetKey codec st rowKey colID batch rootCount key value createMissing
      else return none
    | .setPath [elem, key] value createMissing =>
      if rootKind = .array then
        match Strconv.atoi elem with
        | .error _ => return none
        | .ok idx =>
          if idx < 0 then return none
          else applyLocalRootArrayObjectKeySet codec st rowKey colID batch rootCount idx key value createMissing
      else return none
    | .setPath _ _ _ => return none

end Local

/-- `UpdateSubordinateJSONRow` on the row with the given primary key. -/
def updateSubordinateJSONRow (codec : JsonCodec) (st : KV) (batch : Batch) (primaryIndexKey : Bytes)
    (colID : UInt32) (op : MutationOp) : Except Err Batch := do
  let rowKey := makeFamilyKey primaryIndexKey 0
  let columnPrefix := makeSubordinatePathPrefix rowKey colID []
  match ← tryApplyLocal codec st rowKey colID batch op with
  | some batch => return batch
  | none =>
    let current ← readSubordinateJSONValue codec st columnPrefix
    let next ← applyGeneric current op
    return putSubordinateJSONSubtree codec rowKey colID (deleteSubordinatePrefix batch columnPrefix) [.header] next

def clearSubordinateJSONColumn (batch : Batch) (primaryIndexKey : Bytes) (colID : UInt32) : Batch :=
  deleteSubordinatePrefix batch (makeSubordinatePathPrefix (makeFamilyKey primaryIndexKey 0) colID [])

end Ratel.Row
