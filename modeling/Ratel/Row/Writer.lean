import Ratel.Row.JsonColumn
import Mathlib.Data.List.Sort

/- How rows are written (`EncodeSubordinateKeys` of `pkg/sql/rowenc`, `Inserter`,
   `Updater` and `Deleter` of `pkg/sql/row`). A row is a sentinel, the tuple of its
   columns, followed by its subordinate keys: a non-empty array has one per element and
   no place in the tuple, a JSON document one per node and a copy in the tuple.

   A table has one row group, as `tabledesc` builds them, and the columns listed here
   are those outside its primary key, whose values are in the key itself. Secondary
   indexes and the row size limit are left out. -/
namespace Ratel.Row

open Ratel.Lib Ratel.Encoding Ratel.Keys Ratel.Rowenc

inductive ColumnType
  | scalar
  | array
  | json
deriving DecidableEq, Repr

structure Column where
  id : UInt32
  name : Bytes
  typ : ColumnType
  nonNullable : Bool
deriving DecidableEq, Repr

/-- A table's public columns. Column ids start at 1. -/
structure Table where
  columns : List Column
  nodup : (columns.map Column.id).Nodup
  id_pos : ∀ c ∈ columns, c.id ≠ 0

/-- The values of a row by column id. -/
abbrev Values := UInt32 → Datum

/-! Subordinate entries. -/

/-- The value of an array element; `none` is `subordinateNullValue`. -/
def elementValue : Option Bytes → Value
  | none => .tuple []
  | some payload => .legacy payload

def arrayEntries (sentinelKey : Bytes) (colID : UInt32) (elems : List (Option Bytes)) : List Entry :=
  elems.zipIdx.map fun ei => (makeSubordinateKey sentinelKey colID (UInt32.ofNat ei.2), elementValue ei.1)

section Encode
variable (codec : JsonCodec) (table : Table) (primaryIndexKey : Bytes)

def columnEntries (col : Column) (datum : Datum) : List Entry :=
  let sentinelKey := makeFamilyKey primaryIndexKey 0
  match col.typ, datum with
  | .array, .array elems => arrayEntries sentinelKey col.id elems
  | .json, .json j => encodeJSONSubordinateEntriesAtPath codec [] sentinelKey col.id [.header] j
  | _, _ => []

def encodeSubordinateKeys (values : Values) : List Entry :=
  table.columns.flatMap fun col => columnEntries codec primaryIndexKey col (values col.id)

/-! The sentinel. -/

/-- Whether a value goes into the tuple: NULLs and non-empty arrays do not. -/
def inTuple (col : Column) : Datum → Bool
  | .null => false
  | .array elems => col.typ ≠ .array ∨ elems = []
  | _ => true

/-- `SortedColumnFamily`. -/
def sortedColumns : List Column := table.columns.insertionSort fun a b => a.id ≤ b.id

/-- The columns `prepareInsertOrUpdateBatch` encodes for row group 0. -/
def rowTuple (values : Values) : List (UInt32 × Datum) :=
  (sortedColumns table).filterMap fun col =>
    if inTuple col (values col.id) then some (col.id, values col.id) else none

/-! The write paths. -/

/-- `insertPutFn` or `insertCPutFn`. -/
def putFn (overwrite : Bool) (e : Entry) : Write Bytes Value :=
  if overwrite then .put e.1 e.2 else .cput e.1 e.2

def insertRow (values : Values) (overwrite : Bool) : Batch :=
  putFn overwrite (makeFamilyKey primaryIndexKey 0, .tuple (rowTuple table values)) ::
    (encodeSubordinateKeys codec table primaryIndexKey values).map (putFn overwrite)

/-- `updateValues` over `oldValues`. -/
def applyUpdates (oldValues : Values) (updates : List (UInt32 × Datum)) : Values :=
  updates.foldl (fun row cd => Function.update row cd.1 cd.2) oldValues

/-- Delete the old entries, save one that is in the same place in the new ones. -/
def deleteOldEntries : List Entry → List Entry → Batch
  | [], _ => []
  | old :: olds, [] => .del old.1 :: deleteOldEntries olds []
  | old :: olds, new :: news =>
    if old.1 = new.1 then deleteOldEntries olds news else .del old.1 :: deleteOldEntries olds news

/-- `Updater.UpdateRow` with an unchanged primary key; with a changed one it is
    `DeleteRow` of the old row and `InsertRow` of the new. -/
def updateRow (oldValues : Values) (updates : List (UInt32 × Datum)) : Batch :=
  let newValues := applyUpdates oldValues updates
  let newSubEntries := encodeSubordinateKeys codec table primaryIndexKey newValues
  let oldSubEntries := encodeSubordinateKeys codec table primaryIndexKey oldValues
  let update := table.columns.any fun col => col.id ∈ updates.map Prod.fst
  (if update ∨ table.columns = [] then
    [.put (makeFamilyKey primaryIndexKey 0) (.tuple (rowTuple table newValues))] else []) ++
    deleteOldEntries oldSubEntries newSubEntries ++
    newSubEntries.map fun e => .put e.1 e.2

end Encode

def deleteRow (primaryIndexKey : Bytes) : Batch :=
  [.delRange (makeSubordinateKey (makeFamilyKey primaryIndexKey 0) 0 0) (makeFamilyKey primaryIndexKey 1),
    .del (makeFamilyKey primaryIndexKey 0)]

end Ratel.Row
