import Ratel.Row.Writer

/- How rows are read (`pkg/sql/row/fetcher.go`): `processKV` takes the tuple of the
   sentinel apart and hands subordinate keys to a builder of their column, and
   `finalizeRow` puts what the builders give over the tuple's values and NULL where
   nothing was found, as far as it gets. `NextRow` returns columns that may be unset;
   `NextRowDecoded` takes those as NULL. All columns of the table are fetched, without
   filters or pushed down accesses, whose columns are read by other means. -/
namespace Ratel.Row

open Ratel.Lib Ratel.Encoding Ratel.Keys Ratel.Rowenc

/-- An entry of `subordinateArrays` or `subordinateJSONBuilders`. -/
inductive ColumnBuilder
  | array (b : ArrayBuilder)
  | json (b : NodeBuilder)

/-- The column's array builder, a new one if there is none. -/
def arrayBuilder : Option ColumnBuilder → ArrayBuilder
  | some (.array b) => b
  | _ => []

/-- The column's JSON builder, a new one if there is none. -/
def nodeBuilder : Option ColumnBuilder → NodeBuilder
  | some (.json b) => b
  | _ => NodeBuilder.empty

structure FetchState where
  row : UInt32 → Option Datum
  valueColsFound : Nat
  builders : UInt32 → Option ColumnBuilder

/-- A new row: nothing set. -/
def FetchState.init : FetchState := ⟨fun _ => none, 0, fun _ => none⟩

section Fetch
variable (codec : JsonCodec) (table : Table) (primaryIndexKey : Bytes)

/-- `colIdxMap`. -/
def Table.column? (colID : UInt32) : Option Column := table.columns.find? fun col => col.id = colID

def Table.neededValueCols : Nat := table.columns.length

/-- `processValueBytes`: the tuple's columns, until all needed ones are found. -/
def processValueBytes : List (UInt32 × Datum) → FetchState → FetchState
  | [], s => s
  | (colID, datum) :: rest, s =>
    if s.valueColsFound < table.neededValueCols then
      match table.column? colID with
      | none => processValueBytes rest s
      | some col =>
        processValueBytes rest { s with
          row := Function.update s.row col.id (some datum)
          valueColsFound := s.valueColsFound + 1 }
    else s

/-- `UnmarshalLegacy`, or NULL. -/
def elementOfValue : Value → Except Err (Option Bytes)
  | .tuple [] => .ok none
  | .legacy payload => .ok (some payload)
  | _ => errorf "decoding subordinate key value"

/-- Column and path of a subordinate key, in the older format of array elements if
    the key does not decode. -/
def decodeSubordinate (key remaining : Bytes) : Except Err (UInt32 × Path) :=
  match decodeSubordinatePathKey key with
  | .ok (_, colID, path) => .ok (colID, path)
  | .error _ => do
    let (remaining, colID) ← wrap "decoding subordinate key column ID" (decodeUvarintAscending remaining)
    let (_, elemIdx) ← wrap "decoding subordinate key element index" (decodeUvarintAscending remaining)
    return (UInt32.ofNat colID, [.arrayIndex (UInt32.ofNat elemIdx)])

def columnStep (col : Column) (b : Option ColumnBuilder) (path : Path) (v : Value) : Except Err ColumnBuilder :=
  match col.typ with
  | .array =>
    match path with
    | [.arrayIndex elemIdx] => do
      let elem ← elementOfValue v
      return .array ((arrayBuilder b).set elemIdx.toNat elem)
    | _ => errorf "invalid subordinate array path for column %q" [.bytes col.name]
  | .json => do
    let (kind, _, scalar) ← decodeSubordinateJSONValueWithCardinality codec v
    return .json ((nodeBuilder b).set path (kind, scalar))
  | .scalar => errorf "column %q has unsupported subordinate-encoded type" [.bytes col.name]

def processSubordinateKV (s : FetchState) (e : Entry) (remaining : Bytes) : Except Err FetchState := do
  let (colID, path) ← decodeSubordinate e.1 remaining
  match table.column? colID with
  | none => return s
  | some col =>
    let b ← columnStep codec col (s.builders col.id) path e.2
    return { s with builders := Function.update s.builders col.id (some b) }

/-- `processKV`. `keyRemainingBytes` is what follows the primary key's columns. -/
def processKV (s : FetchState) (e : Entry) : Except Err FetchState :=
  let keyRemainingBytes := e.1.drop primaryIndexKey.length
  match decodeUvarintAscending keyRemainingBytes with
  | .ok (c :: remaining, 0) => processSubordinateKV codec table s e (c :: remaining)
  | _ =>
    match e.2 with
    | .tuple columns => .ok (processValueBytes table columns s)
    | _ => .ok s

def ColumnBuilder.materialize : ColumnBuilder → Except Err Datum
  | .array b => Datum.array <$> b.materialize
  | .json b => Datum.json <$> b.materialize

/-- Put what the column's builder holds, if it has one, in the row. -/
def finalizeColumn (s : FetchState) (col : Column) : Except Err FetchState :=
  match s.builders col.id with
  | none => .ok s
  | some b => do
    let datum ← b.materialize
    return { s with row := Function.update s.row col.id (some datum), valueColsFound := s.valueColsFound + 1 }

/-- The loop that fills in missing values with NULLs. It ends early when as many
    columns were found as are needed; a JSON document counts twice. -/
def fillNulls : List Column → FetchState → Except Err FetchState
  | [], s => .ok s
  | col :: cols, s =>
    if s.valueColsFound = table.neededValueCols then .ok s
    else if (s.row col.id).isNone then
      if col.nonNullable then errorf "Non-nullable column %q with no value!" [.bytes col.name]
      else
        fillNulls cols { s with
          row := Function.update s.row col.id (some .null)
          valueColsFound := s.valueColsFound + 1 }
    else fillNulls cols s

def finalizeRow (s : FetchState) : Except Err FetchState := do
  let s ← table.columns.foldlM finalizeColumn s
  fillNulls table table.columns s

/-- `NextRow` on the key-value pairs of one row: `none` is an unset column. -/
def nextRow (kvs : List Entry) : Except Err (Option (List (Option Datum))) :=
  match kvs with
  | [] => .ok none
  | _ => do
    let s ← kvs.foldlM (processKV codec table primaryIndexKey) FetchState.init
    let s ← finalizeRow table s
    return some (table.columns.map fun col => s.row col.id)

def readRow (st : KV) : Except Err (Option (List (Option Datum))) :=
  nextRow codec table primaryIndexKey (st.scan (makeFamilyKey primaryIndexKey 0) (makeFamilyKey primaryIndexKey 1))

/-- Read the row by `NextRowDecoded`, which takes an unset column as NULL. -/
def readRowDecoded (st : KV) : Except Err (Option (List Datum)) := do
  let row ← readRow codec table primaryIndexKey st
  return row.map fun values => values.map fun value => value.getD .null

end Fetch

end Ratel.Row
