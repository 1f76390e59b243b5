import Ratel.Json.Tree

/- Subordinate values and entries (`pkg/sql/rowenc/subordinate.go`): a JSON document
   is stored as one key-value pair per node, a container as its kind and child count,
   a scalar as its kind and JSONB encoding.

   Proven here: a node's value decodes to its kind, its child count and, for a
   scalar, itself; and the entries of a document have strictly ascending keys. -/
namespace Ratel.Rowenc

open Ratel.Lib Ratel.Encoding Ratel.Keys

/-- A SQL value, as far as row storage tells values apart. The payload of a datum that
    is neither an array nor JSON is opaque; a NULL array element is `none`. -/
inductive Datum
  | null
  | scalar (payload : Bytes)
  | array (elems : List (Option Bytes))
  | json (j : JSON)
deriving DecidableEq, Repr

/-- `roachpb.Value`: a `BYTES` value, a `TUPLE` of the columns of a family, or a datum
    as `MarshalLegacy` stores it. -/
inductive Value
  | bytes (raw : Bytes)
  | tuple (columns : List (UInt32 × Datum))
  | legacy (payload : Bytes)
deriving DecidableEq, Repr

def Value.getBytes : Value → Except Err Bytes
  | bytes raw => .ok raw
  | _ => errorf "value type is not BYTES"

/-- A key-value pair to be written (`rowenc.IndexEntry`). -/
abbrev Entry := Bytes × Value

/-- The JSONB encoding of scalar documents, `EncodeJSON` and `DecodeJSON`, assumed to
    round-trip. -/
structure JsonCodec where
  encode : Scalar → Bytes
  decode : Bytes → Except Err (Bytes × JSON)
  decode_encode : ∀ s, decode (encode s) = .ok ([], .scalar s)

/-! A plain codec to run the model with: a tag, and numbers in unary. -/

def unary (n : Nat) : Bytes := List.replicate n 1 ++ [0]

/-- A number in unary and what follows it. -/
def readUnary : Bytes → Nat × Bytes
  | [] => (0, [])
  | c :: rest => if c = 1 then ((readUnary rest).1 + 1, (readUnary rest).2) else (0, rest)

theorem readUnary_unary (r : Bytes) : ∀ n : Nat, readUnary (unary n ++ r) = (n, r)
  | 0 => rfl
  | n + 1 => by
    have ih := readUnary_unary r n
    rw [unary] at ih ⊢
    rw [List.replicate_succ, List.cons_append, List.cons_append, readUnary, if_pos rfl, ih]

def plainEncode : Scalar → Bytes
  | .null => [0]
  | .bool b => [1, if b then 1 else 0]
  | .string s => 2 :: s
  | .number d => 3 :: (if d.negative then 1 else 0) :: (if d.exponent < 0 then 1 else 0) ::
      (unary d.form ++ (unary d.exponent.natAbs ++ (unary d.coeff ++ [])))

def plainDecode : Bytes → Except Err (Bytes × JSON)
  | [0] => .ok ([], .scalar .null)
  | [1, b] => .ok ([], .scalar (.bool (b = 1)))
  | 2 :: s => .ok ([], .scalar (.string s))
  | 3 :: neg :: expNeg :: rest =>
    let (form, rest) := readUnary rest
    let (exp, rest) := readUnary rest
    let (coeff, rest) := readUnary rest
    .ok (rest, .scalar (.number ⟨form, neg = 1, if expNeg = 1 then - (exp : Int) else exp, coeff⟩))
  | _ => errorf "not a scalar"

def plainCodec : JsonCodec where
  encode := plainEncode
  decode := plainDecode
  decode_encode := by
    intro s
    cases s with
    | null => rfl
    | bool b => cases b <;> rfl
    | string s => rfl
    | number d =>
      obtain ⟨form, negative, exponent, coeff⟩ := d
      have hexp : (if (if exponent < 0 then (1 : UInt8) else 0) = 1 then - (exponent.natAbs : Int)
          else exponent.natAbs) = exponent := by
        by_cases h : exponent < 0
        · rw [if_pos h, if_pos rfl]; omega
        · rw [if_neg h, if_neg (by decide)]; omega
      simp only [plainEncode, plainDecode, readUnary_unary, hexp]
      cases negative <;> rfl

/-- `SubordinateJSONNodeKind`. -/
inductive NodeKind
  | scalar
  | object
  | array
deriving DecidableEq, Repr

def NodeKind.toByte : NodeKind → UInt8
  | scalar => 1
  | object => 2
  | array => 3

variable (codec : JsonCodec)

def encodeSubordinateJSONValue (j : JSON) : Value :=
  match j with
  | .object kvs => .bytes (encodeUvarintAscending [NodeKind.object.toByte] kvs.length)
  | .array xs => .bytes (encodeUvarintAscending [NodeKind.array.toByte] xs.length)
  | .scalar s => .bytes (NodeKind.scalar.toByte :: codec.encode s)

/-- Conversion of a `uint64` to `int`. -/
def toInt (n : Nat) : Int := if n < 2 ^ 63 then n else n - 2 ^ 64

/-- A container's child count, which must be all of its value. -/
def peekContainer (kind : NodeKind) (raw : Bytes) : Except Err (NodeKind × Int × Bytes) := do
  let (remaining, count) ← decodeUvarintAscending raw
  if remaining ≠ [] then errorf "trailing data in subordinate JSON container"
  else return (kind, toInt count, [])

/-- `PeekSubordinateJSONValueMetadata`: kind, child count and a scalar's bytes. -/
def peekSubordinateJSONValueMetadata (v : Value) : Except Err (NodeKind × Int × Bytes) := do
  let raw ← v.getBytes
  match raw with
  | [] => errorf "empty subordinate JSON value"
  | kind :: rest =>
    if kind = NodeKind.object.toByte then peekContainer .object rest
    else if kind = NodeKind.array.toByte then peekContainer .array rest
    else if kind = NodeKind.scalar.toByte then return (.scalar, 0, rest)
    else errorf "unknown subordinate JSON node kind %d" [.int kind.toNat]

def decodeSubordinateJSONScalarBytes (raw : Bytes) : Except Err JSON := do
  let (remaining, j) ← codec.decode raw
  if remaining ≠ [] then errorf "trailing data in subordinate JSON scalar" else return j

/-- `DecodeSubordinateJSONValueWithCardinality`: kind, child count, scalar. -/
def decodeSubordinateJSONValueWithCardinality (v : Value) : Except Err (NodeKind × Int × Option JSON) := do
  let (kind, childCount, scalarRaw) ← peekSubordinateJSONValueMetadata v
  match kind with
  | .object | .array => return (kind, childCount, none)
  | .scalar =>
    let j ← decodeSubordinateJSONScalarBytes codec scalarRaw
    return (kind, 0, some j)

/-- `EncodeSubordinateJSONContainerValue`: a container header from its count alone. -/
def encodeSubordinateJSONContainerValue (kind : NodeKind) (childCount : Int) : Except Err Value :=
  if childCount < 0 then errorf "negative subordinate JSON child count %d" [.int childCount]
  else
    match kind with
    | .object | .array => .ok (.bytes (encodeUvarintAscending [kind.toByte] childCount.toNat))
    | .scalar => errorf "invalid subordinate JSON container kind %d" [.int kind.toByte.toNat]

/-- `EncodeJSONSubordinateEntriesAtPath`: one entry per node, in pre-order. -/
def encodeJSONSubordinateEntriesAtPath (entries : List Entry) (sentinelKey : Bytes) (colID : UInt32)
    (path : Path) (j : JSON) : List Entry :=
  entries ++ (j.nodes path).map fun pc =>
    (makeSubordinatePathKey sentinelKey colID pc.1, encodeSubordinateJSONValue codec pc.2)

/-! Values. -/

def nodeKind : JSON → NodeKind
  | .scalar _ => .scalar
  | .array _ => .array
  | .object _ => .object

/-- What a node's value keeps of a scalar. -/
def nodeScalar : JSON → Option JSON
  | .scalar s => some (.scalar s)
  | _ => none

variable {n : Nat} {j : JSON}

theorem peekContainer_uvarint (kind : NodeKind) (h : n < 2 ^ 63) :
    peekContainer kind (uvarint n) = .ok (kind, (n : Int), []) := by
  have hd : decodeUvarintAscending (uvarint n) = .ok ([], n) := by
    simpa using decodeUvarintAscending_uvarint (lt_trans h (by decide)) []
  have ht : toInt n = n := if_pos h
  simp [peekContainer, hd, ht, pure, Except.pure]

theorem peek_encodeSubordinateJSONValue (h : j.len < 2 ^ 63) :
    peekSubordinateJSONValueMetadata (encodeSubordinateJSONValue codec j) =
      .ok (nodeKind j, (j.len : Int), match j with | .scalar s => codec.encode s | _ => []) := by
  cases j with
  | scalar s => rfl
  | array xs => exact peekContainer_uvarint .array h
  | object kvs => exact peekContainer_uvarint .object h

/-- A node's value decodes to its kind, its number of children and its scalar. -/
theorem decode_encodeSubordinateJSONValue (h : j.len < 2 ^ 63) :
    decodeSubordinateJSONValueWithCardinality codec (encodeSubordinateJSONValue codec j) =
      .ok (nodeKind j, (j.len : Int), nodeScalar j) := by
  rw [decodeSubordinateJSONValueWithCardinality, peek_encodeSubordinateJSONValue codec h]
  cases j with
  | scalar s =>
    simp [nodeKind, nodeScalar, decodeSubordinateJSONScalarBytes, codec.decode_encode, JSON.len, pure, Except.pure]
  | array xs => rfl
  | object kvs => rfl

/-! Entries. -/

/-- Every key a document writes in column `colID` has a suffix of at most 109 bytes. -/
def SuffixesFit (colID : UInt32) (j : JSON) : Prop := ∀ pc ∈ j.nodes [.header], suffixLen colID pc.1 ≤ 109

instance (colID : UInt32) (j : JSON) : Decidable (SuffixesFit colID j) :=
  inferInstanceAs (Decidable (∀ pc ∈ j.nodes [.header], suffixLen colID pc.1 ≤ 109))

theorem headerFirst_of_mem_nodes (hn : n ≤ 2 ^ 32) (hj : j.Bounded n) {pc : Path × JSON}
    (h : pc ∈ j.nodes [.header]) : pc.1 ≠ [] ∧ HeaderFirst pc.1 := by
  obtain ⟨r, hr, hd⟩ := (JSON.mem_nodes hn hj _ _ _).mp h
  rw [hr]
  exact ⟨by simp, JSON.header_not_mem_of_descend hd⟩

theorem encodeJSONSubordinateEntries_ascending (hn : n ≤ 2 ^ 32) (hj : j.Bounded n) (pk : Bytes) (colID : UInt32) :
    Ascending (encodeJSONSubordinateEntriesAtPath codec [] (makeFamilyKey pk 0) colID [.header] j) := by
  refine List.pairwise_map.mpr ((JSON.nodes_ascending hn hj _).imp_of_mem ?_)
  intro a b ha hb hab
  exact (subordinateKey_parts pk (headerFirst_of_mem_nodes hn hj ha).1 (headerFirst_of_mem_nodes hn hj hb).2
    (.inr ⟨rfl, hab⟩)).lt

end Ratel.Rowenc
