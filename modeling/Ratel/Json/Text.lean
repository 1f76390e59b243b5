import Ratel.Json.Basic

/- Documents as text (`Format`, `String` and `AsText` of `pkg/util/json`). The text of
   a decimal is `apd`'s and a parameter. -/
namespace Ratel

/-- The functions of the `apd` package that documents are compared and printed with. -/
structure Apd where
  cmp : Decimal → Decimal → Ordering
  toText : Decimal → Bytes

/-- Finite decimals, compared as numbers and printed with an exponent. -/
def plainApd : Apd where
  cmp a b :=
    let low := min a.exponent b.exponent
    let scaled (d : Decimal) : Int := (if d.negative then -1 else 1) * d.coeff * 10 ^ (d.exponent - low).toNat
    compare (scaled a) (scaled b)
  toText d := (if d.negative then [45] else []) ++ (Nat.toDigits 10 d.coeff).map (fun c => UInt8.ofNat c.toNat) ++
    if d.exponent = 0 then [] else [69] ++ (if d.exponent < 0 then [45] else []) ++
      (Nat.toDigits 10 d.exponent.natAbs).map fun c => UInt8.ofNat c.toNat

/-! Strings. -/

/-- Whether `b` continues a rune. -/
def isContinuation (b : UInt8) : Bool := 0x80 ≤ b.toNat ∧ b.toNat ≤ 0xbf

/-- `utf8.DecodeRuneInString` at a byte that is not ASCII: the size of the rune, or
    `none` for an invalid byte. -/
def runeSize : Bytes → Option Nat
  | b0 :: b1 :: rest =>
    let b := b0.toNat
    let c := b1.toNat
    if 0xc2 ≤ b ∧ b ≤ 0xdf then if isContinuation b1 then some 2 else none
    else if 0xe0 ≤ b ∧ b ≤ 0xef then
      let lo := if b = 0xe0 then 0xa0 else 0x80
      let hi := if b = 0xed then 0x9f else 0xbf
      match rest with
      | b2 :: _ => if lo ≤ c ∧ c ≤ hi ∧ isContinuation b2 then some 3 else none
      | [] => none
    else if 0xf0 ≤ b ∧ b ≤ 0xf4 then
      let lo := if b = 0xf0 then 0x90 else 0x80
      let hi := if b = 0xf4 then 0x8f else 0xbf
      match rest with
      | b2 :: b3 :: _ => if lo ≤ c ∧ c ≤ hi ∧ isContinuation b2 ∧ isContinuation b3 then some 4 else none
      | _ => none
    else none
  | _ => none

def hexDigit (n : Nat) : UInt8 := UInt8.ofNat (if n < 10 then 48 + n else 87 + n)

/-- An ASCII byte, escaped unless in `safeSet`. -/
def escapeByte (b : UInt8) : Bytes :=
  if b = 92 ∨ b = 34 then [92, b]
  else if b = 10 then [92, 110]
  else if b = 13 then [92, 114]
  else if b = 9 then [92, 116]
  else if b.toNat < 0x20 then [92, 117, 48, 48, hexDigit (b.toNat / 16), hexDigit (b.toNat % 16)]
  else [b]

/-- The loop of `encodeJSONString`; `skip` bytes of the current rune are left. -/
def escapeString : Nat → Bytes → Bytes
  | _, [] => []
  | skip + 1, b :: rest => b :: escapeString skip rest
  | 0, b :: rest =>
    if b.toNat < 0x80 then escapeByte b ++ escapeString 0 rest
    else
      match runeSize (b :: rest) with
      | none => [92, 117, 102, 102, 102, 100] ++ escapeString 0 rest
      | some size => b :: escapeString (size - 1) rest

def encodeJSONString (s : Bytes) : Bytes := [34] ++ escapeString 0 s ++ [34]

/-! Documents. -/

namespace JSON

variable (apd : Apd)

/-- `Format` of a scalar; a number that is not finite is quoted. -/
def formatScalar : Scalar → Bytes
  | .null => [110, 117, 108, 108]
  | .bool false => [102, 97, 108, 115, 101]
  | .bool true => [116, 114, 117, 101]
  | .number d => if d.form = 0 then apd.toText d else [34] ++ apd.toText d ++ [34]
  | .string s => encodeJSONString s

mutual

def format : JSON → Bytes
  | .scalar s => formatScalar apd s
  | .array xs => [91] ++ formatElems xs ++ [93]
  | .object kvs => [123] ++ formatPairs kvs ++ [125]

def formatElems : List JSON → Bytes
  | [] => []
  | [x] => format x
  | x :: y :: xs => format x ++ [44, 32] ++ formatElems (y :: xs)

def formatPairs : List (Bytes × JSON) → Bytes
  | [] => []
  | [(k, v)] => encodeJSONString k ++ [58, 32] ++ format v
  | (k, v) :: kv :: kvs => encodeJSONString k ++ [58, 32] ++ format v ++ [44, 32] ++ formatPairs (kv :: kvs)

end

/-- `AsText`: a string is its own text, and `null` has none. -/
def asText : JSON → Option Bytes
  | .scalar .null => none
  | .scalar (.string s) => some s
  | j => some (format apd j)

end JSON

end Ratel
