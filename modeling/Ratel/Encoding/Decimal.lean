import Ratel.Apd
import Ratel.Encoding.Bytes

/- The ordered encoding of decimals. A number is a mantissa in base 100 times a power of 100; the
   first byte tells the sign and whether the exponent is small (negative), medium or large, the
   exponent follows as a varint unless it is medium, and then the mantissa and a zero byte. A digit
   of the mantissa is `2n+1`, the last one `2n`, which has a mantissa sort before those it begins.
   Exponents that are to sort the other way are descending varints, mantissas of negative numbers
   are complemented. -/
namespace Ratel.Encoding

open Ratel.Lib

/-! Markers. -/

def decimalNaN : Nat := 24
def decimalNegativeInfinity : Nat := decimalNaN + 1
def decimalNegLarge : Nat := decimalNegativeInfinity + 1
def decimalNegMedium : Nat := decimalNegLarge + 11
def decimalNegSmall : Nat := decimalNegMedium + 1
def decimalZero : Nat := decimalNegSmall + 1
def decimalPosSmall : Nat := decimalZero + 1
def decimalPosMedium : Nat := decimalPosSmall + 1
def decimalPosLarge : Nat := decimalPosMedium + 11
def decimalInfinity : Nat := decimalPosLarge + 1
def decimalNaNDesc : Nat := decimalInfinity + 1
def decimalTerminator : UInt8 := 0x00

/-! Descending varints. -/

/-- The bytes `EncodeUvarintDescending` appends: the low bytes of the complement. -/
def uvarintDescending (v : Nat) : Bytes :=
  if v = 0 then [UInt8.ofNat (intMin + 8)]
  else UInt8.ofNat (intMin + 8 - uvarintWidth v) :: bigEndian (uvarintWidth v) (2 ^ 64 - 1 - v)

def decodeUvarintDescending : Bytes → Except Err (Bytes × Nat)
  | [] => errorf "insufficient bytes to decode uvarint value"
  | b0 :: b =>
    let length : Int := intZero - b0.toNat
    if length < 0 ∨ length > 8 then errorf "invalid uvarint length of %d" [.int length]
    else if (b.length : Int) < length then errorf "insufficient bytes to decode uvarint value: %q" [.bytes b]
    else .ok (b.drop length.toNat, fromBigEndian (onesComplement (b.take length.toNat)))

/-- `getVarintLen`; `none` where it reads the first byte of an empty slice. -/
def getVarintLen : Bytes → Option (Except Err Nat)
  | [] => none
  | b0 :: b =>
    let length : Int := b0.toNat - intZero
    if 0 ≤ length ∧ length ≤ intSmall then some (.ok 1)
    else
      let length := if 0 ≤ length then 1 + length - intSmall else 1 - length
      if length > (b0 :: b).length then
        some (errorf "varint length %d exceeds slice length %d" [.int length, .int (b0 :: b).length])
      else some (.ok length.toNat)

/-! Encoding. -/

/-- The digits of a string in pairs. -/
def centimals : List Nat → List Nat
  | a :: b :: rest => (10 * a + b) :: centimals rest
  | _ => []

def mantissa : List Nat → Bytes
  | [] => []
  | [x] => [UInt8.ofNat (2 * x)]
  | x :: xs => UInt8.ofNat (2 * x + 1) :: mantissa xs

/-- The power of 10 of the number as a fraction, and of 100. -/
def e10 (d : Decimal) : Int := d.exponent + (Decimal.digits d.coeff).length

def e100 (d : Decimal) : Int := if 0 ≤ e10 d then (e10 d + 1).tdiv 2 else (e10 d).tdiv 2

/-- The digits after stripping zeros: those at the end, and the one put in front unless it is needed. -/
def strippedDigits (d : Decimal) : List Nat :=
  let tmp := (0 :: Decimal.digits d.coeff).rdropWhile (· = 0)
  if e100 d * 2 = e10 d then tmp.tail else tmp

def evenDigits (tmp : List Nat) : List Nat := if tmp.length % 2 ≠ 0 then tmp ++ [0] else tmp

def decimalEandM (d : Decimal) : Int × Bytes := (e100 d, mantissa (centimals (evenDigits (strippedDigits d))))

def encodeVarExpNumber (tag : Nat) (expAscending : Bool) (exp : Nat) (m : Bytes) : Bytes :=
  UInt8.ofNat tag :: ((if expAscending then uvarint exp else uvarintDescending exp) ++ (m ++ [decimalTerminator]))

def encodeSmallNumber (negative : Bool) (e : Int) (m : Bytes) : Bytes :=
  if negative then encodeVarExpNumber decimalNegSmall true (-e).toNat (onesComplement m)
  else encodeVarExpNumber decimalPosSmall false (-e).toNat m

def encodeLargeNumber (negative : Bool) (e : Int) (m : Bytes) : Bytes :=
  if negative then encodeVarExpNumber decimalNegLarge false e.toNat (onesComplement m)
  else encodeVarExpNumber decimalPosLarge true e.toNat m

def encodeMediumNumber (negative : Bool) (e : Int) (m : Bytes) : Bytes :=
  if negative then UInt8.ofNat (decimalNegMedium - e.toNat) :: (onesComplement m ++ [decimalTerminator])
  else UInt8.ofNat (decimalPosMedium + e.toNat) :: (m ++ [decimalTerminator])

/-- `encodeEandM` after the buffer. -/
def encodeEandM (negative : Bool) (e : Int) (m : Bytes) : Bytes :=
  if e < 0 then encodeSmallNumber negative e m
  else if e ≤ 10 then encodeMediumNumber negative e m
  else encodeLargeNumber negative e m

/-- `encodeDecimal`; `none` where it panics. -/
def encodeDecimal (appendTo : Bytes) (d : Decimal) (invert : Bool) : Option Bytes :=
  if d.isZero then some (appendTo ++ [UInt8.ofNat decimalZero])
  else
    let neg := d.negative != invert
    if d.form = Decimal.finite then
      let em := decimalEandM d
      some (appendTo ++ encodeEandM neg em.1 em.2)
    else if d.form = Decimal.infinite then
      some (appendTo ++ [UInt8.ofNat (if neg then decimalNegativeInfinity else decimalInfinity)])
    else if d.form = Decimal.nan then some (appendTo ++ [UInt8.ofNat (if invert then decimalNaNDesc else decimalNaN)])
    else none

def encodeDecimalAscending (appendTo : Bytes) (d : Decimal) : Option Bytes := encodeDecimal appendTo d false

def encodeDecimalDescending (appendTo : Bytes) (d : Decimal) : Option Bytes := encodeDecimal appendTo d true

/-! Decoding. -/

def findDecimalTerminator (buf : Bytes) : Except Err Nat :=
  match indexByte buf decimalTerminator with
  | some idx => .ok idx
  | none => errorf "did not find terminator %#x in buffer %#x" [.bytes [decimalTerminator], .bytes buf]

/-- The mantissa up to its terminator, without the complement, and what follows. -/
def cutMantissa (negative : Bool) (r : Bytes) : Except Err (Bytes × Bytes) := do
  let idx ← findDecimalTerminator r
  let m := r.take idx
  return (if negative then onesComplement m else m, r.drop (idx + 1))

def decodeExp (expAscending : Bool) (buf : Bytes) : Except Err (Bytes × Nat) :=
  if expAscending then decodeUvarintAscending buf else decodeUvarintDescending buf

/-- `decodeSmallNumber` and `decodeLargeNumber`: the exponent's direction and sign differ. -/
def decodeVarExpNumber (negative expAscending : Bool) (sign : Int) (buf : Bytes) : Except Err (Int × Bytes × Bytes) := do
  let (r, ex) ← decodeExp expAscending buf.tail
  let (m, rest) ← cutMantissa negative r
  return (Int.bmod (sign * ex) (2 ^ 64), m, rest)

def decodeSmallNumber (negative : Bool) (buf : Bytes) : Except Err (Int × Bytes × Bytes) :=
  decodeVarExpNumber negative negative (-1) buf

def decodeLargeNumber (negative : Bool) (buf : Bytes) : Except Err (Int × Bytes × Bytes) :=
  decodeVarExpNumber negative (!negative) 1 buf

/-- `decodeMediumNumber`, whose first byte is in the range of its sign. -/
def decodeMediumNumber (negative : Bool) (b0 : UInt8) (buf : Bytes) : Except Err (Int × Bytes × Bytes) := do
  let (m, rest) ← cutMantissa negative buf.tail
  return (if negative then (decimalNegMedium : Int) - b0.toNat else (b0.toNat : Int) - decimalPosMedium, m, rest)

def mantissaDigits : Bytes → Except Err (List Nat)
  | [] => .ok []
  | v :: m => do
    let t := v.toNat / 2
    if t > 99 then errorf "base-100 encoded digit %d out of range [0,99]" [.int t]
    else
      let b ← mantissaDigits m
      return t / 10 :: t % 10 :: b

/-- `makeDecimalFromMandE`. The exponent is converted to an `int32`. -/
def makeDecimalFromMandE (negative : Bool) (e : Int) (m : Bytes) : Except Err Decimal :=
  if m.length = 0 then errorf "expected mantissa, got zero bytes"
  else do
    let b ← mantissaDigits m
    let b := if b.getLast? = some 0 then b.dropLast else b
    return ⟨Decimal.finite, negative, Int.bmod (2 * e - b.length) (2 ^ 32), ofDigits 10 b⟩

/-- A number decoded, with the bytes after it. -/
def finishDecimal (negative : Bool) (parts : Except Err (Int × Bytes × Bytes)) : Except Err (Bytes × Decimal) := do
  let (e, m, r) ← parts
  let d ← makeDecimalFromMandE negative e m
  return (r, d)

/-- `decodeDecimal`; `none` where it reads the first byte of an empty slice. -/
def decodeDecimal (buf : Bytes) (invert : Bool) : Option (Except Err (Bytes × Decimal)) :=
  match buf with
  | [] => none
  | b0 :: rest =>
    let tag := b0.toNat
    if tag = decimalNaN ∨ tag = decimalNaNDesc then some (.ok (rest, ⟨Decimal.nan, false, 0, 0⟩))
    else if tag = decimalInfinity then some (.ok (rest, ⟨Decimal.infinite, invert, 0, 0⟩))
    else if tag = decimalNegativeInfinity then some (.ok (rest, ⟨Decimal.infinite, !invert, 0, 0⟩))
    else if tag = decimalZero then some (.ok (rest, ⟨Decimal.finite, false, 0, 0⟩))
    else if tag = decimalNegLarge then some (finishDecimal (!invert) (decodeLargeNumber true buf))
    else if tag > decimalNegLarge ∧ tag ≤ decimalNegMedium then
      some (finishDecimal (!invert) (decodeMediumNumber true b0 buf))
    else if tag = decimalNegSmall then some (finishDecimal (!invert) (decodeSmallNumber true buf))
    else if tag = decimalPosLarge then some (finishDecimal invert (decodeLargeNumber false buf))
    else if tag ≥ decimalPosMedium ∧ tag < decimalPosLarge then
      some (finishDecimal invert (decodeMediumNumber false b0 buf))
    else if tag = decimalPosSmall then some (finishDecimal invert (decodeSmallNumber false buf))
    else some (errorf "unknown prefix of the encoded byte slice: %q" [.bytes buf])

def decodeDecimalAscending (buf : Bytes) : Option (Except Err (Bytes × Decimal)) := decodeDecimal buf false

def decodeDecimalDescending (buf : Bytes) : Option (Except Err (Bytes × Decimal)) := decodeDecimal buf true

/-- `getDecimalLen`; `none` where it panics. -/
def getDecimalLen (buf : Bytes) : Option (Except Err Nat) :=
  match buf with
  | [] => none
  | b0 :: rest =>
    let m := b0.toNat
    if m < decimalNaN ∨ m > decimalNaNDesc then none
    else if m = decimalNaN ∨ m = decimalNegativeInfinity ∨ m = decimalNaNDesc ∨ m = decimalInfinity ∨ m = decimalZero then
      some (.ok 1)
    else if m = decimalNegLarge ∨ m = decimalNegSmall ∨ m = decimalPosLarge ∨ m = decimalPosSmall then
      (getVarintLen rest).map fun len => do
        let l ← len
        let idx ← findDecimalTerminator (rest.drop l)
        return 1 + l + idx + 1
    else
      some do
        let idx ← findDecimalTerminator rest
        return 1 + idx + 1

end Ratel.Encoding
