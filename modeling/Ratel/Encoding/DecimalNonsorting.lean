import Ratel.Encoding.DecimalDecode

/- The encoding of decimals that need not sort. A marker tells the sign and whether the exponent of
   the number as a fraction is negative, zero or positive; its absolute value follows as a varint
   unless it is zero, and then the coefficient as the bytes of its words. The decoder counts the
   digits of the coefficient again to get from that exponent back to the decimal's. -/
namespace Ratel.Encoding

open Ratel.Lib List Decimal

/-- `NumDigits` of the library `apd`: zero has one digit. -/
def numDigits (coeff : Nat) : Nat := if coeff = 0 then 1 else (digits coeff).length

/-- The machine words of a coefficient, the lowest first. -/
def words (coeff : Nat) : List Nat := Nat.digits (2 ^ 64) coeff

/-- `copyWords` after the buffer: the bytes from the highest on, without zeros in front. -/
def copyWords (nat : List Nat) : Bytes := (nat.reverse.flatMap (bigEndian 8)).dropWhile (· = 0)

def encodeNonsortingDecimalValue (exp : Nat) (digits : List Nat) : Bytes := uvarint exp ++ copyWords digits

def encodeNonsortingDecimalValueWithoutExp (digits : List Nat) : Bytes := copyWords digits

/-- `EncodeNonsortingDecimal`; `none` where it panics. -/
def encodeNonsortingDecimal (b : Bytes) (d : Decimal) : Option Bytes :=
  if d.form = infinite then
    some (b ++ [UInt8.ofNat (if d.negative then decimalNegativeInfinity else decimalInfinity)])
  else if d.form = nan then some (b ++ [UInt8.ofNat decimalNaN])
  else if d.form ≠ finite then none
  -- only "0" is a zero here, and "-0" and "0.0" are not
  else if d.isZero ∧ d.negative = false ∧ d.exponent = 0 then some (b ++ [UInt8.ofNat decimalZero])
  else
    let e : Int := numDigits d.coeff + d.exponent
    if e > 0 then
      some (b ++ UInt8.ofNat (if d.negative then decimalNegLarge else decimalPosLarge) ::
        encodeNonsortingDecimalValue e.toNat (words d.coeff))
    else if e = 0 then
      some (b ++ UInt8.ofNat (if d.negative then decimalNegMedium else decimalPosMedium) ::
        encodeNonsortingDecimalValueWithoutExp (words d.coeff))
    else
      some (b ++ UInt8.ofNat (if d.negative then decimalNegSmall else decimalPosSmall) ::
        encodeNonsortingDecimalValue (-e).toNat (words d.coeff))

/-- `decodeNonsortingDecimalValue`, to the exponent and the coefficient: the stored exponent is negated
    as a `uint64`, read as an `int`, and the one of the decimal converted to an `int32`. -/
def decodeNonsortingDecimalValue (negExp : Bool) (buf : Bytes) : Except Err (Int × Nat) := do
  let (rest, e) ← decodeUvarintAscending buf
  let e := if negExp then (2 ^ 64 - e) % 2 ^ 64 else e
  let coeff := fromBigEndian rest
  return (Int.bmod (Int.bmod e (2 ^ 64) - numDigits coeff) (2 ^ 32), coeff)

def decodeNonsortingDecimalValueWithoutExp (buf : Bytes) : Int × Nat :=
  let coeff := fromBigEndian buf
  (Int.bmod (-Int.bmod (numDigits coeff) (2 ^ 32)) (2 ^ 32), coeff)

def number (negative : Bool) (p : Int × Nat) : Decimal := ⟨finite, negative, p.1, p.2⟩

/-- `DecodeNonsortingDecimal`; `none` where it reads the first byte of an empty slice. -/
def decodeNonsortingDecimal (buf : Bytes) : Option (Except Err Decimal) :=
  match buf with
  | [] => none
  | b0 :: rest =>
    let tag := b0.toNat
    if tag = decimalNaN then some (.ok ⟨nan, false, 0, 0⟩)
    else if tag = decimalNegativeInfinity then some (.ok ⟨infinite, true, 0, 0⟩)
    else if tag = decimalInfinity then some (.ok ⟨infinite, false, 0, 0⟩)
    else if tag = decimalZero then some (.ok ⟨finite, false, 0, 0⟩)
    else if tag = decimalNegLarge then some ((decodeNonsortingDecimalValue false rest).map (number true))
    else if tag = decimalNegMedium then some (.ok (number true (decodeNonsortingDecimalValueWithoutExp rest)))
    else if tag = decimalNegSmall then some ((decodeNonsortingDecimalValue true rest).map (number true))
    else if tag = decimalPosSmall then some ((decodeNonsortingDecimalValue true rest).map (number false))
    else if tag = decimalPosMedium then some (.ok (number false (decodeNonsortingDecimalValueWithoutExp rest)))
    else if tag = decimalPosLarge then some ((decodeNonsortingDecimalValue false rest).map (number false))
    else some (errorf "unknown decimal prefix of the encoded byte slice: %q" [.bytes buf])

/-! The coefficient. -/

theorem fromBigEndian_append (b c : Bytes) :
    fromBigEndian (b ++ c) = fromBigEndian b * 256 ^ c.length + fromBigEndian c := by
  induction c using reverseRecOn with
  | nil => simp [fromBigEndian]
  | append_singleton c x ih =>
    have hsnoc : ∀ l : Bytes, fromBigEndian (l ++ [x]) = fromBigEndian l * 256 + x.toNat := fun l => by
      simp [fromBigEndian]
    rw [← append_assoc, hsnoc, hsnoc, ih, length_append, length_singleton]
    ring

theorem fromBigEndian_dropWhile (b : Bytes) : fromBigEndian (b.dropWhile (· = 0)) = fromBigEndian b := by
  induction b with
  | nil => rfl
  | cons x b ih =>
    by_cases hx : x = 0
    · rw [dropWhile_cons_of_pos (by simpa using hx), ih, hx]
      rfl
    · rw [dropWhile_cons_of_neg (by simpa using hx)]

/-- The bytes of words are the number that the words are. -/
theorem fromBigEndian_copyWords {ws : List Nat} (h : ∀ w ∈ ws, w < 2 ^ 64) :
    fromBigEndian (copyWords ws) = Nat.ofDigits (2 ^ 64) ws := by
  rw [copyWords, fromBigEndian_dropWhile]
  induction ws with
  | nil => rfl
  | cons w ws ih =>
    have hw : fromBigEndian (bigEndian 8 w) = w := fromBigEndian_bigEndian (h w mem_cons_self)
    rw [reverse_cons, flatMap_append, fromBigEndian_append, ih (forall_mem_cons.mp h).2,
      flatMap_singleton, hw, bigEndian_length, Nat.ofDigits_cons]
    ring

theorem fromBigEndian_words (coeff : Nat) : fromBigEndian (copyWords (words coeff)) = coeff := by
  rw [words, fromBigEndian_copyWords fun _ hw => Nat.digits_lt_base (by norm_num) hw]
  exact Nat.ofDigits_digits _ _

/-! The round trip. -/

theorem decodeNonsortingDecimalValue_encode {e : Int} {exp : Nat} (negExp : Bool) (hexp : 0 < exp ∧ exp < 2 ^ 63)
    (he : e = if negExp then - (exp : Int) else exp) (coeff : Nat) :
    decodeNonsortingDecimalValue negExp (encodeNonsortingDecimalValue exp (words coeff)) =
      .ok (Int.bmod (e - numDigits coeff) (2 ^ 32), coeff) := by
  have hsign : Int.bmod ((if negExp then (2 ^ 64 - exp) % 2 ^ 64 else exp : Nat) : Int) (2 ^ 64) = e := by
    rw [he]
    simp only [Int.bmod]
    split <;> omega
  rw [decodeNonsortingDecimalValue, encodeNonsortingDecimalValue, decodeUvarintAscending_uvarint (by omega), bind_ok]
  simp only [fromBigEndian_words, hsign]
  rfl

/-- Every finite decimal whose exponent and number of digits add up to an `int32` comes back as it was. -/
theorem decode_encodeNonsortingDecimal (b : Bytes) (d : Decimal) (hform : d.form = finite)
    (hexp : - 2 ^ 31 ≤ d.exponent ∧ d.exponent < 2 ^ 31)
    (hfits : - 2 ^ 31 ≤ numDigits d.coeff + d.exponent ∧ numDigits d.coeff + d.exponent < 2 ^ 31) :
    ∃ word, encodeNonsortingDecimal b d = some (b ++ word) ∧ decodeNonsortingDecimal word = some (.ok d) := by
  obtain ⟨form, negative, exponent, coeff⟩ := d
  cases hform
  simp only at hexp hfits
  have hback : Int.bmod (numDigits coeff + exponent - numDigits coeff) (2 ^ 32) = exponent := by
    rw [add_sub_cancel_left, Int.bmod_eq_of_le (by omega) (by omega)]
  rw [encodeNonsortingDecimal, if_neg nofun, if_neg nofun, if_neg fun h => h rfl]
  split
  · next hzero =>
    simp only [isZero, Bool.and_eq_true, decide_eq_true_eq] at hzero
    obtain ⟨⟨-, rfl⟩, rfl, rfl⟩ := hzero
    exact ⟨_, rfl, rfl⟩
  simp only
  split
  · next hpos =>
    have hvalue := decodeNonsortingDecimalValue_encode false (by omega) (Int.toNat_of_nonneg hpos.le).symm coeff
    rw [hback] at hvalue
    refine ⟨_, rfl, ?_⟩
    cases negative <;> exact congrArg (fun x => some (Except.map (number _) x)) hvalue
  split
  · next hz =>
    rw [hz, zero_sub] at hback
    have hvalue : decodeNonsortingDecimalValueWithoutExp (copyWords (words coeff)) = (exponent, coeff) := by
      unfold decodeNonsortingDecimalValueWithoutExp
      simp only [fromBigEndian_words, Int.bmod_neg_bmod, hback]
    refine ⟨_, rfl, ?_⟩
    cases negative <;> exact congrArg (fun p => some (Except.ok (number _ p))) hvalue
  · next hpos hz =>
    have hvalue := @decodeNonsortingDecimalValue_encode (numDigits coeff + exponent)
      (-(numDigits coeff + exponent)).toNat true (by omega) (by rw [if_pos rfl]; omega) coeff
    rw [hback] at hvalue
    refine ⟨_, rfl, ?_⟩
    cases negative <;> exact congrArg (fun x => some (Except.map (number _) x)) hvalue

/-- A negative zero with an exponent. -/
theorem decode_encodeNonsortingDecimal_zero : ∃ word, encodeNonsortingDecimal [] ⟨finite, true, -2, 0⟩ = some word ∧
    decodeNonsortingDecimal word = some (.ok ⟨finite, true, -2, 0⟩) :=
  decode_encodeNonsortingDecimal [] ⟨finite, true, -2, 0⟩ rfl (by decide) (by decide)

end Ratel.Encoding
