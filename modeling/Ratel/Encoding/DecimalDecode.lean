import Ratel.Encoding.DecimalOrder

/- Decoding decimals. The decoder finds the end of a word by its terminator, which no mantissa
   contains, and makes a decimal without trailing zeros: the zeros at the end of the coefficient are
   in the exponent then. That exponent is converted to an `int32`, so a decimal comes back as the same
   number if its exponent has room for the zeros, and as a different one if it has not. -/
namespace Ratel.Encoding

open Ratel.Lib List Decimal

/-! The parts of a word. -/

theorem findDecimalTerminator_append {m : Bytes} (h : decimalTerminator ∉ m) (rest : Bytes) :
    findDecimalTerminator (m ++ decimalTerminator :: rest) = .ok m.length := by
  rw [findDecimalTerminator, indexByte_append h]

variable {l : List Nat} {exp : Nat} {e : Int} {d : Decimal}

theorem cutMantissa_append (neg : Bool) (h : MinDigits 100 l) (rest : Bytes) :
    cutMantissa neg ((if neg then onesComplement (mantissa l) else mantissa l) ++ decimalTerminator :: rest) =
      .ok (mantissa l, rest) := by
  cases neg with
  | false =>
    simp only [Bool.false_eq_true, if_false, cutMantissa, findDecimalTerminator_append (terminator_not_mem h)]
    simp [pure, Except.pure]
  | true =>
    simp only [if_true, cutMantissa, findDecimalTerminator_append (terminator_not_mem_complement h)]
    simp [pure, Except.pure, onesComplement_onesComplement]

/-- The exponent of a word and where it goes. -/
def expWord (expAscending : Bool) (exp : Nat) : Bytes := if expAscending then uvarint exp else uvarintDescending exp

theorem decodeExp_expWord (expAscending : Bool) (h : exp < 2 ^ 64) (rest : Bytes) :
    decodeExp expAscending (expWord expAscending exp ++ rest) = .ok (rest, exp) := by
  cases expAscending with
  | false => exact decodeUvarintDescending_uvarintDescending h rest
  | true => exact decodeUvarintAscending_uvarint h rest

theorem getVarintLen_expWord (expAscending : Bool) (h : exp < 2 ^ 64) (rest : Bytes) :
    getVarintLen (expWord expAscending exp ++ rest) = some (.ok (expWord expAscending exp).length) := by
  cases expAscending with
  | false => exact getVarintLen_uvarintDescending h rest
  | true => exact getVarintLen_uvarint exp rest

def mantissaWord (neg : Bool) (l : List Nat) : Bytes := if neg then onesComplement (mantissa l) else mantissa l

theorem encodeSmallNumber_eq (neg : Bool) (e : Int) (l : List Nat) :
    encodeSmallNumber neg e (mantissa l) = UInt8.ofNat (if neg then decimalNegSmall else decimalPosSmall) ::
      (expWord neg (-e).toNat ++ (mantissaWord neg l ++ [decimalTerminator])) := by
  cases neg <;> rfl

theorem encodeLargeNumber_eq (neg : Bool) (e : Int) (l : List Nat) :
    encodeLargeNumber neg e (mantissa l) = UInt8.ofNat (if neg then decimalNegLarge else decimalPosLarge) ::
      (expWord (!neg) e.toNat ++ (mantissaWord neg l ++ [decimalTerminator])) := by
  cases neg <;> rfl

theorem encodeMediumNumber_eq (neg : Bool) (e : Int) (l : List Nat) :
    encodeMediumNumber neg e (mantissa l) =
      UInt8.ofNat (if neg then decimalNegMedium - e.toNat else decimalPosMedium + e.toNat) ::
        (mantissaWord neg l ++ [decimalTerminator]) := by
  cases neg <;> rfl

theorem decodeVarExpNumber_eq (neg expAscending : Bool) (sign : Int) (hexp : exp < 2 ^ 64) (tag : UInt8)
    (h : MinDigits 100 l) (suffix : Bytes) :
    decodeVarExpNumber neg expAscending sign
        (tag :: (expWord expAscending exp ++ (mantissaWord neg l ++ decimalTerminator :: suffix))) =
      .ok (Int.bmod (sign * exp) (2 ^ 64), mantissa l, suffix) := by
  have hcut := cutMantissa_append neg h suffix
  simp only [decodeVarExpNumber, tail_cons, decodeExp_expWord expAscending hexp, bind_ok]
  rw [mantissaWord, hcut]
  rfl

theorem bmod_eq_self (h : - 2 ^ 63 < e ∧ e < 2 ^ 63) : Int.bmod e (2 ^ 64) = e := by
  rw [Int.bmod_eq_of_le]
  · omega
  · omega

/-- The number of a word: its exponent, its mantissa and the bytes after it. -/
theorem decode_small (neg : Bool) (he : - 2 ^ 63 < e) (hneg : e < 0) (tag : UInt8)
    (h : MinDigits 100 l) (suffix : Bytes) :
    decodeSmallNumber neg (tag :: (expWord neg (-e).toNat ++ (mantissaWord neg l ++ decimalTerminator :: suffix))) =
      .ok (e, mantissa l, suffix) := by
  have hexp : (-1 : Int) * ((-e).toNat : Nat) = e := by omega
  rw [decodeSmallNumber, decodeVarExpNumber_eq neg neg (-1) (by omega) tag h suffix, hexp, bmod_eq_self ⟨he, by omega⟩]

theorem decode_large (neg : Bool) (he : e < 2 ^ 63) (hpos : 10 < e) (tag : UInt8)
    (h : MinDigits 100 l) (suffix : Bytes) :
    decodeLargeNumber neg (tag :: (expWord (!neg) e.toNat ++ (mantissaWord neg l ++ decimalTerminator :: suffix))) =
      .ok (e, mantissa l, suffix) := by
  have hexp : (1 : Int) * (e.toNat : Nat) = e := by omega
  rw [decodeLargeNumber, decodeVarExpNumber_eq neg (!neg) 1 (by omega) tag h suffix, hexp, bmod_eq_self ⟨by omega, he⟩]

theorem decode_medium (neg : Bool) (tag : UInt8) (h : MinDigits 100 l) (suffix : Bytes) :
    decodeMediumNumber neg tag (tag :: (mantissaWord neg l ++ decimalTerminator :: suffix)) =
      .ok (if neg then (decimalNegMedium : Int) - tag.toNat else (tag.toNat : Int) - decimalPosMedium,
        mantissa l, suffix) := by
  have hcut := cutMantissa_append neg h suffix
  simp only [decodeMediumNumber, tail_cons, mantissaWord, hcut]
  rfl

/-! The decimal of a mantissa. -/

theorem mantissaDigits_mantissa : ∀ {l : List Nat}, MinDigits 100 l →
    mantissaDigits (mantissa l) = .ok (l.flatMap fun x => [x / 10, x % 10])
  | [x], h => by
    have hx := h.2
    have ht : (UInt8.ofNat (2 * x)).toNat / 2 = x := by
      rw [UInt8.toNat_ofNat']
      omega
    simp only [mantissa, mantissaDigits, ht]
    rw [if_neg (by omega)]
    rfl
  | x :: y :: l, h => by
    have hx := h.1
    have ht : (UInt8.ofNat (2 * x + 1)).toNat / 2 = x := by
      rw [UInt8.toNat_ofNat']
      omega
    rw [mantissa_cons (by simp), mantissaDigits]
    simp only [ht]
    rw [if_neg (by omega), mantissaDigits_mantissa h.2]
    rfl

/-- Pairs of digits come apart again. -/
theorem flatMap_centimals : ∀ {l : List Nat}, (∀ x ∈ l, x < 10) →
    (centimals (evenDigits l)).flatMap (fun x => [x / 10, x % 10]) = evenDigits l
  | [], _ => rfl
  | [x], h => by
    have hc : centimals (evenDigits [x]) = [10 * x] := rfl
    have he : evenDigits [x] = [x, 0] := rfl
    rw [hc, he]
    simp
  | x :: y :: l, h => by
    have hy := h y (by simp)
    have ih := flatMap_centimals (l := l) fun z hz => h z (by simp [hz])
    rw [evenDigits_cons, centimals, flatMap_cons, ih]
    simp only [cons_append, nil_append, List.cons.injEq, and_true]
    omega

theorem strippedDigits_min (h : d.coeff ≠ 0) : MinDigits 10 (strippedDigits d) := by
  obtain ⟨_, hmin, _⟩ := significant_spec h
  rw [strippedDigits_eq h]
  split
  · exact hmin
  · exact MinDigits.prepend (by decide) hmin

/-- The zero that makes the number of digits even is taken off. -/
theorem dropPad (h : MinDigits 10 l) :
    (if (evenDigits l).getLast? = some 0 then (evenDigits l).dropLast else evenDigits l) = l := by
  unfold evenDigits
  split
  · simp
  · exact if_neg h.last_ne_zero

def decodedNumber (d : Decimal) : Decimal :=
  ⟨finite, d.negative, Int.bmod (2 * e100 d - (strippedDigits d).length) (2 ^ 32), ofDigits 10 (strippedDigits d)⟩

theorem makeDecimalFromMandE_eq (h : d.coeff ≠ 0) :
    makeDecimalFromMandE d.negative (e100 d) (mantissa (mantissaOf d)) = .ok (decodedNumber d) := by
  obtain ⟨⟨x, l, hx, _⟩, hmin, _⟩ := mantissaOf_spec h
  have hs := strippedDigits_min h
  have hlen : (mantissa (mantissaOf d)).length ≠ 0 := by
    obtain ⟨c, t, hc, _⟩ := mantissa_head (l := l) (hmin.lt_base x (hx ▸ mem_cons_self))
    rw [hx, hc]
    simp
  have hdigits : mantissaDigits (mantissa (mantissaOf d)) = .ok (evenDigits (strippedDigits d)) := by
    rw [mantissaDigits_mantissa hmin, mantissaOf, flatMap_centimals hs.lt_base]
  rw [makeDecimalFromMandE, if_neg hlen, hdigits]
  simp only [bind_ok, dropPad hs]
  rfl

/-! Whole words. -/

theorem finishDecimal_eq (h : d.coeff ≠ 0) {suffix : Bytes}
    {parts : Except Err (Int × Bytes × Bytes)} (hparts : parts = .ok (e100 d, mantissa (mantissaOf d), suffix)) :
    finishDecimal d.negative parts = .ok (suffix, decodedNumber d) := by
  simp only [finishDecimal, hparts, bind_ok, makeDecimalFromMandE_eq h]
  rfl

/-- The branch that a number's first byte leads to. -/
theorem decodeDecimal_small (neg invert : Bool) (rest : Bytes) :
    let buf := UInt8.ofNat (if neg then decimalNegSmall else decimalPosSmall) :: rest
    decodeDecimal buf invert = some (finishDecimal (neg != invert) (decodeSmallNumber neg buf)) := by
  cases neg <;> cases invert <;> rfl

theorem decodeDecimal_large (neg invert : Bool) (rest : Bytes) :
    let buf := UInt8.ofNat (if neg then decimalNegLarge else decimalPosLarge) :: rest
    decodeDecimal buf invert = some (finishDecimal (neg != invert) (decodeLargeNumber neg buf)) := by
  cases neg <;> cases invert <;> rfl

theorem decodeDecimal_medium (neg invert : Bool) {e : Nat} (he : e ≤ 10) (rest : Bytes) :
    let tag := UInt8.ofNat (if neg then decimalNegMedium - e else decimalPosMedium + e)
    decodeDecimal (tag :: rest) invert =
      some (finishDecimal (neg != invert) (decodeMediumNumber neg tag (tag :: rest))) ∧
      (if neg then (decimalNegMedium : Int) - tag.toNat else (tag.toNat : Int) - decimalPosMedium) = e := by
  interval_cases e <;> cases neg <;> cases invert <;> exact ⟨rfl, rfl⟩

theorem decodeDecimal_number (hd : d.Valid) (h : d.coeff ≠ 0) (invert : Bool) (suffix : Bytes) :
    decodeDecimal (numberWord (d.negative != invert) d ++ suffix) invert = some (.ok (suffix, decodedNumber d)) := by
  obtain ⟨hlo, hhi⟩ := e100_bounds hd
  obtain ⟨_, hmin, _⟩ := mantissaOf_spec h
  have hsign : ((d.negative != invert) != invert) = d.negative := by
    cases d.negative <;> cases invert <;> rfl
  generalize (d.negative != invert) = neg at hsign ⊢
  unfold numberWord
  by_cases hs : e100 d < 0
  · rw [encodeEandM_small _ _ hs, encodeSmallNumber_eq]
    simp only [cons_append, append_assoc, nil_append]
    rw [decodeDecimal_small, hsign, finishDecimal_eq h (decode_small neg hlo hs _ hmin suffix)]
  by_cases hm : e100 d ≤ 10
  · rw [encodeEandM_medium _ _ (by omega) hm, encodeMediumNumber_eq]
    simp only [cons_append, append_assoc, nil_append]
    obtain ⟨hdec, htag⟩ := decodeDecimal_medium neg invert (e := (e100 d).toNat) (by omega)
      (mantissaWord neg (mantissaOf d) ++ decimalTerminator :: suffix)
    have hparts := decode_medium neg (UInt8.ofNat (if neg then decimalNegMedium - (e100 d).toNat
      else decimalPosMedium + (e100 d).toNat)) hmin suffix
    rw [htag, Int.toNat_of_nonneg (by omega)] at hparts
    rw [hdec, hsign, finishDecimal_eq h hparts]
  · rw [encodeEandM_large _ _ (by omega), encodeLargeNumber_eq]
    simp only [cons_append, append_assoc, nil_append]
    rw [decodeDecimal_large, hsign, finishDecimal_eq h (decode_large neg hhi (by omega) _ hmin suffix)]

def decoded (d : Decimal) : Decimal :=
  match kind d with
  | 0 => ⟨nan, false, 0, 0⟩
  | 1 => ⟨infinite, true, 0, 0⟩
  | 2 => decodedNumber d
  | 3 => ⟨finite, false, 0, 0⟩
  | 4 => decodedNumber d
  | _ => ⟨infinite, false, 0, 0⟩

theorem kind_cases (d : Decimal) :
    kind d = 0 ∨ kind d = 1 ∨ kind d = 2 ∨ kind d = 3 ∨ kind d = 4 ∨ kind d = 5 := by
  have := kind_le d
  omega

theorem negative_of_kind : (kind d = 2 → d.negative = true) ∧ (kind d = 4 → d.negative = false) := by
  unfold kind
  cases d.negative with
  | false =>
    refine ⟨fun h => ?_, fun _ => rfl⟩
    repeat' split at h
    all_goals omega
  | true =>
    refine ⟨fun _ => rfl, fun h => ?_⟩
    simp only [if_true] at h
    repeat' split at h
    all_goals omega

theorem decodeDecimal_decimalWord (hd : d.Valid) (invert : Bool) (suffix : Bytes) :
    decodeDecimal (decimalWord invert d ++ suffix) invert = some (.ok (suffix, decoded d)) := by
  unfold decoded decimalWord
  rcases kind_cases d with hk | hk | hk | hk | hk | hk
  · rw [hk]
    cases invert <;> rfl
  · rw [hk]
    cases invert <;> rfl
  · have hnum := decodeDecimal_number hd (kind_number (.inl hk)).2 invert suffix
    rw [negative_of_kind.1 hk, Bool.true_bne] at hnum
    rw [hk]
    exact hnum
  · rw [hk]
    cases invert <;> rfl
  · have hnum := decodeDecimal_number hd (kind_number (.inr hk)).2 invert suffix
    rw [negative_of_kind.2 hk, Bool.false_bne] at hnum
    rw [hk]
    exact hnum
  · rw [hk]
    cases invert <;> rfl

/-! The length of a word. -/

theorem getDecimalLen_varExp {tag l idx : Nat} {rest : Bytes}
    (htag : tag = decimalNegLarge ∨ tag = decimalNegSmall ∨ tag = decimalPosLarge ∨ tag = decimalPosSmall)
    (hlen : getVarintLen rest = some (.ok l)) (hfind : findDecimalTerminator (rest.drop l) = .ok idx) :
    getDecimalLen (UInt8.ofNat tag :: rest) = some (.ok (1 + l + idx + 1)) := by
  have hbranch : getDecimalLen (UInt8.ofNat tag :: rest) = (getVarintLen rest).map fun len => do
      let l ← len
      let idx ← findDecimalTerminator (rest.drop l)
      return 1 + l + idx + 1 := by
    rcases htag with rfl | rfl | rfl | rfl <;> rfl
  rw [hbranch, hlen, Option.map_some, bind_ok, hfind]
  rfl

theorem getDecimalLen_medium (neg : Bool) {e idx : Nat} (he : e ≤ 10) {rest : Bytes}
    (hfind : findDecimalTerminator rest = .ok idx) :
    getDecimalLen (UInt8.ofNat (if neg then decimalNegMedium - e else decimalPosMedium + e) :: rest) =
      some (.ok (1 + idx + 1)) := by
  have hbranch : getDecimalLen (UInt8.ofNat (if neg then decimalNegMedium - e else decimalPosMedium + e) :: rest) =
      some do
        let idx ← findDecimalTerminator rest
        return 1 + idx + 1 := by
    interval_cases e <;> cases neg <;> rfl
  rw [hbranch, hfind]
  rfl

theorem getDecimalLen_number (neg : Bool) (hd : d.Valid) (h : d.coeff ≠ 0) (suffix : Bytes) :
    getDecimalLen (numberWord neg d ++ suffix) = some (.ok (numberWord neg d).length) := by
  obtain ⟨hlo, hhi⟩ := e100_bounds hd
  obtain ⟨_, hmin, _⟩ := mantissaOf_spec h
  have hterm : decimalTerminator ∉ mantissaWord neg (mantissaOf d) := by
    unfold mantissaWord
    split
    · exact terminator_not_mem_complement hmin
    · exact terminator_not_mem hmin
  have hfind := findDecimalTerminator_append hterm suffix
  -- a word with a varint: the terminator is looked for behind it
  have hvar : ∀ (tag : Nat) (expAscending : Bool) (exp : Nat), exp < 2 ^ 64 →
      (tag = decimalNegLarge ∨ tag = decimalNegSmall ∨ tag = decimalPosLarge ∨ tag = decimalPosSmall) →
      getDecimalLen (UInt8.ofNat tag :: (expWord expAscending exp ++
        (mantissaWord neg (mantissaOf d) ++ decimalTerminator :: suffix))) =
      some (.ok (1 + (expWord expAscending exp).length + (mantissaWord neg (mantissaOf d)).length + 1)) := by
    intro tag expAscending exp hexp htag
    refine getDecimalLen_varExp htag (getVarintLen_expWord expAscending hexp _) ?_
    rw [drop_left' rfl]
    exact hfind
  unfold numberWord
  by_cases hs : e100 d < 0
  · rw [encodeEandM_small _ _ hs, encodeSmallNumber_eq]
    simp only [cons_append, append_assoc, nil_append]
    rw [hvar _ _ _ (by omega) (by cases neg <;> simp)]
    simp only [length_cons, length_append, length_nil]
    congr 2
    omega
  by_cases hm : e100 d ≤ 10
  · rw [encodeEandM_medium _ _ (by omega) hm, encodeMediumNumber_eq]
    simp only [cons_append, append_assoc, nil_append]
    rw [getDecimalLen_medium neg (by omega) hfind]
    simp only [length_cons, length_append, length_nil]
    congr 2
    omega
  rw [encodeEandM_large _ _ (by omega), encodeLargeNumber_eq]
  simp only [cons_append, append_assoc, nil_append]
  rw [hvar _ _ _ (by omega) (by cases neg <;> simp)]
  simp only [length_cons, length_append, length_nil]
  congr 2
  omega

theorem getDecimalLen_decimalWord (hd : d.Valid) (invert : Bool) (suffix : Bytes) :
    getDecimalLen (decimalWord invert d ++ suffix) = some (.ok (decimalWord invert d).length) := by
  unfold decimalWord
  rcases kind_cases d with hk | hk | hk | hk | hk | hk
  · rw [hk]
    cases invert <;> rfl
  · rw [hk]
    cases invert <;> rfl
  · rw [hk]
    exact getDecimalLen_number _ hd (kind_number (.inl hk)).2 suffix
  · rw [hk]
    cases invert <;> rfl
  · rw [hk]
    exact getDecimalLen_number _ hd (kind_number (.inr hk)).2 suffix
  · rw [hk]
    cases invert <;> rfl

/-! The number that comes back. -/

def trailingZeros (coeff : Nat) : Nat := ((Nat.digits 10 coeff).takeWhile (· = 0)).length

def HasRoom (d : Decimal) : Prop := d.form = finite → d.exponent + trailingZeros d.coeff < 2 ^ 31

theorem length_significant (c : Nat) : (significant c).length + trailingZeros c = (digits c).length := by
  have hparts := congrArg List.length (takeWhile_append_dropWhile (p := fun x : Nat => decide (x = 0))
    (l := Nat.digits 10 c))
  rw [length_append] at hparts
  simp only [significant, List.rdropWhile, digits, reverse_reverse, length_reverse, trailingZeros]
  omega

/-- The exponent before it is converted. -/
theorem decoded_exponent (h : d.coeff ≠ 0) :
    2 * e100 d - (strippedDigits d).length = d.exponent + trailingZeros d.coeff := by
  have hlen := length_significant d.coeff
  have he10 : e10 d = d.exponent + (digits d.coeff).length := rfl
  rw [strippedDigits_eq h]
  rcases e100_cases d with heq | heq
  · rw [if_pos heq]
    omega
  · rw [if_neg (by omega), length_cons]
    omega

/-- Without the conversion the number is the same. -/
theorem decoded_magnitude (h : d.coeff ≠ 0) :
    (ofDigits 10 (strippedDigits d) : ℚ) * (10 : ℚ) ^ (2 * e100 d - (strippedDigits d).length) = d.magnitude := by
  obtain ⟨_, _, hmag⟩ := mantissaOf_spec h
  have hfrac : frac 100 (mantissaOf d) = frac 10 (strippedDigits d) := (centimals_spec (strippedDigits_min h)).2
  have hpow : (100 : ℚ) ^ e100 d = (10 : ℚ) ^ (2 * e100 d) := by
    rw [zpow_mul]
    norm_num
  have hdigits := frac_mul_pow (B := 10) (by decide) (strippedDigits d)
  push_cast at hdigits
  rw [hmag, hfrac, hpow, ← hdigits, zpow_sub₀ (by norm_num), zpow_natCast]
  field_simp

theorem bmod_int32 (h : - 2 ^ 31 ≤ e) : Int.bmod e (2 ^ 32) = e ↔ e < 2 ^ 31 := by
  constructor
  · have hlt := Int.bmod_lt (x := e) (m := 2 ^ 32) (by norm_num)
    omega
  intro hlt
  rw [Int.bmod_eq_of_le]
  · omega
  · omega

/-- A number other than zero is decoded to the same number if its exponent has room. -/
theorem decodedNumber_magnitude (hd : d.Valid) (h : d.coeff ≠ 0) :
    (decodedNumber d).magnitude = d.magnitude ↔ d.exponent + trailingZeros d.coeff < 2 ^ 31 := by
  have hexp := decoded_exponent h
  have hmag := decoded_magnitude h
  have hlow : - 2 ^ 31 ≤ 2 * e100 d - (strippedDigits d).length := by
    have := hd.exponent.1
    omega
  rw [← hexp, ← bmod_int32 hlow]
  have hne : (ofDigits 10 (strippedDigits d) : ℚ) ≠ 0 := by
    intro hzero
    rw [hzero, zero_mul] at hmag
    have hpos : 0 < d.magnitude := mul_pos (by exact_mod_cast Nat.pos_of_ne_zero h) (zpow_pos (by norm_num) _)
    exact absurd hmag hpos.ne
  constructor
  · intro heq
    rw [← hmag] at heq
    have hpow := mul_left_cancel₀ hne heq
    exact zpow_right_injective₀ (by norm_num) (by norm_num) hpow
  intro heq
  rw [← hmag]
  show _ * (10 : ℚ) ^ Int.bmod _ _ = _
  rw [heq]
  rfl

theorem finite_of_kind (hd : d.Valid) : d.form = finite ↔ 2 ≤ kind d ∧ kind d ≤ 4 := by
  unfold kind
  rcases hd.form with hf | hf | hf
  · rw [hf, if_neg (by decide), if_neg (by decide)]
    repeat' split
    all_goals omega
  · rw [hf, if_neg (by decide), if_pos rfl]
    refine ⟨fun h => absurd h (by decide), fun h => ?_⟩
    split at h <;> omega
  · rw [hf, if_pos rfl]
    exact ⟨fun h => absurd h (by decide), fun h => by omega⟩

theorem coeff_of_kind (h : kind d = 3) : d.coeff = 0 := by
  unfold kind at h
  repeat' split at h
  all_goals omega

theorem rank_finite (h : d.form = finite) : d.rank = toLex (2, d.value) := by
  rw [rank, h, if_neg (by decide), if_neg (by decide)]

theorem decodedNumber_rank (hd : d.Valid) (hf : d.form = finite) (h : d.coeff ≠ 0) :
    (decodedNumber d).rank = d.rank ↔ HasRoom d := by
  have hroom : HasRoom d ↔ d.exponent + trailingZeros d.coeff < 2 ^ 31 := ⟨fun hr => hr hf, fun hr _ => hr⟩
  have hvalue : (decodedNumber d).rank = d.rank ↔ (decodedNumber d).value = d.value := by
    rw [rank_finite hf, rank_finite (d := decodedNumber d) rfl, toLex_inj, Prod.mk.injEq]
    exact and_iff_right rfl
  rw [hroom, hvalue, ← decodedNumber_magnitude hd h, value, value]
  show (if d.negative then _ else _) = _ ↔ _
  split
  · exact neg_inj
  · exact Iff.rfl

/-- A decimal is decoded to a numerically equal one just if its exponent has room for the zeros at
    the end of its coefficient. -/
theorem decoded_rank (hd : d.Valid) : (decoded d).rank = d.rank ↔ HasRoom d := by
  have hfin := finite_of_kind hd
  have hother : ¬ d.form = finite → HasRoom d := fun hne hf => absurd hf hne
  rcases kind_cases d with hk | hk | hk | hk | hk | hk
  · refine iff_of_true ?_ (hother fun hf => by omega)
    rw [rank_eq hd]
    simp [decoded, hk, rank, level, signed]
  · refine iff_of_true ?_ (hother fun hf => by omega)
    rw [rank_eq hd]
    simp [decoded, hk, rank, infinite, nan, level, signed]
  · rw [decoded, hk]
    exact decodedNumber_rank hd (hfin.mpr (by omega)) (kind_number (.inl hk)).2
  · refine iff_of_true ?_ fun _ => ?_
    · rw [rank_eq hd]
      simp [decoded, hk, rank, value, magnitude, finite, infinite, nan, level, signed]
    rw [coeff_of_kind hk]
    have := hd.exponent.2
    simpa [trailingZeros] using this
  · rw [decoded, hk]
    exact decodedNumber_rank hd (hfin.mpr (by omega)) (kind_number (.inr hk)).2
  · refine iff_of_true ?_ (hother fun hf => by omega)
    rw [rank_eq hd]
    simp [decoded, hk, rank, infinite, nan, level, signed]

/-! The laws of the encoding. -/

/-- An encoder and a decoder of decimals over two decimals and a suffix: the words are in a given
    order and equal for equal numbers, none begins another, and a word that the suffix follows is
    decoded to an equal number and that suffix and has its own length. -/
structure DirectionLaws (encode : Bytes → Decimal → Option Bytes)
    (decode : Bytes → Option (Except Err (Bytes × Decimal))) (below : Prop) (a b : Decimal) (suffix wa wb : Bytes) :
    Prop where
  encodes : ∀ buf, encode buf a = some (buf ++ wa) ∧ encode buf b = some (buf ++ wb)
  order : wa < wb ↔ below
  equal : wa = wb ↔ a.rank = b.rank
  noPrefix : wa <+: wb → wa = wb
  decodes : ∃ d, decode (wa ++ suffix) = some (.ok (suffix, d)) ∧ d.rank = a.rank
  length : getDecimalLen (wa ++ suffix) = some (.ok wa.length)

structure DecimalLaws (a b : Decimal) (suffix : Bytes) : Prop where
  ascending : ∃ wa wb, DirectionLaws encodeDecimalAscending decodeDecimalAscending (a.rank < b.rank) a b suffix wa wb
  descending : ∃ wa wb, DirectionLaws encodeDecimalDescending decodeDecimalDescending (b.rank < a.rank) a b suffix wa wb

variable {a b : Decimal}

/-- Words that part in the order of their ranks, and are equal for equal ones. -/
theorem order_of_parts {κ : Type*} [LinearOrder κ] {x y : κ} {u v : Bytes} (hlt : x < y → Parts u v)
    (heq : x = y → u = v) (hgt : y < x → Parts v u) : (u < v ↔ x < y) ∧ (u = v ↔ x = y) ∧ (u <+: v → u = v) := by
  rcases lt_trichotomy x y with h | h | h
  · have hparts := hlt h
    exact ⟨iff_of_true hparts.lt h, iff_of_false hparts.ne h.ne, fun hpre => absurd hpre hparts.not_prefix⟩
  · have hword := heq h
    exact ⟨iff_of_false (hword ▸ lt_irrefl _) (h ▸ lt_irrefl _), iff_of_true hword h, fun _ => hword⟩
  · have hparts := hgt h
    exact ⟨iff_of_false hparts.lt.not_gt h.not_gt, iff_of_false hparts.ne.symm h.ne',
      fun hpre => absurd hpre hparts.not_prefix'⟩

/-- Without room the ascending decoder already returns another number. -/
theorem not_laws_of_not_room {suffix : Bytes} (ha : a.Valid) (h : ¬ HasRoom a) : ¬ DecimalLaws a b suffix := by
  intro hlaws
  obtain ⟨wa, wb, hasc⟩ := hlaws.ascending
  have hword : wa = decimalWord false a := by
    have henc := (hasc.encodes []).1
    rw [encodeDecimalAscending, encodeDecimal_eq ha] at henc
    exact (Option.some.inj henc).symm
  obtain ⟨d, hdec, hrank⟩ := hasc.decodes
  rw [hword, decodeDecimalAscending, decodeDecimal_decimalWord ha] at hdec
  have hd : decoded a = d := by simpa using hdec
  exact h ((decoded_rank ha).mp (hd ▸ hrank))

/-- The encodings of decimals are in order in both directions and can be told apart and measured; a
    decimal comes back as an equal one if and only if its exponent and the zeros at the end of its
    coefficient together fit an `int32`. -/
theorem decimalLaws_iff_hasRoom (a b : Decimal) (ha : a.Valid) (hb : b.Valid) (suffix : Bytes) :
    DecimalLaws a b suffix ↔ HasRoom a := by
  refine ⟨fun h => by_contra fun hroom => not_laws_of_not_room ha hroom h, fun hroom => ?_⟩
  have hrank := (decoded_rank ha).mpr hroom
  refine ⟨⟨decimalWord false a, decimalWord false b, ?_⟩, decimalWord true a, decimalWord true b, ?_⟩
  · obtain ⟨horder, hequal, hpre⟩ := order_of_parts (fun h => (decimalWord_parts ha hb h).1)
      (fun h => decimalWord_eq ha hb h false) fun h => (decimalWord_parts hb ha h).1
    exact ⟨fun buf => ⟨encodeDecimal_eq ha buf false, encodeDecimal_eq hb buf false⟩, horder, hequal, hpre,
      ⟨decoded a, decodeDecimal_decimalWord ha false suffix, hrank⟩, getDecimalLen_decimalWord ha false suffix⟩
  obtain ⟨horder, hequal, hpre⟩ := order_of_parts (fun h => (decimalWord_parts hb ha h).2)
    (fun h => decimalWord_eq ha hb h.symm true) fun h => (decimalWord_parts ha hb h).2
  exact ⟨fun buf => ⟨encodeDecimal_eq ha buf true, encodeDecimal_eq hb buf true⟩, horder, hequal.trans eq_comm, hpre,
    ⟨decoded a, decodeDecimal_decimalWord ha true suffix, hrank⟩, getDecimalLen_decimalWord ha true suffix⟩

/-- Ten with the largest exponent, which is decoded to one with the smallest. -/
def tenMax : Decimal := ⟨finite, false, 2 ^ 31 - 1, 10⟩

theorem tenMax_valid : tenMax.Valid := by
  refine ⟨.inl rfl, ⟨by decide, by decide⟩, ?_⟩
  simp [tenMax, digits]

theorem tenMax_breaks : tenMax.Valid ∧ (encodeDecimalAscending [] tenMax).bind decodeDecimalAscending =
    some (.ok ([], ⟨finite, false, - 2 ^ 31, 1⟩)) ∧ ¬ DecimalLaws tenMax tenMax [] := by
  refine ⟨tenMax_valid, by decide +kernel, not_laws_of_not_room tenMax_valid fun hroom => ?_⟩
  have hzeros : trailingZeros 10 = 1 := by simp [trailingZeros]
  have hlt := hroom rfl
  simp only [tenMax] at hlt
  omega

/-- One and a half, negative, and the positive infinity. -/
theorem decimalLaws_oneAndHalf :
    DecimalLaws ⟨finite, true, -1, 15⟩ ⟨infinite, false, 0, 0⟩ [7] :=
  (decimalLaws_iff_hasRoom _ _ ⟨.inl rfl, ⟨by decide, by decide⟩, by simp [digits]⟩
    ⟨.inr (.inl rfl), ⟨by decide, by decide⟩, by simp [digits]⟩ _).mpr fun _ => by
      simp [trailingZeros]

end Ratel.Encoding
