import Ratel.Encoding.Decimal

/- The words of decimals are in the order of SQL. The first byte tells apart NaN, the infinities,
   zero and the two signs. Numbers of one sign are compared by their exponents and then by their
   mantissas: the base-100 string of a number is minimal and does not start with zero, so that order
   is the order of the numbers. -/
namespace Ratel.Encoding

open Ratel.Lib List Decimal

/-! Descending varints. -/

theorem bigEndian_complement : ∀ {n k v : Nat}, n ≤ k → v < 256 ^ k →
    bigEndian n (256 ^ k - 1 - v) = onesComplement (bigEndian n v)
  | 0, _, _, _, _ => rfl
  | n + 1, 0, _, hn, _ => by omega
  | n + 1, k + 1, v, hn, hv => by
    have hdiv : (256 ^ (k + 1) - 1 - v) / 256 = 256 ^ k - 1 - v / 256 := by omega
    have hlast : UInt8.ofNat (256 ^ (k + 1) - 1 - v) = ~~~ UInt8.ofNat v := by
      have hsize : UInt8.size = 256 := rfl
      rw [← UInt8.toNat_inj, UInt8.toNat_not, UInt8.toNat_ofNat', UInt8.toNat_ofNat']
      omega
    rw [bigEndian, bigEndian, hdiv, bigEndian_complement (by omega) (by omega), hlast]
    simp [onesComplement]

variable {v x : Nat} {l : List Nat} {d a b : Decimal} {e : Int}

theorem uvarintDescending_pos (h : v ≠ 0) (hv : v < 2 ^ 64) :
    uvarintDescending v =
      UInt8.ofNat (intMin + 8 - uvarintWidth v) :: onesComplement (bigEndian (uvarintWidth v) v) := by
  have hb := uvarintWidth_bounds v
  have hcomp := bigEndian_complement (n := uvarintWidth v) (k := 8) (v := v) hb.2 (by omega)
  rw [uvarintDescending, if_neg h, ← hcomp]
  norm_num

/-- Descending varints of larger values part from those of smaller ones. -/
theorem uvarintDescending_parts {w : Nat} (h : v < w) (hw : w < 2 ^ 64) :
    Parts (uvarintDescending w) (uvarintDescending v) := by
  have hbw := uvarintWidth_bounds w
  rw [uvarintDescending_pos (by omega) hw]
  by_cases hv : v = 0
  · rw [uvarintDescending, if_pos hv]
    apply Parts.of_lt
    rw [uint8_lt_iff]
    simp only [intMin, UInt8.toNat_ofNat']
    omega
  rw [uvarintDescending_pos hv (by omega)]
  rcases lt_or_eq_of_le (uvarintWidth_mono (le_of_lt h) hw) with hlt | heq
  · apply Parts.of_lt
    rw [uint8_lt_iff]
    simp only [intMin, UInt8.toNat_ofNat']
    omega
  · rw [heq]
    exact (parts_onesComplement (bigEndian_parts h (lt_pow_uvarintWidth hw))).cons _

theorem decodeUvarintDescending_uvarintDescending (hv : v < 2 ^ 64) (r : Bytes) :
    decodeUvarintDescending (uvarintDescending v ++ r) = .ok (r, v) := by
  by_cases h : v = 0
  · subst h
    simp [uvarintDescending, decodeUvarintDescending, intZero, intMaxWidth, intMin, onesComplement, fromBigEndian]
  have hb := uvarintWidth_bounds v
  have htag : (intZero : Int) - (UInt8.ofNat (intMin + 8 - uvarintWidth v)).toNat = uvarintWidth v := by
    simp only [intZero, intMaxWidth, intMin, UInt8.toNat_ofNat']
    omega
  have hlen : (onesComplement (bigEndian (uvarintWidth v) v)).length = uvarintWidth v := by simp [onesComplement]
  rw [uvarintDescending_pos h hv, cons_append, decodeUvarintDescending]
  simp only [htag]
  rw [if_neg (by omega), if_neg (by simp [hlen]), Int.toNat_natCast, drop_left' hlen, take_left' hlen,
    onesComplement_onesComplement, fromBigEndian_bigEndian (lt_pow_uvarintWidth hv)]

theorem getVarintLen_uvarint (v : Nat) (r : Bytes) :
    getVarintLen (uvarint v ++ r) = some (.ok (uvarint v).length) := by
  rw [uvarint_length]
  by_cases hv : v ≤ intSmall
  · have hb : ((UInt8.ofNat (intZero + v)).toNat : Int) - intZero = v := by
      simp only [intSmall, intMax, intZero, intMin, intMaxWidth, UInt8.toNat_ofNat'] at *
      omega
    rw [uvarint_small hv, if_pos hv, cons_append, getVarintLen]
    rw [if_pos (by omega)]
  have hb := uvarintWidth_bounds v
  have ht := large_tag v
  have hlen : (bigEndian (uvarintWidth v) v).length = uvarintWidth v := bigEndian_length _ _
  rw [uvarint_large (by omega), if_neg hv, cons_append, getVarintLen]
  have hpos : (0 : Int) ≤ (UInt8.ofNat (intMax - 8 + uvarintWidth v)).toNat - intZero := by omega
  have hlarge : ¬ (((UInt8.ofNat (intMax - 8 + uvarintWidth v)).toNat : Int) - intZero ≤ intSmall) := by omega
  simp only [hpos, hlarge, and_false, if_false, if_true]
  rw [if_neg (by simp only [length_cons, length_append]; omega)]
  congr 2
  omega

theorem uvarintDescending_length (hv : v < 2 ^ 64) :
    (uvarintDescending v).length = if v = 0 then 1 else 1 + uvarintWidth v := by
  split
  · next h => simp [uvarintDescending, h]
  · next h => simp [uvarintDescending_pos h hv, onesComplement, Nat.add_comm]

theorem getVarintLen_uvarintDescending (hv : v < 2 ^ 64) (r : Bytes) :
    getVarintLen (uvarintDescending v ++ r) = some (.ok (uvarintDescending v).length) := by
  rw [uvarintDescending_length hv]
  by_cases h : v = 0
  · subst h
    simp [uvarintDescending, getVarintLen, intZero, intMaxWidth, intMin]
  have hb := uvarintWidth_bounds v
  have htag : ((UInt8.ofNat (intMin + 8 - uvarintWidth v)).toNat : Int) - intZero = - uvarintWidth v := by
    simp only [intZero, intMaxWidth, intMin, UInt8.toNat_ofNat']
    omega
  rw [uvarintDescending_pos h hv, if_neg h, cons_append, getVarintLen]
  have hneg : ¬ (0 : Int) ≤ - uvarintWidth v := by omega
  simp only [htag, hneg, false_and, if_false]
  rw [if_neg (by simp only [length_cons, length_append, onesComplement, length_map, bigEndian_length]; omega)]
  congr 2
  omega

/-! Mantissas. -/

theorem mantissa_cons (h : l ≠ []) : mantissa (x :: l) = UInt8.ofNat (2 * x + 1) :: mantissa l := by
  cases l with
  | nil => exact absurd rfl h
  | cons y l => rfl

/-- The first byte of a mantissa is `2x` or `2x+1`. -/
theorem mantissa_head (hx : x < 100) :
    ∃ c t, mantissa (x :: l) = c :: t ∧ 2 * x ≤ c.toNat ∧ c.toNat ≤ 2 * x + 1 := by
  cases l with
  | nil | cons _ _ =>
    refine ⟨_, _, rfl, ?_⟩
    rw [UInt8.toNat_ofNat']
    omega

/-- Mantissas are in the order of their digits. -/
theorem mantissa_parts : ∀ {l r : List Nat}, MinDigits 100 l → MinDigits 100 r → l < r → Parts (mantissa l) (mantissa r)
  | [], _, hl, _, _ => hl.elim
  | _ :: _, [], _, hr, _ => hr.elim
  | x :: l, y :: r, hl, hr, h => by
    have hx := hl.lt_base x mem_cons_self
    have hy := hr.lt_base y mem_cons_self
    rcases cons_lt_cons_iff.mp h with hlt | heq
    · obtain ⟨c, t, hc, _, hc'⟩ := mantissa_head (l := l) hx
      obtain ⟨d, u, hd, hd', _⟩ := mantissa_head (l := r) hy
      rw [hc, hd]
      exact Parts.of_lt (uint8_lt_iff.mpr (by omega)) _ _
    obtain ⟨rfl, hlt⟩ := heq
    match l, r, hl, hr, hlt with
    | [], z :: r, _, _, _ =>
      -- the last digit of the shorter string is the smaller byte
      refine Parts.of_lt ?_ _ _
      rw [uint8_lt_iff, UInt8.toNat_ofNat', UInt8.toNat_ofNat']
      omega
    | z :: l, w :: r, hl, hr, hlt => exact (mantissa_parts hl.2 hr.2 hlt).cons _

/-- No byte of a mantissa is zero, and none is after complementing. -/
theorem mantissa_bytes : ∀ {l : List Nat}, MinDigits 100 l → ∀ c ∈ mantissa l, 0 < c.toNat ∧ c.toNat < 200
  | [x], h, c, hc => by
    rw [mem_singleton.mp hc, UInt8.toNat_ofNat']
    have := h.1
    have := h.2
    omega
  | x :: y :: l, h, c, hc => by
    rcases mem_cons.mp hc with heq | hc
    · rw [heq, UInt8.toNat_ofNat']
      have := h.1
      omega
    · exact mantissa_bytes h.2 c hc

theorem terminator_not_mem (h : MinDigits 100 l) : decimalTerminator ∉ mantissa l := by
  intro hmem
  exact absurd (mantissa_bytes h _ hmem).1 (by decide)

theorem terminator_not_mem_complement (h : MinDigits 100 l) :
    decimalTerminator ∉ onesComplement (mantissa l) := by
  intro hmem
  obtain ⟨c, hc, heq⟩ := mem_map.mp hmem
  have hlt := (mantissa_bytes h c hc).2
  have hnot := congrArg UInt8.toNat heq
  have hsize : UInt8.size = 256 := rfl
  rw [UInt8.toNat_not] at hnot
  have hzero : decimalTerminator.toNat = 0 := rfl
  omega

/-! The digits of a coefficient. -/

theorem digits_lt (c : Nat) : ∀ x ∈ digits c, x < 10 := by
  intro x hx
  exact Nat.digits_lt_base (by decide) (mem_reverse.mp hx)

theorem ofDigits_digits (c : Nat) : ofDigits 10 (digits c) = c := by
  have hfold : ∀ l : List Nat, ofDigits 10 l.reverse = Nat.ofDigits 10 l := by
    intro l
    induction l with
    | nil => rfl
    | cons x l ih =>
      rw [reverse_cons, Nat.ofDigits_cons, ← ih, ofDigits, foldl_append]
      simp only [foldl_cons, foldl_nil, ofDigits]
      ring
  rw [digits, hfold, Nat.ofDigits_digits]

/-- The digits without the zeros at the end. -/
def significant (c : Nat) : List Nat := (digits c).rdropWhile (· = 0)

theorem digits_head {c : Nat} (h : c ≠ 0) : ∃ x l, digits c = x :: l ∧ 0 < x := by
  have hne : Nat.digits 10 c ≠ [] := Nat.digits_ne_nil_iff_ne_zero.mpr h
  have hlast := Nat.getLast_digit_ne_zero 10 h
  have hparts := dropLast_append_getLast hne
  generalize (Nat.digits 10 c).getLast hne = x at hparts hlast
  refine ⟨x, (Nat.digits 10 c).dropLast.reverse, ?_, Nat.pos_of_ne_zero hlast⟩
  rw [digits, ← hparts]
  simp

theorem rdropWhile_cons (h : x ≠ 0 ∨ l.rdropWhile (· = 0) ≠ []) :
    (x :: l).rdropWhile (· = 0) = x :: l.rdropWhile (· = 0) := by
  induction l using List.reverseRecOn with
  | nil => simpa [List.rdropWhile] using h
  | append_singleton l y ih =>
    by_cases hy : y = 0
    · subst hy
      rw [rdropWhile_concat_pos _ _ _ (by simp)] at h ⊢
      rw [← cons_append, rdropWhile_concat_pos _ _ _ (by simp), ih h]
    · rw [rdropWhile_concat_neg _ _ _ (by simpa using hy), ← cons_append,
        rdropWhile_concat_neg _ _ _ (by simpa using hy)]

/-- The significant digits start and end with a digit other than zero. -/
theorem significant_spec {c : Nat} (h : c ≠ 0) :
    (∃ x l, significant c = x :: l ∧ 0 < x) ∧ MinDigits 10 (significant c) ∧
      frac 10 (significant c) = frac 10 (digits c) := by
  obtain ⟨x, l, hdig, hx⟩ := digits_head h
  have hsig : significant c = x :: l.rdropWhile (· = 0) := by
    rw [significant, hdig, rdropWhile_cons (.inl hx.ne')]
  have hne : significant c ≠ [] := by simp [hsig]
  refine ⟨⟨x, _, hsig, hx⟩, minDigits_of_getLast hne (fun y hy => ?_) ?_, frac_rdropWhile _⟩
  · exact digits_lt c y (( rdropWhile_prefix _ _).subset hy)
  · have hlast := rdropWhile_last_not (fun y : Nat => decide (y = 0)) (digits c) hne
    exact fun hzero => hlast (decide_eq_true hzero)

theorem strippedDigits_eq (h : d.coeff ≠ 0) :
    strippedDigits d = if e100 d * 2 = e10 d then significant d.coeff else 0 :: significant d.coeff := by
  obtain ⟨⟨x, l, hsig, _⟩, _⟩ := significant_spec h
  have hne : (digits d.coeff).rdropWhile (· = 0) ≠ [] := by
    show significant d.coeff ≠ []
    simp [hsig]
  rw [strippedDigits, rdropWhile_cons (.inr hne)]
  rfl

/-! Base 100. -/

/-- The two ways in which a power of 10 becomes one of 100. -/
theorem e100_cases (d : Decimal) : e100 d * 2 = e10 d ∨ e100 d * 2 = e10 d + 1 := by
  unfold e100
  split
  · next h =>
    rw [Int.tdiv_eq_ediv_of_nonneg (by omega)]
    omega
  next h =>
  have hneg : (e10 d).tdiv 2 = - ((- e10 d) / 2) := by
    rw [← Int.tdiv_eq_ediv_of_nonneg (by omega), Int.neg_tdiv, Int.neg_neg]
  omega

theorem evenDigits_cons (x y : Nat) (l : List Nat) : evenDigits (x :: y :: l) = x :: y :: evenDigits l := by
  have hpar : (x :: y :: l).length % 2 = l.length % 2 := by
    simp only [length_cons]
    omega
  rw [evenDigits, evenDigits, hpar]
  split
  · rfl
  · rfl

/-- Pairs of decimal digits: a minimal string in base 100 with the same fraction. -/
theorem centimals_spec : ∀ {l : List Nat}, MinDigits 10 l →
    MinDigits 100 (centimals (evenDigits l)) ∧ frac 100 (centimals (evenDigits l)) = frac 10 l
  | [x], h => by
    have h1 := h.1
    have h2 := h.2
    have hc : centimals (evenDigits [x]) = [10 * x] := rfl
    rw [hc]
    refine ⟨⟨by omega, by omega⟩, ?_⟩
    simp only [frac]
    push_cast
    ring
  | [x, y], h => by
    have h1 := h.1
    have h2 := h.2.1
    have h3 := h.2.2
    have hc : centimals (evenDigits [x, y]) = [10 * x + y] := by simp [evenDigits, centimals]
    rw [hc]
    refine ⟨⟨by omega, by omega⟩, ?_⟩
    simp only [frac]
    push_cast
    ring
  | x :: y :: z :: l, h => by
    obtain ⟨hmin, hfrac⟩ := centimals_spec h.2.2
    have h1 := h.1
    have h2 := h.2.1
    rw [evenDigits_cons, centimals]
    refine ⟨MinDigits.prepend (by omega) hmin, ?_⟩
    have hxy : frac 10 (x :: y :: z :: l) = (x + (y + frac 10 (z :: l)) / (10 : Nat)) / (10 : Nat) := rfl
    rw [frac, hfrac, hxy]
    push_cast
    ring

def mantissaOf (d : Decimal) : List Nat := centimals (evenDigits (strippedDigits d))

/-- A number other than zero is its mantissa times its power of 100, and the mantissa is minimal and
    does not start with zero. -/
theorem mantissaOf_spec (h : d.coeff ≠ 0) :
    (∃ x l, mantissaOf d = x :: l ∧ 0 < x) ∧ MinDigits 100 (mantissaOf d) ∧
      d.magnitude = frac 100 (mantissaOf d) * (100 : ℚ) ^ e100 d := by
  obtain ⟨⟨x, l, hsig, hx⟩, hmin, hfrac⟩ := significant_spec h
  have hstrip := strippedDigits_eq h
  have hmag : d.magnitude = frac 10 (significant d.coeff) * (10 : ℚ) ^ e10 d := by
    have hcoeff := frac_mul_pow (B := 10) (by decide) (digits d.coeff)
    rw [ofDigits_digits] at hcoeff
    rw [magnitude, ← hcoeff, hfrac, e10, zpow_add₀ (by norm_num), zpow_natCast]
    ring
  have hpow : (100 : ℚ) ^ e100 d = (10 : ℚ) ^ (e100 d * 2) := by
    rw [zpow_mul']
    norm_num
  unfold mantissaOf
  rcases e100_cases d with heq | heq
  · rw [if_pos heq] at hstrip
    obtain ⟨hmin100, hfrac100⟩ := centimals_spec (hstrip ▸ hmin)
    refine ⟨?_, hmin100, ?_⟩
    · rw [hstrip, hsig]
      cases l with
      | nil => exact ⟨10 * x, [], rfl, by omega⟩
      | cons y l => exact ⟨10 * x + y, _, by rw [evenDigits_cons, centimals], by omega⟩
    · rw [hmag, hfrac100, hpow, heq, hstrip]
  have hne : e100 d * 2 ≠ e10 d := by omega
  rw [if_neg hne] at hstrip
  obtain ⟨hmin100, hfrac100⟩ := centimals_spec (hstrip ▸ MinDigits.prepend (by decide) hmin)
  refine ⟨?_, hmin100, ?_⟩
  · rw [hstrip, hsig, evenDigits_cons, centimals]
    exact ⟨10 * 0 + x, _, rfl, by omega⟩
  · rw [hmag, hfrac100, hpow, heq, hstrip, frac, zpow_add₀ (by norm_num)]
    ring

/-! Words of numbers. -/

/-- The exponent of a valid number fits a varint. -/
theorem e100_bounds (h : d.Valid) : - 2 ^ 63 < e100 d ∧ e100 d < 2 ^ 63 := by
  have hexp := h.exponent
  have hlen := h.coeff
  have he10 : e10 d = d.exponent + (digits d.coeff).length := rfl
  rcases e100_cases d with heq | heq
  · omega
  · omega

theorem encodeEandM_small (neg : Bool) (m : Bytes) (h : e < 0) :
    encodeEandM neg e m = encodeSmallNumber neg e m := if_pos h

theorem encodeEandM_medium (neg : Bool) (m : Bytes) (h : 0 ≤ e) (h' : e ≤ 10) :
    encodeEandM neg e m = encodeMediumNumber neg e m := by
  rw [encodeEandM, if_neg (by omega), if_pos h']

theorem encodeEandM_large (neg : Bool) (m : Bytes) (h : 10 < e) :
    encodeEandM neg e m = encodeLargeNumber neg e m := by
  rw [encodeEandM, if_neg (by omega), if_neg (by omega)]

/-- The markers of numbers as they are in the file format. -/
theorem markers : decimalNegLarge = 26 ∧ decimalNegMedium = 37 ∧ decimalNegSmall = 38 ∧ decimalPosSmall = 40 ∧
    decimalPosMedium = 41 ∧ decimalPosLarge = 52 := ⟨rfl, rfl, rfl, rfl, rfl, rfl⟩

theorem parts_tags {a b : Nat} (h : a < b) (hb : b < 256) (s t : Bytes) :
    Parts (UInt8.ofNat a :: s) (UInt8.ofNat b :: t) := by
  apply Parts.of_lt
  rw [uint8_lt_iff, UInt8.toNat_ofNat', UInt8.toNat_ofNat']
  omega

/-- The first byte of a number tells its sign. -/
theorem encodeEandM_head (neg : Bool) (e : Int) (m : Bytes) :
    ∃ c t, encodeEandM neg e m = UInt8.ofNat c :: t ∧
      if neg then decimalNegLarge ≤ c ∧ c ≤ decimalNegSmall else decimalPosSmall ≤ c ∧ c ≤ decimalPosLarge := by
  obtain ⟨_, _, _, _, _, _⟩ := markers
  by_cases hs : e < 0
  · rw [encodeEandM_small neg m hs]
    cases neg with
    | false | true => exact ⟨_, _, rfl, by decide⟩
  by_cases hm : e ≤ 10
  · rw [encodeEandM_medium neg m (by omega) hm]
    cases neg with
    | false =>
      refine ⟨_, _, rfl, ?_⟩
      simp only [Bool.false_eq_true, if_false]
      omega
    | true =>
      refine ⟨_, _, rfl, ?_⟩
      simp only [if_true]
      omega
  · rw [encodeEandM_large neg m (by omega)]
    cases neg with
    | false | true => exact ⟨_, _, rfl, by decide⟩

/-- Numbers of one sign with different exponents. -/
theorem encodeEandM_parts {e' : Int} (m m' : Bytes) (h : e < e') (hlo : - 2 ^ 63 < e) (hhi : e' < 2 ^ 63) :
    Parts (encodeEandM false e m) (encodeEandM false e' m') ∧ Parts (encodeEandM true e' m') (encodeEandM true e m) := by
  obtain ⟨_, _, _, _, _, _⟩ := markers
  by_cases hs : e < 0
  · rw [encodeEandM_small _ m hs, encodeEandM_small _ m hs]
    by_cases hs' : e' < 0
    · have hexp : (-e').toNat < (-e).toNat := by omega
      rw [encodeEandM_small _ m' hs', encodeEandM_small _ m' hs']
      exact ⟨((uvarintDescending_parts hexp (by omega)).append _ _).cons _,
        ((uvarint_parts hexp (by omega)).append _ _).cons _⟩
    by_cases hm' : e' ≤ 10
    · rw [encodeEandM_medium _ m' (by omega) hm', encodeEandM_medium _ m' (by omega) hm']
      exact ⟨parts_tags (by omega) (by omega) _ _, parts_tags (by omega) (by omega) _ _⟩
    · rw [encodeEandM_large _ m' (by omega), encodeEandM_large _ m' (by omega)]
      exact ⟨parts_tags (by omega) (by omega) _ _, parts_tags (by omega) (by omega) _ _⟩
  by_cases hm : e ≤ 10
  · rw [encodeEandM_medium _ m (by omega) hm, encodeEandM_medium _ m (by omega) hm]
    by_cases hm' : e' ≤ 10
    · rw [encodeEandM_medium _ m' (by omega) hm', encodeEandM_medium _ m' (by omega) hm']
      exact ⟨parts_tags (by omega) (by omega) _ _, parts_tags (by omega) (by omega) _ _⟩
    · rw [encodeEandM_large _ m' (by omega), encodeEandM_large _ m' (by omega)]
      exact ⟨parts_tags (by omega) (by omega) _ _, parts_tags (by omega) (by omega) _ _⟩
  · have hexp : e.toNat < e'.toNat := by omega
    rw [encodeEandM_large _ m (by omega), encodeEandM_large _ m (by omega), encodeEandM_large _ m' (by omega),
      encodeEandM_large _ m' (by omega)]
    exact ⟨((uvarint_parts hexp (by omega)).append _ _).cons _,
      ((uvarintDescending_parts hexp (by omega)).append _ _).cons _⟩

/-- Numbers with one exponent are in the order of their mantissas. -/
theorem encodeEandM_mantissa_parts {m m' : Bytes} (h : Parts m m') :
    Parts (encodeEandM false e m) (encodeEandM false e m') ∧ Parts (encodeEandM true e m') (encodeEandM true e m) := by
  have hasc := h.append [decimalTerminator] [decimalTerminator]
  have hdesc := (parts_onesComplement h).append [decimalTerminator] [decimalTerminator]
  unfold encodeEandM
  split
  · exact ⟨(hasc.append_left _).cons _, (hdesc.append_left _).cons _⟩
  split
  · exact ⟨hasc.cons _, hdesc.cons _⟩
  · exact ⟨(hasc.append_left _).cons _, (hdesc.append_left _).cons _⟩

/-- The bytes of a number other than zero. -/
def numberWord (neg : Bool) (d : Decimal) : Bytes := encodeEandM neg (e100 d) (mantissa (mantissaOf d))

/-- A smaller number without its sign. -/
theorem numberWord_parts (ha : a.Valid) (hb : b.Valid) (hac : a.coeff ≠ 0) (hbc : b.coeff ≠ 0)
    (h : a.magnitude < b.magnitude) :
    Parts (numberWord false a) (numberWord false b) ∧ Parts (numberWord true b) (numberWord true a) := by
  obtain ⟨⟨x, l, hax, hx⟩, hamin, hamag⟩ := mantissaOf_spec hac
  obtain ⟨⟨y, r, hby, hy⟩, hbmin, hbmag⟩ := mantissaOf_spec hbc
  have hae := e100_bounds ha
  have hbe := e100_bounds hb
  rcases lt_trichotomy (e100 a) (e100 b) with hlt | heq | hgt
  · exact encodeEandM_parts _ _ hlt hae.1 hbe.2
  · -- the same exponent: the mantissas decide
    have hpos : (0 : ℚ) < (100 : ℚ) ^ e100 b := zpow_pos (by norm_num) _
    rw [hamag, hbmag, heq] at h
    have hfrac := lt_of_mul_lt_mul_right h hpos.le
    have hlex : mantissaOf a < mantissaOf b := by
      rcases lt_trichotomy (mantissaOf a) (mantissaOf b) with hlt | heq | hgt
      · exact hlt
      · rw [heq] at hfrac
        exact absurd hfrac (lt_irrefl _)
      · exact absurd (hbmin.frac_lt hamin hgt) (not_lt.mpr hfrac.le)
    unfold numberWord
    rw [heq]
    exact encodeEandM_mantissa_parts (mantissa_parts hamin hbmin hlex)
  · have hcontra := scaled_lt (B := 100) hbmin (hax ▸ hamin) hx hgt
    rw [hamag, hbmag] at h
    rw [← hax] at hcontra
    exact absurd h (not_lt.mpr hcontra.le)

/-- Equal numbers have one mantissa and one exponent. -/
theorem numberWord_eq (hac : a.coeff ≠ 0) (hbc : b.coeff ≠ 0) (h : a.magnitude = b.magnitude) :
    e100 a = e100 b ∧ mantissaOf a = mantissaOf b := by
  obtain ⟨⟨x, l, hax, hx⟩, hamin, hamag⟩ := mantissaOf_spec hac
  obtain ⟨⟨y, r, hby, hy⟩, hbmin, hbmag⟩ := mantissaOf_spec hbc
  have he : e100 a = e100 b := by
    rcases lt_trichotomy (e100 a) (e100 b) with hlt | heq | hgt
    · have hcontra := scaled_lt (B := 100) hamin (hby ▸ hbmin) hy hlt
      push_cast at hcontra
      rw [← hby, ← hamag, ← hbmag] at hcontra
      exact absurd h hcontra.ne
    · exact heq
    · have hcontra := scaled_lt (B := 100) hbmin (hax ▸ hamin) hx hgt
      push_cast at hcontra
      rw [← hax, ← hamag, ← hbmag] at hcontra
      exact absurd h hcontra.ne'
  have hpos : (100 : ℚ) ^ e100 b ≠ 0 := (zpow_pos (by norm_num) _).ne'
  rw [hamag, hbmag, he] at h
  have hfrac := mul_right_cancel₀ hpos h
  refine ⟨he, ?_⟩
  rcases lt_trichotomy (mantissaOf a) (mantissaOf b) with hlt | heq | hgt
  · exact absurd hfrac (hamin.frac_lt hbmin hlt).ne
  · exact heq
  · exact absurd hfrac (hbmin.frac_lt hamin hgt).ne'

/-! Words of decimals. -/

/-- What the first byte tells apart: NaN, the negative infinity, negative numbers, zero, positive
    numbers, the positive infinity. -/
def kind (d : Decimal) : Nat :=
  if d.form = nan then 0
  else if d.form = infinite then (if d.negative then 1 else 5)
  else if d.coeff = 0 then 3
  else if d.negative then 2 else 4

/-- The bytes that `encodeDecimal` appends. -/
def decimalWord (invert : Bool) (d : Decimal) : Bytes :=
  match kind d with
  | 0 => [UInt8.ofNat (if invert then decimalNaNDesc else decimalNaN)]
  | 1 => [UInt8.ofNat (if invert then decimalInfinity else decimalNegativeInfinity)]
  | 2 => numberWord (!invert) d
  | 3 => [UInt8.ofNat decimalZero]
  | 4 => numberWord invert d
  | _ => [UInt8.ofNat (if invert then decimalNegativeInfinity else decimalInfinity)]

theorem encodeDecimal_eq (h : d.Valid) (b : Bytes) (invert : Bool) :
    encodeDecimal b d invert = some (b ++ decimalWord invert d) := by
  unfold encodeDecimal decimalWord kind isZero
  rcases h.form with hf | hf | hf
  · by_cases hc : d.coeff = 0
    · simp [hf, hc, finite, nan, infinite]
    · cases d.negative <;> cases invert <;>
        simp [hf, hc, finite, nan, infinite, numberWord, decimalEandM, mantissaOf]
  · cases d.negative <;> cases invert <;> simp [hf, finite, nan, infinite]
  · cases invert <;> simp [hf, finite, nan, infinite]

/-- The levels of the order that the kinds are on, and the numbers there. -/
def level (k : Nat) : Nat := if k ≤ 1 then k else if k ≤ 4 then 2 else 3

def signed (d : Decimal) : ℚ := if kind d = 2 then - d.magnitude else if kind d = 4 then d.magnitude else 0

theorem level_cases (k : Nat) : (k ≤ 1 ∧ level k = k) ∨ (2 ≤ k ∧ k ≤ 4 ∧ level k = 2) ∨ (5 ≤ k ∧ level k = 3) := by
  unfold level
  split
  · omega
  · split <;> omega

theorem kind_le (d : Decimal) : kind d ≤ 5 := by
  unfold kind
  repeat' split
  all_goals omega

theorem kind_number (h : kind d = 2 ∨ kind d = 4) : 0 < d.magnitude ∧ d.coeff ≠ 0 := by
  have hc : d.coeff ≠ 0 := by
    intro hc
    unfold kind at h
    repeat' split at h
    all_goals omega
  exact ⟨mul_pos (by exact_mod_cast Nat.pos_of_ne_zero hc) (zpow_pos (by norm_num) _), hc⟩

theorem rank_eq (h : d.Valid) : d.rank = toLex (level (kind d), signed d) := by
  unfold rank value level signed kind
  rcases h.form with hf | hf | hf
  · by_cases hc : d.coeff = 0
    · simp [hf, hc, finite, nan, infinite, magnitude]
    · cases d.negative <;> simp [hf, hc, finite, nan, infinite]
  · cases d.negative <;> simp [hf, nan, infinite]
  · simp [hf]

theorem signed_neg (h : kind d = 2) : signed d < 0 := by
  rw [signed, if_pos h]
  exact neg_neg_of_pos (kind_number (.inl h)).1

theorem signed_zero (h : kind d = 3) : signed d = 0 := by
  rw [signed, if_neg (by omega), if_neg (by omega)]

theorem signed_pos (h : kind d = 4) : 0 < signed d := by
  rw [signed, if_neg (by omega), if_pos h]
  exact (kind_number (.inr h)).1

/-- The numbers of one level are in the order of their kinds. -/
theorem signed_lt (hlevel : level (kind a) = level (kind b)) (h : kind a < kind b) :
    signed a < signed b := by
  have hb := kind_le b
  have hmid : 2 ≤ kind a ∧ kind b ≤ 4 := by
    have := level_cases (kind a)
    have := level_cases (kind b)
    omega
  have hcases : (kind a = 2 ∧ kind b = 3) ∨ (kind a = 2 ∧ kind b = 4) ∨ (kind a = 3 ∧ kind b = 4) := by omega
  rcases hcases with ⟨ha, hb⟩ | ⟨ha, hb⟩ | ⟨ha, hb⟩
  · exact (signed_neg ha).trans_eq (signed_zero hb).symm
  · exact (signed_neg ha).trans (signed_pos hb)
  · exact (signed_zero ha).trans_lt (signed_pos hb)

/-- A smaller decimal has a smaller kind, or is a number of the same sign. -/
theorem kind_of_rank_lt (ha : a.Valid) (hb : b.Valid) (h : a.rank < b.rank) :
    kind a < kind b ∨ (kind a = 2 ∧ kind b = 2 ∧ b.magnitude < a.magnitude) ∨
      (kind a = 4 ∧ kind b = 4 ∧ a.magnitude < b.magnitude) := by
  rw [rank_eq ha, rank_eq hb, Prod.Lex.toLex_lt_toLex] at h
  rcases h with hlt | h
  · have := level_cases (kind a)
    have := level_cases (kind b)
    omega
  obtain ⟨hlevel, hlt⟩ := h
  rcases lt_trichotomy (kind a) (kind b) with hk | hk | hk
  · exact .inl hk
  · refine .inr ?_
    simp only [signed, hk] at hlt
    by_cases h2 : kind b = 2
    · rw [if_pos h2, if_pos h2, neg_lt_neg_iff] at hlt
      exact .inl ⟨hk.trans h2, h2, hlt⟩
    rw [if_neg h2, if_neg h2] at hlt
    by_cases h4 : kind b = 4
    · rw [if_pos h4, if_pos h4] at hlt
      exact .inr ⟨hk.trans h4, h4, hlt⟩
    · rw [if_neg h4, if_neg h4] at hlt
      exact absurd hlt (lt_irrefl _)
  · exact absurd hlt (signed_lt hlevel.symm hk).not_gt

/-- Equal decimals are of one kind, and have one magnitude if they are numbers other than zero. -/
theorem kind_of_rank_eq (ha : a.Valid) (hb : b.Valid) (h : a.rank = b.rank) :
    kind a = kind b ∧ (kind a = 2 ∨ kind a = 4 → a.magnitude = b.magnitude) := by
  rw [rank_eq ha, rank_eq hb] at h
  have hlevel : level (kind a) = level (kind b) := congrArg (fun r => (ofLex r).1) h
  have hsigned : signed a = signed b := congrArg (fun r => (ofLex r).2) h
  have hk : kind a = kind b := by
    rcases lt_trichotomy (kind a) (kind b) with hk | hk | hk
    · exact absurd hsigned (signed_lt hlevel hk).ne
    · exact hk
    · exact absurd hsigned (signed_lt hlevel.symm hk).ne'
  refine ⟨hk, fun hnum => ?_⟩
  rw [signed, signed, ← hk] at hsigned
  rcases hnum with h2 | h4
  · rw [if_pos h2, if_pos h2] at hsigned
    exact neg_inj.mp hsigned
  have hne : ¬ kind a = 2 := by omega
  rw [if_neg hne, if_neg hne, if_pos h4, if_pos h4] at hsigned
  exact hsigned

/-- The first bytes of a kind. -/
def tagRange (invert : Bool) : Nat → Nat × Nat
  | 0 => if invert then (decimalNaNDesc, decimalNaNDesc) else (decimalNaN, decimalNaN)
  | 1 => if invert then (decimalInfinity, decimalInfinity) else (decimalNegativeInfinity, decimalNegativeInfinity)
  | 2 => if invert then (decimalPosSmall, decimalPosLarge) else (decimalNegLarge, decimalNegSmall)
  | 3 => (decimalZero, decimalZero)
  | 4 => if invert then (decimalNegLarge, decimalNegSmall) else (decimalPosSmall, decimalPosLarge)
  | _ => if invert then (decimalNegativeInfinity, decimalNegativeInfinity) else (decimalInfinity, decimalInfinity)

theorem tagRange_lt : ∀ k' ≤ 5, ∀ k < k', (tagRange false k).2 < (tagRange false k').1 ∧
    (tagRange true k').2 < (tagRange true k).1 ∧ (tagRange false k').2 < 256 ∧ (tagRange true k).2 < 256 := by
  decide

theorem decimalWord_head (invert : Bool) (d : Decimal) :
    ∃ c t, decimalWord invert d = UInt8.ofNat c :: t ∧ (tagRange invert (kind d)).1 ≤ c ∧
      c ≤ (tagRange invert (kind d)).2 := by
  unfold decimalWord tagRange
  split
  · cases invert <;> exact ⟨_, _, rfl, le_rfl, le_rfl⟩
  · cases invert <;> exact ⟨_, _, rfl, le_rfl, le_rfl⟩
  · cases invert <;> exact encodeEandM_head _ _ _
  · exact ⟨_, _, rfl, le_rfl, le_rfl⟩
  · cases invert <;> exact encodeEandM_head _ _ _
  · cases invert <;> exact ⟨_, _, rfl, le_rfl, le_rfl⟩

theorem decimalWord_neg (invert : Bool) (h : kind d = 2) : decimalWord invert d = numberWord (!invert) d := by
  simp only [decimalWord, h]

theorem decimalWord_pos (invert : Bool) (h : kind d = 4) : decimalWord invert d = numberWord invert d := by
  simp only [decimalWord, h]

/-- Words part in the order of SQL, and the other way if they are inverted. -/
theorem decimalWord_parts (ha : a.Valid) (hb : b.Valid) (h : a.rank < b.rank) :
    Parts (decimalWord false a) (decimalWord false b) ∧ Parts (decimalWord true b) (decimalWord true a) := by
  rcases kind_of_rank_lt ha hb h with hk | ⟨hak, hbk, hmag⟩ | ⟨hak, hbk, hmag⟩
  · obtain ⟨hasc, hdesc, hlt, hlt'⟩ := tagRange_lt (kind b) (kind_le b) (kind a) hk
    obtain ⟨c, s, hc, hc1, hc2⟩ := decimalWord_head false a
    obtain ⟨d, t, hd, hd1, hd2⟩ := decimalWord_head false b
    obtain ⟨c', s', hc', hc1', hc2'⟩ := decimalWord_head true a
    obtain ⟨d', t', hd', hd1', hd2'⟩ := decimalWord_head true b
    rw [hc, hd, hc', hd']
    exact ⟨parts_tags (by omega) (by omega) _ _, parts_tags (by omega) (by omega) _ _⟩
  · have hparts := numberWord_parts hb ha (kind_number (.inl hbk)).2 (kind_number (.inl hak)).2 hmag
    rw [decimalWord_neg _ hak, decimalWord_neg _ hbk, decimalWord_neg _ hak, decimalWord_neg _ hbk]
    exact ⟨hparts.2, hparts.1⟩
  · have hparts := numberWord_parts ha hb (kind_number (.inr hak)).2 (kind_number (.inr hbk)).2 hmag
    rw [decimalWord_pos _ hak, decimalWord_pos _ hbk, decimalWord_pos _ hak, decimalWord_pos _ hbk]
    exact hparts

theorem decimalWord_eq (ha : a.Valid) (hb : b.Valid) (h : a.rank = b.rank) (invert : Bool) :
    decimalWord invert a = decimalWord invert b := by
  obtain ⟨hk, hmag⟩ := kind_of_rank_eq ha hb h
  unfold decimalWord
  rw [← hk]
  split
  · rfl
  · rfl
  · next h2 =>
    obtain ⟨he, hm⟩ := numberWord_eq (kind_number (.inl h2)).2 (kind_number (.inl (hk ▸ h2))).2 (hmag (.inl h2))
    rw [numberWord, numberWord, he, hm]
  · rfl
  · next h4 =>
    obtain ⟨he, hm⟩ := numberWord_eq (kind_number (.inr h4)).2 (kind_number (.inr (hk ▸ h4))).2 (hmag (.inr h4))
    rw [numberWord, numberWord, he, hm]
  · rfl

end Ratel.Encoding
