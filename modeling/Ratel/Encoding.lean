import Ratel.Lib.Lex

/- The order-preserving encodings of `pkg/util/encoding` that row keys are made
   of: unsigned varints and escaped byte strings. A `[]byte` is a `List UInt8`, a
   `uint64` a `Nat` below `2 ^ 64`, and an encoder that appends to a buffer is the
   buffer followed by the encoded word.

   Proven here, for both encodings: decoding what was encoded gives the value and
   the bytes that followed it, and the words form an ordered code (smaller values
   have words that part from, and sort before, those of larger ones), so no word
   is a prefix of another. -/
namespace Ratel

open Ratel.Lib List

/-- A Go `[]byte` (or the bytes of a Go `string`). -/
abbrev Bytes := List UInt8

/-- An operand of an error's format string. -/
inductive Arg
  | bytes (b : Bytes)
  | int (n : Int)
  | text (s : String)
deriving DecidableEq, Repr

/-- An error as the source makes it: a format string and its operands. -/
structure Err where
  format : String
  args : List Arg
deriving DecidableEq, Repr

/-- `errors.Errorf` and its relatives. -/
def errorf {α : Type} (format : String) (args : List Arg := []) : Except Err α :=
  .error ⟨format, args⟩

variable {α β : Type}

@[simp] theorem bind_ok (a : α) (f : α → Except Err β) :
    ((Except.ok a : Except Err α) >>= f) = f a := rfl

/-- A computation that succeeds took its first step to a value, and went on from it. -/
theorem exists_of_bind_ok {x : Except Err α} {f : α → Except Err β} {b : β}
    (h : (x >>= f) = .ok b) : ∃ a, x = .ok a ∧ f a = .ok b := by
  cases x with
  | error err => cases h
  | ok a => exact ⟨a, rfl, h⟩

theorem exists_of_map_ok {x : Except Err α} {f : α → β} {b : β} (h : f <$> x = .ok b) :
    ∃ a, x = .ok a ∧ f a = b := by
  cases x with
  | error err => cases h
  | ok a => exact ⟨a, rfl, Except.ok.inj h⟩

/-- A conditional that does not have the value of its first branch took the other. -/
theorem of_ite_ne {c : Prop} [Decidable c] {x y z : α} (h : (if c then x else y) = z) (hne : x ≠ z) : ¬ c ∧ y = z :=
  (ite_eq_iff.mp h).resolve_left fun hc => hne hc.2

/-- A loop that succeeds has a result for each element, and no others. -/
theorem mapM_some {f : α → Option β} : ∀ {l : List α} {l' : List β}, l.mapM f = some l' →
    (∀ a ∈ l, ∃ b ∈ l', f a = some b) ∧ ∀ b ∈ l', ∃ a ∈ l, f a = some b
  | [], l', h => by
    cases h
    exact ⟨nofun, nofun⟩
  | a :: l, l', h => by
    rw [mapM_cons] at h
    obtain ⟨b, hb, h⟩ := Option.bind_eq_some_iff.mp h
    obtain ⟨rest, hrest, h⟩ := Option.bind_eq_some_iff.mp h
    cases h
    obtain ⟨hto, hof⟩ := mapM_some hrest
    constructor
    · refine forall_mem_cons.mpr ⟨⟨b, mem_cons_self, hb⟩, fun x hx => ?_⟩
      obtain ⟨y, hy, heq⟩ := hto x hx
      exact ⟨y, mem_cons_of_mem _ hy, heq⟩
    refine forall_mem_cons.mpr ⟨⟨a, mem_cons_self, hb⟩, fun y hy => ?_⟩
    obtain ⟨x, hx, heq⟩ := hof y hy
    exact ⟨x, mem_cons_of_mem _ hx, heq⟩

instance {α : Type} [DecidableEq α] : DecidableEq (Except Err α)
  | .ok a, .ok b => decidable_of_iff (a = b) (by simp)
  | .error a, .error b => decidable_of_iff (a = b) (by simp)
  | .ok _, .error _ => isFalse (by simp)
  | .error _, .ok _ => isFalse (by simp)

namespace Encoding

/-! Markers. -/

def intMin : Nat := 0x80
def intMaxWidth : Nat := 8
def intZero : Nat := intMin + intMaxWidth
def intMax : Nat := 0xfd
def intSmall : Nat := intMax - intZero - intMaxWidth

def bytesMarker : UInt8 := 0x12
def escape : UInt8 := 0x00
def escapedTerm : UInt8 := 0x01
def escaped00 : UInt8 := 0xff
def escapedFF : UInt8 := 0x00

/-- `PeekType(b) == encoding.Int`: the first byte is an integer tag. -/
def peekTypeInt : Bytes → Bool
  | [] => false
  | m :: _ => decide (intMin ≤ m.toNat ∧ m.toNat ≤ intMax)

/-! Unsigned varints. -/

/-- How many payload bytes the source's `switch` gives a value over `intSmall`. -/
def uvarintWidth (v : Nat) : Nat :=
  if v ≤ 0xff then 1
  else if v ≤ 0xffff then 2
  else if v ≤ 0xffffff then 3
  else if v ≤ 0xffffffff then 4
  else if v ≤ 0xffffffffff then 5
  else if v ≤ 0xffffffffffff then 6
  else if v ≤ 0xffffffffffffff then 7
  else 8

/-- The bytes `EncodeUvarintAscending` appends. -/
def uvarint (v : Nat) : Bytes :=
  if v ≤ intSmall then [UInt8.ofNat (intZero + v)]
  else UInt8.ofNat (intMax - 8 + uvarintWidth v) :: bigEndian (uvarintWidth v) v

def encodeUvarintAscending (b : Bytes) (v : Nat) : Bytes := b ++ uvarint v

/-- `DecodeUvarintAscending`. A first byte below `intZero` gives a negative length,
    which passes the first test and is converted to `uint64`. -/
def decodeUvarintAscending : Bytes → Except Err (Bytes × Nat)
  | [] => errorf "insufficient bytes to decode uvarint value"
  | b0 :: b =>
    let length : Int := b0.toNat - intZero
    if length ≤ intSmall then .ok (b, (length % 2 ^ 64).toNat)
    else
      let length := length - intSmall
      if length < 0 ∨ length > 8 then errorf "invalid uvarint length of %d" [.int length]
      else if (b.length : Int) < length then
        errorf "insufficient bytes to decode uvarint value: %q" [.bytes b]
      else .ok (b.drop length.toNat, fromBigEndian (b.take length.toNat))

def getUvarintLen : Bytes → Except Err Nat
  | [] => errorf "insufficient bytes to decode uvarint value"
  | b0 :: b =>
    let length : Int := b0.toNat - intZero
    if length ≤ intSmall then .ok 1
    else
      let length := length - intSmall
      if length < 0 ∨ length > 8 then errorf "invalid uvarint length of %d" [.int length]
      else if ((b0 :: b).length : Int) ≤ length then
        errorf "insufficient bytes to decode uvarint value: %q" [.bytes (b0 :: b)]
      else .ok (1 + length.toNat)

theorem uvarintWidth_bounds (v : Nat) : 1 ≤ uvarintWidth v ∧ uvarintWidth v ≤ 8 := by
  unfold uvarintWidth; repeat' split
  all_goals omega

variable {v w : Nat}

theorem lt_pow_uvarintWidth (h : v < 2 ^ 64) : v < 256 ^ uvarintWidth v := by
  unfold uvarintWidth
  repeat' split
  all_goals omega

theorem pow_uvarintWidth_le (h : 1 < uvarintWidth v) : 256 ^ (uvarintWidth v - 1) ≤ v := by
  unfold uvarintWidth at *
  repeat' split
  all_goals simp_all
  all_goals omega

theorem uvarintWidth_mono (h : v ≤ w) (hw : w < 2 ^ 64) :
    uvarintWidth v ≤ uvarintWidth w := by
  by_contra hlt
  have h1 := (uvarintWidth_bounds w).1
  have hv : 256 ^ (uvarintWidth v - 1) ≤ v := pow_uvarintWidth_le (by omega)
  have hp : 256 ^ uvarintWidth w ≤ 256 ^ (uvarintWidth v - 1) :=
    Nat.pow_le_pow_right (by omega) (by omega)
  have := lt_pow_uvarintWidth hw
  omega

theorem uvarint_small (h : v ≤ intSmall) : uvarint v = [UInt8.ofNat (intZero + v)] :=
  if_pos h

theorem uvarint_large (h : intSmall < v) :
    uvarint v = UInt8.ofNat (intMax - 8 + uvarintWidth v) :: bigEndian (uvarintWidth v) v :=
  if_neg (by omega)

theorem uvarint_head (v : Nat) : ∃ h t, uvarint v = h :: t ∧ intZero ≤ h.toNat ∧ h.toNat ≤ intMax := by
  have hb := uvarintWidth_bounds v
  by_cases hv : v ≤ intSmall
  · refine ⟨_, _, uvarint_small hv, ?_⟩
    simp only [intSmall, intMax, intZero, intMin, intMaxWidth, UInt8.toNat_ofNat'] at *
    omega
  refine ⟨_, _, uvarint_large (by omega), ?_⟩
  simp only [intMax, intZero, intMin, intMaxWidth, UInt8.toNat_ofNat'] at *
  omega

theorem uvarint_ne_nil (v : Nat) : uvarint v ≠ [] := by
  obtain ⟨h, t, e, -⟩ := uvarint_head v
  simp [e]

theorem uvarint_length (v : Nat) :
    (uvarint v).length = if v ≤ intSmall then 1 else 1 + uvarintWidth v := by
  unfold uvarint
  split
  · rfl
  · simp [Nat.add_comm]

theorem uvarint_length_bounds (v : Nat) : 1 ≤ (uvarint v).length ∧ (uvarint v).length ≤ 9 := by
  have hb := uvarintWidth_bounds v
  rw [uvarint_length]
  split
  all_goals omega

@[simp] theorem peekTypeInt_uvarint (v : Nat) (r : Bytes) : peekTypeInt (uvarint v ++ r) = true := by
  obtain ⟨h, t, e, h1, h2⟩ := uvarint_head v
  simp only [e, cons_append, peekTypeInt, decide_eq_true_eq]
  simp only [intZero] at h1
  omega

/-- A tag byte of a varint over `intSmall` announces its payload's width. -/
theorem large_tag (v : Nat) :
    ((UInt8.ofNat (intMax - 8 + uvarintWidth v)).toNat : Int) - intZero - intSmall = uvarintWidth v := by
  have hb := uvarintWidth_bounds v
  simp only [intSmall, intMax, intZero, intMin, intMaxWidth, UInt8.toNat_ofNat']
  omega

/-- Decoding gives back the value and what followed it. -/
theorem decodeUvarintAscending_uvarint (h : v < 2 ^ 64) (r : Bytes) :
    decodeUvarintAscending (uvarint v ++ r) = .ok (r, v) := by
  by_cases hv : v ≤ intSmall
  · rw [uvarint_small hv]
    simp only [intSmall, intMax, intZero, intMin, intMaxWidth] at hv
    have hb : ((UInt8.ofNat (intZero + v)).toNat : Int) - intZero = v := by
      simp only [intZero, intMin, intMaxWidth, UInt8.toNat_ofNat']; omega
    have hs : (v : Int) ≤ (intSmall : Nat) := by
      simp only [intSmall, intMax, intZero, intMin, intMaxWidth]; omega
    simp only [cons_append, nil_append, decodeUvarintAscending, hb, if_pos hs]
    rw [Int.emod_eq_of_lt (by omega) (by omega), Int.toNat_natCast]
  · have hb := uvarintWidth_bounds v
    have ht := large_tag v
    rw [uvarint_large (by omega), cons_append, decodeUvarintAscending]
    simp only [ht]
    rw [if_neg (by omega), if_neg (by omega), if_neg (by simp), Int.toNat_natCast,
      drop_left' (bigEndian_length _ _), take_left' (bigEndian_length _ _),
      fromBigEndian_bigEndian (lt_pow_uvarintWidth h)]

theorem getUvarintLen_uvarint (v : Nat) (r : Bytes) :
    getUvarintLen (uvarint v ++ r) = .ok (uvarint v).length := by
  rw [uvarint_length]
  by_cases hv : v ≤ intSmall
  · rw [uvarint_small hv, if_pos hv]
    have hb : ((UInt8.ofNat (intZero + v)).toNat : Int) - intZero ≤ intSmall := by
      simp only [intSmall, intMax, intZero, intMin, UInt8.toNat_ofNat'] at *; omega
    simp only [cons_append, getUvarintLen, if_pos hb]
  have hb := uvarintWidth_bounds v
  have ht := large_tag v
  rw [uvarint_large (by omega), if_neg hv, cons_append, getUvarintLen]
  simp only [ht]
  rw [if_neg (by omega), if_neg (by omega), if_neg (by simp), Int.toNat_natCast]

/-- Varints of smaller values part from those of larger ones. -/
theorem uvarint_parts (h : v < w) (hw : w < 2 ^ 64) : Parts (uvarint v) (uvarint w) := by
  have hbw := uvarintWidth_bounds w
  by_cases hws : w ≤ intSmall
  · rw [uvarint_small hws, uvarint_small (by omega)]
    apply Parts.of_lt
    rw [uint8_lt_iff]
    simp only [intSmall, intMax, intZero, intMin, intMaxWidth, UInt8.toNat_ofNat'] at *
    omega
  rw [uvarint_large (v := w) (by omega)]
  by_cases hvs : v ≤ intSmall
  · rw [uvarint_small hvs]
    apply Parts.of_lt
    rw [uint8_lt_iff]
    simp only [intSmall, intMax, intZero, intMin, intMaxWidth, UInt8.toNat_ofNat'] at *
    omega
  rw [uvarint_large (by omega)]
  rcases lt_or_eq_of_le (uvarintWidth_mono (le_of_lt h) hw) with hlt | heq
  · apply Parts.of_lt
    rw [uint8_lt_iff]
    simp only [intMax, UInt8.toNat_ofNat']
    omega
  · rw [heq]
    exact (bigEndian_parts h (lt_pow_uvarintWidth hw)).cons _

theorem uvarint_append_inj (hv : v < 2 ^ 64) (hw : w < 2 ^ 64) {s t : Bytes}
    (h : uvarint v ++ s = uvarint w ++ t) : v = w ∧ s = t := by
  have hd := decodeUvarintAscending_uvarint hv s
  rw [h, decodeUvarintAscending_uvarint hw t] at hd
  simp only [Except.ok.injEq, Prod.mk.injEq] at hd
  exact ⟨hd.2.symm, hd.1.symm⟩

/-- One byte decodes to a value it can hold, or (below `intZero`) to a wrapped
    negative length. -/
theorem decodeUvarintAscending_singleton {c : UInt8} {r : Bytes}
    (h : decodeUvarintAscending [c] = .ok (r, v)) : v ≤ intSmall ∨ 2 ^ 64 - intZero ≤ v := by
  simp only [decodeUvarintAscending] at h
  split at h
  · simp only [Except.ok.injEq, Prod.mk.injEq] at h
    omega
  split at h
  · cases h
  · rw [if_pos (by simp; omega)] at h
    cases h

/-! Escaped byte strings. -/

/-- `encodeBytesAscendingWithoutTerminatorOrPrefix` on one byte. -/
def escapeByte (c : UInt8) : Bytes := if c = escape then [escape, escaped00] else [c]

/-- The bytes `EncodeBytesAscending` appends. -/
def bytesAscending (data : Bytes) : Bytes :=
  bytesMarker :: (data.flatMap escapeByte ++ [escape, escapedTerm])

theorem escapeByte_parts {a b : UInt8} (h : a < b) : Parts (escapeByte a) (escapeByte b) := by
  have hb : b ≠ escape := by
    rintro rfl
    simp [escape] at h
  unfold escapeByte
  split
  · rename_i ha
    exact Parts.of_lt (ha ▸ h) _ _
  · exact Parts.of_lt h _ _

/-- Escaped strings part in the order of the strings. -/
theorem bytesAscending_orderedCode : OrderedCode bytesAscending := by
  intro x y hxy
  apply Parts.cons
  rcases prefix_or_parts_of_lt hxy with ⟨a, s, rfl⟩ | hp
  · -- the terminator of the shorter string parts from the longer one's next byte
    rw [flatMap_append, append_assoc]
    apply Parts.append_left
    rw [flatMap_cons, escapeByte]
    split
    · exact (Parts.of_lt (by decide) [] []).cons escape |>.append [] _
    rename_i ha
    refine Parts.of_lt ?_ _ _
    have : a.toNat ≠ 0 := fun h0 => ha (UInt8.toNat_inj.mp h0)
    exact Nat.pos_of_ne_zero this
  · exact (Parts.flatMap (fun _ _ => escapeByte_parts) hp).append _ _

end Encoding

end Ratel
