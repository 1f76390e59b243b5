import Ratel.Encoding

/- The order-preserving encoding of byte strings, ascending and descending, as the source's loops
   compute it, and the keys of the lock table made with it. A zero byte of the data is escaped
   by 0xff and the string ends with a zero byte followed by 0x01; the descending form is the
   complement of the ascending one. Both loops search for the next escape byte, so every
   induction is over the data cut at its first zero byte. -/
namespace Ratel.Encoding

open Ratel.Lib List

/-! The loops. -/

def indexByte (b : Bytes) (c : UInt8) : Option Nat := b.idxOf? c

variable {c : UInt8} {p : Bytes}

theorem indexByte_eq_none {b : Bytes} : indexByte b c = none ↔ c ∉ b := by
  simp [indexByte]

theorem indexByte_append (h : c ∉ p) (r : Bytes) :
    indexByte (p ++ c :: r) c = some p.length := by
  induction p with
  | nil => simp [indexByte, idxOf?_cons]
  | cons d p ih =>
    have hne : d ≠ c := fun he => h (he ▸ mem_cons_self)
    have hp : c ∉ p := fun hm => h (mem_cons_of_mem d hm)
    have := ih hp
    simp only [indexByte, cons_append, idxOf?_cons] at this ⊢
    simp [hne, this]

/-- A string holds no `c`, or it is cut at its first one. -/
theorem cut_first (c : UInt8) : ∀ b : Bytes, c ∉ b ∨ ∃ p r, b = p ++ c :: r ∧ c ∉ p
  | [] => .inl (by simp)
  | d :: b => by
    by_cases hd : d = c
    · exact .inr ⟨[], b, by simp [hd], by simp⟩
    rcases cut_first c b with h | h
    · exact .inl (by simp [Ne.symm hd, h])
    · obtain ⟨p, r, rfl, hp⟩ := h
      exact .inr ⟨d :: p, r, rfl, by simp [Ne.symm hd, hp]⟩

theorem indexByte_lt {b : Bytes} {i : Nat} (h : indexByte b c = some i) : i < b.length := by
  rcases cut_first c b with hn | hc
  · rw [indexByte_eq_none.mpr hn] at h; cases h
  obtain ⟨p, r, rfl, hp⟩ := hc
  rw [indexByte_append hp] at h
  cases h
  simp

def encodeBytesAscendingWithoutTerminatorOrPrefix (b data : Bytes) : Bytes :=
  match h : indexByte data escape with
  | none => b ++ data
  | some i =>
    have : (data.drop (i + 1)).length < data.length := by
      have := indexByte_lt h
      rw [length_drop]
      omega
    encodeBytesAscendingWithoutTerminatorOrPrefix (b ++ data.take i ++ [escape, escaped00]) (data.drop (i + 1))
termination_by data.length

def encodeBytesAscendingWithTerminator (b data : Bytes) (terminator : UInt8) : Bytes :=
  encodeBytesAscendingWithoutTerminatorOrPrefix b data ++ [escape, terminator]

def encodeBytesAscendingWithTerminatorAndPrefix (b data : Bytes) (terminator marker : UInt8) : Bytes :=
  encodeBytesAscendingWithTerminator (b ++ [marker]) data terminator

structure Escapes where
  escape : UInt8
  escapedTerm : UInt8
  escaped00 : UInt8
  escapedFF : UInt8
  marker : UInt8
deriving DecidableEq, Repr

def bytesDescMarker : UInt8 := bytesMarker + 1

def ascendingBytesEscapes : Escapes := ⟨escape, escapedTerm, escaped00, escapedFF, bytesMarker⟩

def descendingBytesEscapes : Escapes :=
  ⟨~~~escape, ~~~escapedTerm, ~~~escaped00, ~~~escapedFF, bytesDescMarker⟩

def onesComplement (b : Bytes) : Bytes := b.map (~~~ ·)

def encodeBytesAscending (b data : Bytes) : Bytes :=
  encodeBytesAscendingWithTerminatorAndPrefix b data ascendingBytesEscapes.escapedTerm bytesMarker

def encodeNextBytesAscending (b data : Bytes) : Bytes :=
  encodeBytesAscendingWithoutTerminatorOrPrefix (b ++ [bytesMarker]) data ++
    [escape, escaped00, escape, ascendingBytesEscapes.escapedTerm]

/-- `EncodeBytesDescending`: the marker at the end of `b` is replaced and what follows is
    complemented. -/
def encodeBytesDescending (b data : Bytes) : Bytes :=
  let enc := encodeBytesAscending b data
  enc.take b.length ++ [bytesDescMarker] ++ onesComplement (enc.drop (b.length + 1))

def encodeBytesSize (data : Bytes) : Nat := data.length + 3 + data.count escape

def encodeNextBytesSize (data : Bytes) : Nat := data.length + 5 + data.count escape

/-- The loop of `decodeBytesInternal`. -/
def decodeBytesFrom (e : Escapes) (b r : Bytes) : Except Err (Bytes × Bytes) :=
  match h : indexByte b e.escape with
  | none => errorf "did not find terminator %#x in buffer %#x" [.bytes [e.escape], .bytes b]
  | some i =>
    if b.length ≤ i + 1 then errorf "malformed escape in buffer %#x" [.bytes b]
    else
      let v := b.getD (i + 1) 0
      if v = e.escapedTerm then .ok (b.drop (i + 2), r ++ b.take i)
      else if v ≠ e.escaped00 then
        errorf "unknown escape sequence: %#x %#x" [.bytes [e.escape], .bytes [v]]
      else
        have : (b.drop (i + 2)).length < b.length := by
          have := indexByte_lt h
          rw [length_drop]
          omega
        decodeBytesFrom e (b.drop (i + 2)) (r ++ b.take i ++ [e.escapedFF])
termination_by b.length

/-- `decodeBytesInternal`; whether the result aliases the buffer is left out. -/
def decodeBytesInternal (b r : Bytes) (e : Escapes) (expectMarker : Bool) : Except Err (Bytes × Bytes) :=
  if expectMarker then
    match b with
    | [] => errorf "did not find marker %#x in buffer %#x" [.bytes [e.marker], .bytes b]
    | m :: rest =>
      if m ≠ e.marker then errorf "did not find marker %#x in buffer %#x" [.bytes [e.marker], .bytes b]
      else decodeBytesFrom e rest r
  else decodeBytesFrom e b r

def decodeBytesAscending (b r : Bytes) : Except Err (Bytes × Bytes) := decodeBytesInternal b r ascendingBytesEscapes true

def decodeBytesDescending (b r : Bytes) : Except Err (Bytes × Bytes) :=
  (fun (b, r) => (b, onesComplement r)) <$> decodeBytesInternal b r descendingBytesEscapes true

/-! What the loops compute. -/

theorem flatMap_escapeByte_of_not_mem {data : Bytes} (h : escape ∉ data) : data.flatMap escapeByte = data := by
  induction data with
  | nil => rfl
  | cons c data ih =>
    have hc : c ≠ escape := fun he => h (he ▸ mem_cons_self)
    rw [flatMap_cons, ih fun hm => h (mem_cons_of_mem c hm), escapeByte, if_neg hc]
    rfl

theorem flatMap_escapeByte_cut (h : escape ∉ p) (r : Bytes) :
    (p ++ escape :: r).flatMap escapeByte = p ++ escape :: escaped00 :: r.flatMap escapeByte := by
  rw [flatMap_append, flatMap_escapeByte_of_not_mem h, flatMap_cons, escapeByte]
  rfl

theorem encodeLoop_last {data : Bytes} (h : escape ∉ data) (b : Bytes) :
    encodeBytesAscendingWithoutTerminatorOrPrefix b data = b ++ data := by
  rw [encodeBytesAscendingWithoutTerminatorOrPrefix]
  split
  · rfl
  next i hi =>
  rw [indexByte_eq_none.mpr h] at hi
  cases hi

/-- One round of the encoding loop. -/
theorem encodeLoop_round (h : escape ∉ p) (b rest : Bytes) :
    encodeBytesAscendingWithoutTerminatorOrPrefix b (p ++ escape :: rest) =
      encodeBytesAscendingWithoutTerminatorOrPrefix (b ++ p ++ [escape, escaped00]) rest := by
  have hidx := indexByte_append h rest
  rw [encodeBytesAscendingWithoutTerminatorOrPrefix]
  split
  · next hi =>
    rw [hidx] at hi
    cases hi
  next i hi =>
  rw [hidx] at hi
  cases hi
  simp

/-- The loop escapes the data byte by byte. -/
theorem encodeBytesAscendingWithoutTerminatorOrPrefix_eq (b data : Bytes) :
    encodeBytesAscendingWithoutTerminatorOrPrefix b data = b ++ data.flatMap escapeByte := by
  rcases cut_first escape data with h | h
  · rw [encodeLoop_last h, flatMap_escapeByte_of_not_mem h]
  obtain ⟨p, rest, hdata, hp⟩ := h
  have : rest.length < data.length := by
    rw [hdata, length_append, length_cons]
    omega
  rw [hdata, encodeLoop_round hp, encodeBytesAscendingWithoutTerminatorOrPrefix_eq _ rest, flatMap_escapeByte_cut hp]
  simp
termination_by data.length

theorem encodeBytesAscending_eq (b data : Bytes) : encodeBytesAscending b data = b ++ bytesAscending data := by
  simp [encodeBytesAscending, encodeBytesAscendingWithTerminatorAndPrefix, encodeBytesAscendingWithTerminator,
    encodeBytesAscendingWithoutTerminatorOrPrefix_eq, bytesAscending, ascendingBytesEscapes]

/-- The bytes `EncodeBytesDescending` appends. -/
def bytesDescending (data : Bytes) : Bytes :=
  bytesDescMarker :: onesComplement (data.flatMap escapeByte ++ [escape, escapedTerm])

theorem encodeBytesDescending_eq (b data : Bytes) : encodeBytesDescending b data = b ++ bytesDescending data := by
  have hdrop : (b ++ bytesAscending data).drop (b.length + 1) = data.flatMap escapeByte ++ [escape, escapedTerm] := by
    rw [bytesAscending, drop_append]
    simp
  simp only [encodeBytesDescending, encodeBytesAscending_eq]
  rw [hdrop]
  simp [bytesDescending]

theorem encodeNextBytesAscending_eq (b data : Bytes) :
    encodeNextBytesAscending b data = b ++ bytesAscending (data ++ [0]) := by
  simp [encodeNextBytesAscending, encodeBytesAscendingWithoutTerminatorOrPrefix_eq, bytesAscending,
    ascendingBytesEscapes, escapeByte, escape]

/-! Decoding. -/

/-- One round of the decoding loop. -/
theorem decodeBytesFrom_round {e : Escapes} (h : e.escape ∉ p) (v : UInt8) (rest r : Bytes) :
    decodeBytesFrom e (p ++ e.escape :: v :: rest) r =
      if v = e.escapedTerm then .ok (rest, r ++ p)
      else if v ≠ e.escaped00 then errorf "unknown escape sequence: %#x %#x" [.bytes [e.escape], .bytes [v]]
      else decodeBytesFrom e rest (r ++ p ++ [e.escapedFF]) := by
  have hidx := indexByte_append h (v :: rest)
  rw [decodeBytesFrom]
  split
  · next hi =>
    rw [hidx] at hi
    cases hi
  next i hi =>
  rw [hidx] at hi
  cases hi
  simp

/-- The escapes of a code in which every byte is renamed by `f`. -/
def renamedEscapes (f : UInt8 → UInt8) (marker : UInt8) : Escapes :=
  ⟨f escape, f escapedTerm, f escaped00, f escapedFF, marker⟩

/-- The loop reads escaped data, renamed by `f`, back as the data so renamed. -/
theorem decodeBytesFrom_renamed {f : UInt8 → UInt8} (hf : Function.Injective f) (marker : UInt8) (data t r : Bytes) :
    decodeBytesFrom (renamedEscapes f marker) ((data.flatMap escapeByte ++ [escape, escapedTerm]).map f ++ t) r =
      .ok (t, r ++ data.map f) := by
  have hnot : ∀ {p : Bytes}, escape ∉ p → (renamedEscapes f marker).escape ∉ p.map f := by
    intro p hp hm
    obtain ⟨c, hc, he⟩ := mem_map.mp hm
    exact hp (hf he ▸ hc)
  rcases cut_first escape data with h | h
  · have hbuf : (data.flatMap escapeByte ++ [escape, escapedTerm]).map f ++ t =
        data.map f ++ (renamedEscapes f marker).escape :: f escapedTerm :: t := by
      simp [flatMap_escapeByte_of_not_mem h, renamedEscapes]
    rw [hbuf, decodeBytesFrom_round (hnot h)]
    exact if_pos rfl
  obtain ⟨p, rest, hdata, hp⟩ := h
  have : rest.length < data.length := by
    rw [hdata, length_append, length_cons]
    omega
  have hbuf : (data.flatMap escapeByte ++ [escape, escapedTerm]).map f ++ t =
      p.map f ++ (renamedEscapes f marker).escape :: f escaped00 ::
        ((rest.flatMap escapeByte ++ [escape, escapedTerm]).map f ++ t) := by
    rw [hdata, flatMap_escapeByte_cut hp]
    simp [renamedEscapes]
  have hterm : f escaped00 ≠ (renamedEscapes f marker).escapedTerm := fun he => absurd (hf he) (by decide)
  have h00 : ¬ f escaped00 ≠ (renamedEscapes f marker).escaped00 := fun hne => hne rfl
  rw [hbuf, decodeBytesFrom_round (hnot hp), if_neg hterm, if_neg h00, decodeBytesFrom_renamed hf marker rest t, hdata]
  simp [renamedEscapes, escapedFF, escape]
termination_by data.length

theorem complement_injective : Function.Injective fun c : UInt8 => ~~~c := fun a b h => by
  have := congrArg (fun c : UInt8 => ~~~c) h
  simpa using this

theorem onesComplement_onesComplement (b : Bytes) : onesComplement (onesComplement b) = b := by
  simp [onesComplement, Function.comp_def]

theorem decodeBytesAscending_bytesAscending (data t : Bytes) :
    decodeBytesAscending (bytesAscending data ++ t) [] = .ok (t, data) := by
  have h := decodeBytesFrom_renamed Function.injective_id bytesMarker data t []
  simp only [map_id] at h
  exact h

theorem decodeBytesDescending_bytesDescending (data t : Bytes) :
    decodeBytesDescending (bytesDescending data ++ t) [] = .ok (t, data) := by
  have h := decodeBytesFrom_renamed complement_injective bytesDescMarker data t []
  have hdec : decodeBytesInternal (bytesDescending data ++ t) [] descendingBytesEscapes true =
      .ok (t, onesComplement data) := h
  rw [decodeBytesDescending, hdec]
  simp [onesComplement_onesComplement, Functor.map, Except.map]

/-! Order. -/

theorem complement_lt {a b : UInt8} : ~~~a < ~~~b ↔ b < a := by
  have hsize : UInt8.size = 256 := rfl
  have := a.toNat_lt
  rw [uint8_lt_iff, uint8_lt_iff, UInt8.toNat_not, UInt8.toNat_not]
  omega

theorem parts_onesComplement {x y : Bytes} (h : Parts x y) : Parts (onesComplement y) (onesComplement x) := by
  obtain ⟨c, a, b, u, v, rfl, rfl, hab⟩ := h
  refine ⟨onesComplement c, ~~~b, ~~~a, onesComplement v, onesComplement u, ?_, ?_, complement_lt.mpr hab⟩
  all_goals simp [onesComplement]

/-- The descending encoding is an ordered code of the strings in reverse. -/
theorem bytesDescending_parts {x y : Bytes} (h : x < y) : Parts (bytesDescending y) (bytesDescending x) := by
  obtain ⟨c, a, b, u, v, hx, hy, hab⟩ := bytesAscending_orderedCode x y h
  -- the common start holds the marker, which is not complemented
  cases c with
  | nil =>
    simp only [bytesAscending, nil_append, List.cons.injEq] at hx hy
    exact absurd (hx.1.symm.trans hy.1 ▸ hab) (lt_irrefl b)
  | cons m c =>
    simp only [bytesAscending, cons_append, List.cons.injEq] at hx hy
    apply Parts.cons
    exact parts_onesComplement ⟨c, a, b, u, v, hx.2, hy.2, hab⟩

theorem bytesDescending_orderedCode :
    OrderedCode fun x : Bytesᵒᵈ => bytesDescending (OrderDual.ofDual x) :=
  fun x y h => bytesDescending_parts (x := OrderDual.ofDual y) (y := OrderDual.ofDual x) h

/-! Sizes. -/

theorem length_flatMap_escapeByte (data : Bytes) :
    (data.flatMap escapeByte).length = data.length + data.count escape := by
  induction data with
  | nil => rfl
  | cons c data ih =>
    rw [flatMap_cons, length_append, ih, length_cons, escapeByte]
    by_cases hc : c = escape
    · simp [hc]
      omega
    · simp [hc]
      omega

theorem length_bytesAscending (data : Bytes) : (bytesAscending data).length = encodeBytesSize data := by
  rw [bytesAscending, length_cons, length_append, length_flatMap_escapeByte, encodeBytesSize]
  simp only [length_cons, length_nil]
  omega

theorem length_bytesDescending (data : Bytes) : (bytesDescending data).length = encodeBytesSize data := by
  rw [← length_bytesAscending]
  simp [bytesDescending, bytesAscending, onesComplement]

theorem length_bytesAscending_next (data : Bytes) :
    (bytesAscending (data ++ [0])).length = encodeNextBytesSize data := by
  rw [length_bytesAscending]
  simp [encodeBytesSize, encodeNextBytesSize, escape]
  omega

/-- The laws of the encoding of byte strings: what is appended can be read back whatever follows
    it, keeps or reverses the order, is no proper start of another encoding, and has the
    announced size. -/
structure BytesLaws : Prop where
  ascending_append : ∀ b x, encodeBytesAscending b x = b ++ encodeBytesAscending [] x
  descending_append : ∀ b x, encodeBytesDescending b x = b ++ encodeBytesDescending [] x
  decode_ascending : ∀ x s, decodeBytesAscending (encodeBytesAscending [] x ++ s) [] = .ok (s, x)
  decode_descending : ∀ x s, decodeBytesDescending (encodeBytesDescending [] x ++ s) [] = .ok (s, x)
  ascending_lt : ∀ x y, encodeBytesAscending [] x < encodeBytesAscending [] y ↔ x < y
  descending_lt : ∀ x y, encodeBytesDescending [] x < encodeBytesDescending [] y ↔ y < x
  ascending_suffix_lt : ∀ x y s t, x ≠ y → (encodeBytesAscending [] x ++ s < encodeBytesAscending [] y ++ t ↔ x < y)
  descending_suffix_lt : ∀ x y s t, x ≠ y → (encodeBytesDescending [] x ++ s < encodeBytesDescending [] y ++ t ↔ y < x)
  ascending_not_continued : ∀ x y, encodeBytesAscending [] x <+: encodeBytesAscending [] y → x = y
  descending_not_continued : ∀ x y, encodeBytesDescending [] x <+: encodeBytesDescending [] y → x = y
  directions_apart : ∀ x y, ¬ encodeBytesAscending [] x <+: encodeBytesDescending [] y ∧
    ¬ encodeBytesDescending [] x <+: encodeBytesAscending [] y
  next_eq : ∀ b x, encodeNextBytesAscending b x = encodeBytesAscending b (x ++ [0])
  size_ascending : ∀ b x, (encodeBytesAscending b x).length = b.length + encodeBytesSize x
  size_descending : ∀ b x, (encodeBytesDescending b x).length = b.length + encodeBytesSize x
  size_next : ∀ b x, (encodeNextBytesAscending b x).length = b.length + encodeNextBytesSize x

theorem OrderedCode.lt_iff_lt {ι : Type*} [LinearOrder ι] {enc : ι → Bytes} (hc : OrderedCode enc) (i j : ι) :
    enc i < enc j ↔ i < j := by
  by_cases h : i = j
  · simp [h]
  · simpa using hc.lt_iff (s := []) (t := []) h

theorem OrderedCode.eq_of_continued {ι : Type*} [LinearOrder ι] {enc : ι → Bytes} (hc : OrderedCode enc) {i j : ι}
    (h : enc i <+: enc j) : i = j := by
  obtain ⟨t, ht⟩ := h
  exact (hc.append_inj (t := []) (ht.trans (append_nil _).symm)).1

theorem bytesLaws : BytesLaws where
  ascending_append b x := by rw [encodeBytesAscending_eq, encodeBytesAscending_eq, nil_append]
  descending_append b x := by rw [encodeBytesDescending_eq, encodeBytesDescending_eq, nil_append]
  decode_ascending x s := by rw [encodeBytesAscending_eq, nil_append, decodeBytesAscending_bytesAscending]
  decode_descending x s := by rw [encodeBytesDescending_eq, nil_append, decodeBytesDescending_bytesDescending]
  ascending_lt x y := by
    rw [encodeBytesAscending_eq, encodeBytesAscending_eq]
    exact OrderedCode.lt_iff_lt bytesAscending_orderedCode x y
  descending_lt x y := by
    rw [encodeBytesDescending_eq, encodeBytesDescending_eq]
    exact OrderedCode.lt_iff_lt bytesDescending_orderedCode (OrderDual.toDual x) (OrderDual.toDual y)
  ascending_suffix_lt x y s t h := by
    rw [encodeBytesAscending_eq, encodeBytesAscending_eq]
    exact bytesAscending_orderedCode.lt_iff h
  descending_suffix_lt x y s t h := by
    rw [encodeBytesDescending_eq, encodeBytesDescending_eq]
    exact bytesDescending_orderedCode.lt_iff (i := OrderDual.toDual x) (j := OrderDual.toDual y) h
  ascending_not_continued x y h := by
    rw [encodeBytesAscending_eq, encodeBytesAscending_eq] at h
    exact OrderedCode.eq_of_continued bytesAscending_orderedCode h
  descending_not_continued x y h := by
    rw [encodeBytesDescending_eq, encodeBytesDescending_eq] at h
    exact OrderedCode.eq_of_continued bytesDescending_orderedCode (i := OrderDual.toDual x) (j := OrderDual.toDual y) h
  directions_apart x y := by
    have hmarker : bytesMarker ≠ bytesDescMarker := by decide
    simp only [encodeBytesDescending_eq, encodeBytesAscending_eq, nil_append, bytesAscending, bytesDescending,
      cons_prefix_cons]
    exact ⟨fun h => hmarker h.1, fun h => hmarker h.1.symm⟩
  next_eq b x := by rw [encodeNextBytesAscending_eq, encodeBytesAscending_eq]
  size_ascending b x := by rw [encodeBytesAscending_eq, length_append, length_bytesAscending]
  size_descending b x := by rw [encodeBytesDescending_eq, length_append, length_bytesDescending]
  size_next b x := by rw [encodeNextBytesAscending_eq, length_append, length_bytesAscending_next]

end Ratel.Encoding
