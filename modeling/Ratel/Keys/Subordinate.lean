import Ratel.Encoding.Bytes
import Ratel.Keys

/- Subordinate keys (`pkg/keys/subordinate.go`): the keys of the array elements and
   JSON nodes of a row, stored right after the row's family-0 sentinel as

     pk / uvarint(0) / column / path segments / end marker uvarint(0) / suffix length

   A subordinate key gives back its row prefix, column and path exactly when its suffix
   is at most 109 bytes long, since `GetRowPrefixLength` reads the suffix length from the
   last byte alone. The order of the keys is in `Keys.SubordinateOrder`. -/
namespace Ratel.Keys

open Ratel.Lib Ratel.Encoding List

/-- `SubordinatePathSegment`. -/
inductive Segment
  | header
  | arrayIndex (i : UInt32)
  | objectKey (k : Bytes)
deriving DecidableEq, Repr

namespace Segment

/-- `SubordinatePathSegmentKind`. -/
def kind : Segment → Nat
  | header => 0
  | arrayIndex _ => 1
  | objectKey _ => 2

/-- What one round of `MakeSubordinatePathPrefix` appends. -/
def bytes (seg : Segment) : Bytes :=
  uvarint seg.kind ++
    match seg with
    | header => []
    | arrayIndex i => uvarint i.toNat
    | objectKey k => bytesAscending k

/-- Header before array index, by number, before object key, by bytes. -/
def rank : Segment → ℕ ×ₗ ℕ ×ₗ Bytes
  | header => toLex (0, toLex (0, []))
  | arrayIndex i => toLex (1, toLex (i.toNat, []))
  | objectKey k => toLex (2, toLex (0, k))

theorem rank_injective : Function.Injective rank := by
  intro s t h
  cases s <;> cases t <;> simp_all [rank, UInt32.toNat_inj]

instance : LinearOrder Segment := LinearOrder.lift' rank rank_injective

end Segment

abbrev Path := List Segment

def makeSubordinatePathPrefix (rowKey : Bytes) (colID : UInt32) (path : Path) : Bytes :=
  encodeUvarintAscending rowKey colID.toNat ++ path.flatMap Segment.bytes

/-- `MakeSubordinatePathKey`; `rowKey` ends with the one-byte family-0 sentinel. -/
def makeSubordinatePathKey (rowKey : Bytes) (colID : UInt32) (path : Path) : Bytes :=
  let pkPrefixLen := rowKey.length - 1
  let key := makeSubordinatePathPrefix rowKey colID path
  let key := encodeUvarintAscending key Segment.header.kind
  let suffixLen := key.length - pkPrefixLen
  encodeUvarintAscending key suffixLen

/-- `MakeSubordinateKey`: the key of an array element. -/
def makeSubordinateKey (rowKey : Bytes) (colID elemIdx : UInt32) : Bytes :=
  makeSubordinatePathKey rowKey colID [.arrayIndex elemIdx]

def wrap {α : Type} (message : String) : Except Err α → Except Err α
  | .ok a => .ok a
  | .error e => .error ⟨message ++ ": " ++ e.format, e.args⟩

/-- Drop the end marker that the path loop read as a header segment. -/
def stripEndMarker (path : Path) : Path :=
  if path.getLast? = some .header then path.dropLast else path

/-- The segment loop of `DecodeSubordinatePathKey`. Each round reads at least one
    byte, so the suffix's length is fuel enough. -/
def decodeSegments : Nat → Path → Bytes → Except Err Path
  | 0, path, _ => .ok (stripEndMarker path)
  | _ + 1, path, [] => .ok (stripEndMarker path)
  | fuel + 1, path, suffix => do
    let (rest, kind) ← wrap "decoding subordinate path segment kind" (decodeUvarintAscending suffix)
    match kind with
    | 0 => decodeSegments fuel (path ++ [.header]) rest
    | 1 =>
      let (rest, idx) ← wrap "decoding subordinate array index" (decodeUvarintAscending rest)
      if idx > 2 ^ 32 - 1 then errorf "subordinate key element index overflow: %d" [.int idx]
      else decodeSegments fuel (path ++ [.arrayIndex (UInt32.ofNat idx)]) rest
    | 2 =>
      let (rest, keyBytes) ← wrap "decoding subordinate object key" (decodeBytesAscending rest [])
      decodeSegments fuel (path ++ [.objectKey keyBytes]) rest
    | kind =>
      -- what is left should be the trailing suffix length
      if path = [] then errorf "unknown subordinate path segment kind %d" [.int kind]
      else return stripEndMarker path

/-- `DecodeSubordinatePathKey`: row prefix, column and path. -/
def decodeSubordinatePathKey (key : Bytes) : Except Err (Bytes × UInt32 × Path) := do
  let n ← getRowPrefixLength key
  let rowPrefix := key.take n
  let (suffix, famID) ← wrap "decoding subordinate key family sentinel" (decodeUvarintAscending (key.drop n))
  if famID ≠ 0 then errorf "not a subordinate key: expected family 0, got %d" [.int famID]
  else
    let (suffix, col) ← wrap "decoding subordinate key column ID" (decodeUvarintAscending suffix)
    if col > 2 ^ 32 - 1 then errorf "subordinate key column ID overflow: %d" [.int col]
    else
      let path ← decodeSegments suffix.length [] suffix
      return (rowPrefix, UInt32.ofNat col, path)

/-- `SubordinateRowRange` of `pkg/sql/rowenc`. -/
def subordinateRowRange (primaryIndexKey : Bytes) : Bytes × Bytes :=
  (encodeUvarintAscending (makeFamilyKey primaryIndexKey 0) 0, makeFamilyKey primaryIndexKey 1)

/-! The shape of a subordinate key. -/

/-- From the family-0 sentinel through the end marker. -/
def subordinateSuffix (colID : UInt32) (path : Path) : Bytes :=
  uvarint 0 ++ (uvarint colID.toNat ++ (path.flatMap Segment.bytes ++ uvarint 0))

/-- The number of bytes from the family-0 sentinel through the end marker. -/
def suffixLen (colID : UInt32) (path : Path) : Nat := (subordinateSuffix colID path).length

theorem makeFamilyKey_zero (pk : Bytes) : makeFamilyKey pk 0 = pk ++ uvarint 0 := rfl

theorem makeFamilyKey_one (pk : Bytes) : makeFamilyKey pk 1 = pk ++ (uvarint 1 ++ uvarint 1) := by
  simp [makeFamilyKey, encodeUvarintAscending, show (uvarint 1).length = 1 from rfl]

theorem makeSubordinatePathKey_eq (pk : Bytes) (colID : UInt32) (path : Path) :
    makeSubordinatePathKey (makeFamilyKey pk 0) colID path =
      pk ++ (subordinateSuffix colID path ++ uvarint (suffixLen colID path)) := by
  have h0 : (uvarint 0).length = 1 := rfl
  simp only [makeSubordinatePathKey, makeSubordinatePathPrefix, makeFamilyKey_zero,
    encodeUvarintAscending, suffixLen, subordinateSuffix, Segment.kind, append_assoc,
    length_append, h0]
  congr 6
  omega

theorem suffixLen_ge (colID : UInt32) (path : Path) : 3 ≤ suffixLen colID path := by
  have h0 : (uvarint 0).length = 1 := rfl
  have := (uvarint_length_bounds colID.toNat).1
  simp only [suffixLen, subordinateSuffix, length_append]
  omega

/-! Round trip. -/

@[simp] theorem wrap_ok {α : Type} (message : String) (a : α) :
    wrap message (.ok a) = .ok a := rfl

theorem stripFamilySuffix_snoc (key : Bytes) (n : Nat) (b : Bytes) (c : UInt8) :
    stripFamilySuffix key n (b ++ [c]) =
      if ¬ peekTypeInt [c] then errorf "%s: not a valid table key" [.bytes key]
      else do
        let (_, colFamIDLen) ← decodeUvarintAscending [c]
        if colFamIDLen > b.length then errorf "%s: malformed table key" [.bytes key]
        else return n - colFamIDLen - 1 := by
  simp [stripFamilySuffix]

/-- A suffix length of one byte is read back, and the row prefix found. -/
theorem getRowPrefixLength_short (pk : PrimaryKey) {suffix : Bytes} (h : suffix.length ≤ intSmall) :
    getRowPrefixLength (pk.bytes ++ (suffix ++ uvarint suffix.length)) = .ok pk.bytes.length := by
  have hone := uvarint_small h
  have hlt : suffix.length < 2 ^ 64 := lt_of_le_of_lt h (by decide)
  have hpeek : peekTypeInt (uvarint suffix.length) = true := by
    simpa using peekTypeInt_uvarint suffix.length []
  have hdec : decodeUvarintAscending (uvarint suffix.length) = .ok ([], suffix.length) := by
    simpa using decodeUvarintAscending_uvarint hlt []
  rw [getRowPrefixLength_append pk (by simp [uvarint_ne_nil]), hone, ← append_assoc pk.sqlKey,
    stripFamilySuffix_snoc, ← hone, hpeek, if_neg (by simp), hdec]
  simp only [bind_ok, length_append]
  rw [if_neg (by omega), hone]
  simp only [length_singleton]
  congr 1
  omega

/-- A longer one is not: its last byte alone stands for a smaller length, or for
    one that no key has. -/
theorem getRowPrefixLength_long (pk : PrimaryKey) (suffix : Bytes) (h : intSmall < suffix.length)
    (hlen : (pk.bytes ++ (suffix ++ uvarint suffix.length)).length < 2 ^ 63) :
    getRowPrefixLength (pk.bytes ++ (suffix ++ uvarint suffix.length)) ≠ .ok pk.bytes.length := by
  intro hok
  have hwide : 2 ≤ (uvarint suffix.length).length := by
    rw [uvarint_length, if_neg (by omega)]
    have := (uvarintWidth_bounds suffix.length).1
    omega
  obtain ⟨init, c, hc⟩ : ∃ init c, uvarint suffix.length = init ++ [c] :=
    ⟨_, _, (dropLast_append_getLast (uvarint_ne_nil _)).symm⟩
  rw [getRowPrefixLength_append pk (by simp [uvarint_ne_nil]), hc, ← append_assoc suffix,
    ← append_assoc pk.sqlKey, stripFamilySuffix_snoc] at hok
  split at hok
  · cases hok
  cases hd : decodeUvarintAscending [c] with
  | error e => rw [hd] at hok; cases hok
  | ok rv =>
    obtain ⟨r, v⟩ := rv
    have hv := decodeUvarintAscending_singleton hd
    have hsql : pk.sqlKey.length ≤ pk.bytes.length := by simp [PrimaryKey.bytes]
    rw [hc] at hwide hlen
    rw [hd, bind_ok] at hok
    simp only [length_append] at hok hwide hlen
    split at hok
    · cases hok
    have hm : pk.bytes.length + (suffix.length + init.length + 1) - v - 1 = pk.bytes.length :=
      Except.ok.inj hok
    simp only [intSmall, intZero, intMin, intMaxWidth] at h hv
    omega

theorem stripEndMarker_snoc (path : Path) : stripEndMarker (path ++ [.header]) = path := by
  simp [stripEndMarker]

variable {fuel : Nat}

theorem decodeSegments_zero (path : Path) (rest : Bytes) :
    decodeSegments (fuel + 1) path (uvarint 0 ++ rest) = decodeSegments fuel (path ++ [.header]) rest := by
  rw [decodeSegments]
  · rfl
  · simp [uvarint_ne_nil]

/-- One round of the loop reads one segment. -/
theorem decodeSegments_segment (path : Path) (seg : Segment) (rest : Bytes) :
    decodeSegments (fuel + 1) path (seg.bytes ++ rest) = decodeSegments fuel (path ++ [seg]) rest := by
  cases seg with
  | header => simpa [Segment.bytes, Segment.kind] using decodeSegments_zero path rest
  | arrayIndex i =>
    have hk := decodeUvarintAscending_uvarint (v := 1) (by decide) (uvarint i.toNat ++ rest)
    have hi := decodeUvarintAscending_uvarint (uint32_toNat_lt_64 i) rest
    have hle : ¬ i.toNat > 2 ^ 32 - 1 := by have := i.toNat_lt; omega
    simp only [Segment.bytes, Segment.kind, append_assoc]
    rw [decodeSegments, hk]
    · simp only [wrap_ok, bind_ok, hi, if_neg hle, UInt32.ofNat_toNat]
    · simp [uvarint_ne_nil]
  | objectKey k =>
    have hk := decodeUvarintAscending_uvarint (v := 2) (by decide) (bytesAscending k ++ rest)
    have hb := decodeBytesAscending_bytesAscending k rest
    simp only [Segment.bytes, Segment.kind, append_assoc]
    rw [decodeSegments, hk]
    · simp only [wrap_ok, bind_ok, hb]
    · simp [uvarint_ne_nil]

theorem decodeSegments_flatMap (rest : Bytes) : ∀ (segs path : Path) (fuel : Nat),
    decodeSegments (fuel + segs.length) path (segs.flatMap Segment.bytes ++ rest) =
      decodeSegments fuel (path ++ segs) rest
  | [], path, fuel => by simp
  | seg :: segs, path, fuel => by
    rw [flatMap_cons, append_assoc, length_cons, ← Nat.add_assoc,
      decodeSegments_segment, decodeSegments_flatMap rest segs, append_assoc]
    rfl

theorem Segment.bytes_length_pos (seg : Segment) : 1 ≤ seg.bytes.length := by
  have := (uvarint_length_bounds seg.kind).1
  unfold Segment.bytes
  rw [length_append]
  omega

theorem length_le_flatMap_bytes : ∀ segs : Path, segs.length ≤ (segs.flatMap Segment.bytes).length
  | [] => by simp
  | seg :: segs => by
    have := seg.bytes_length_pos
    have := length_le_flatMap_bytes segs
    simp only [flatMap_cons, length_append, length_cons]
    omega

/-- The loop reads a path's segments, then the end marker, and stops at the suffix
    length, which is too large to be a segment kind. -/
theorem decodeSegments_path (path : Path) {n : Nat} (hn : 3 ≤ n) (hlt : n < 2 ^ 64) (hfuel : path.length + 2 ≤ fuel) :
    decodeSegments fuel [] (path.flatMap Segment.bytes ++ (uvarint 0 ++ uvarint n)) = .ok path := by
  obtain ⟨k, rfl⟩ : ∃ k, fuel = k + 1 + 1 + path.length := ⟨fuel - path.length - 2, by omega⟩
  rw [decodeSegments_flatMap, decodeSegments_zero, decodeSegments]
  · have hd : decodeUvarintAscending (uvarint n) = .ok ([], n) := by
      simpa using decodeUvarintAscending_uvarint hlt []
    rw [hd]
    obtain ⟨m, rfl⟩ : ∃ m, n = m + 3 := ⟨n - 3, by omega⟩
    simp only [wrap_ok, bind_ok]
    rw [if_neg (by simp), stripEndMarker_snoc]
    rfl
  · exact uvarint_ne_nil n

theorem decodeSubordinatePathKey_short (pk : PrimaryKey) (colID : UInt32) (path : Path)
    (h : suffixLen colID path ≤ intSmall) :
    decodeSubordinatePathKey (makeSubordinatePathKey (makeFamilyKey pk.bytes 0) colID path) =
      .ok (pk.bytes, colID, path) := by
  have hprefix : getRowPrefixLength (pk.bytes ++ (subordinateSuffix colID path ++
      uvarint (suffixLen colID path))) = .ok pk.bytes.length := getRowPrefixLength_short pk h
  have hcol : ¬ colID.toNat > 2 ^ 32 - 1 := by have := colID.toNat_lt; omega
  have h3 := suffixLen_ge colID path
  rw [makeSubordinatePathKey_eq, decodeSubordinatePathKey, hprefix]
  simp only [bind_ok, drop_left, subordinateSuffix, append_assoc]
  rw [decodeUvarintAscending_uvarint (by decide)]
  simp only [wrap_ok, bind_ok, ne_eq, not_true_eq_false]
  rw [decodeUvarintAscending_uvarint (uint32_toNat_lt_64 colID)]
  simp only [wrap_ok, bind_ok, if_neg hcol]
  rw [decodeSegments_path path h3 (lt_of_le_of_lt h (by decide))]
  · simp [pure, Except.pure]
  have := length_le_flatMap_bytes path
  have := (uvarint_length_bounds (suffixLen colID path)).1
  have h0 : (uvarint 0).length = 1 := rfl
  simp only [length_append]
  omega

/-- A subordinate key gives back its row's prefix length, is cut for a split at its
    row's prefix, and decodes to its column and path exactly when its suffix is at
    most 109 bytes long. -/
theorem subordinate_key_round_trip_iff (pk : PrimaryKey) (colID : UInt32) (path : Path)
    (hlen : (makeSubordinatePathKey (makeFamilyKey pk.bytes 0) colID path).length < 2 ^ 63) :
    let key := makeSubordinatePathKey (makeFamilyKey pk.bytes 0) colID path
    (getRowPrefixLength key = .ok pk.bytes.length ∧ ensureSafeSplitKey key = .ok pk.bytes ∧
      decodeSubordinatePathKey key = .ok (pk.bytes, colID, path)) ↔ suffixLen colID path ≤ 109 := by
  intro key
  have hkey : key = pk.bytes ++ (subordinateSuffix colID path ++ uvarint (suffixLen colID path)) :=
    makeSubordinatePathKey_eq pk.bytes colID path
  refine ⟨fun h => ?_, fun h => ?_⟩
  · by_contra hgt
    apply getRowPrefixLength_long pk (subordinateSuffix colID path)
      (show intSmall < suffixLen colID path from by simp only [not_le] at hgt; exact hgt)
    · rw [makeSubordinatePathKey_eq] at hlen
      exact hlen
    · rw [hkey] at h
      exact h.1
  · have hp : getRowPrefixLength key = .ok pk.bytes.length := by
      rw [hkey]
      exact getRowPrefixLength_short pk h
    refine ⟨hp, ?_, decodeSubordinatePathKey_short pk colID path h⟩
    rw [ensureSafeSplitKey, hp, bind_ok, hkey, take_left]
    rfl

/-- A row of table 104, index 1, with key columns `[0x89]`. -/
def samplePrimaryKey : PrimaryKey where
  tenant := 1
  actor := none
  tableID := 104
  indexID := 1
  columns := [0x89]
  tenant_valid := by decide
  actor_length := by simp

theorem subordinate_key_round_trip_header :
    decodeSubordinatePathKey (makeSubordinatePathKey (makeFamilyKey samplePrimaryKey.bytes 0) 2 [.header]) =
      .ok (samplePrimaryKey.bytes, 2, [.header]) :=
  ((subordinate_key_round_trip_iff samplePrimaryKey 2 [.header] (by decide)).mpr (by decide)).2.2

/-- An object key of 137 bytes makes a suffix of 145 bytes, whose varint ends in the
    byte of 9: the key is cut for a split ten bytes before its end, inside the row. -/
theorem subordinate_key_long_object_key :
    let key := makeSubordinatePathKey (makeFamilyKey samplePrimaryKey.bytes 0) 2
      [.header, .objectKey (List.replicate 137 97)]
    getRowPrefixLength key = .ok (key.length - 10) ∧ key.length - 10 ≠ samplePrimaryKey.bytes.length ∧
      ensureSafeSplitKey key ≠ .ok samplePrimaryKey.bytes ∧
      decodeSubordinatePathKey key ≠
        .ok (samplePrimaryKey.bytes, 2, [.header, .objectKey (List.replicate 137 97)]) := by
  decide +kernel

end Ratel.Keys
