import Ratel.EngineKeys.Order

/- The comparer's laws on what is encoded. Engine keys, MVCC keys among them, are full keys with
   the sentinel in front of their version; a timestamp's suffix is a bare one. The version of a
   timestamp, once normalised, is the wall time and, unless it is zero, the logical part, each
   big-endian, so that byte order is the order of timestamps. -/
namespace Ratel.EngineKeys

open Ratel.Lib Ratel.Encoding List Timestamp FullKey EngineComparer
open EngineKey hiding version

/-! Engine keys. -/

/-- Keys whose version's length fits the last byte. -/
def EngineKey.Short (k : EngineKey) : Prop := k.version.length < 255

namespace EngineKey

/-- The sentinel and the version. -/
def body (k : EngineKey) : Bytes := if k.version = [] then [] else 0 :: k.version

theorem length_body (k : EngineKey) :
    k.body.length = if k.version.length > 0 then 1 + k.version.length else 0 := by
  unfold body
  by_cases h : k.version = []
  · simp [h]
  · have := length_pos_of_ne_nil h
    rw [if_neg h, if_pos this, length_cons, Nat.add_comm]

def full (k : EngineKey) (h : k.Short) : FullKey := ⟨k.key, k.body, by
  have := k.length_body
  simp only [Short] at h
  split at this <;> omega⟩

theorem encode_eq (k : EngineKey) (h : k.Short) : k.encode = (k.full h).bytes := by
  simp only [encode, full, bytes, ← length_body]
  by_cases hv : k.version = []
  · simp [body, hv]
  · have hb : k.body = 0 :: k.version := if_neg hv
    simp [hb]

/-- What `Split` cuts off is the key without its version. -/
theorem take_split (k : EngineKey) (h : k.Short) :
    k.encode.take (split k.encode) = (bare k.key).bytes := by
  rw [encode_eq k h, split_eq, bytes_bare]
  simp only [full, bytes, body]
  split
  · simp
  · simp [take_append]

end EngineKey

/-! MVCC keys. -/

/-- A timestamp as a version: none if it is empty. -/
def Timestamp.version (ts : Timestamp) : Bytes := if ts.isEmpty then [] else encodeMVCCTimestamp ts

def MVCCKey.engineKey (k : MVCCKey) : EngineKey := ⟨k.key, k.timestamp.version⟩

theorem length_encodeMVCCTimestamp (ts : Timestamp) :
    (encodeMVCCTimestamp ts).length =
      8 + if ts.logical ≠ 0 ∨ ts.synthetic then 4 + if ts.synthetic then 1 else 0 else 0 := by
  unfold encodeMVCCTimestamp
  split <;> [split; skip] <;> simp [*]

theorem MVCCKey.short (k : MVCCKey) : k.engineKey.Short := by
  have := length_encodeMVCCTimestamp k.timestamp
  unfold EngineKey.Short
  simp only [engineKey, version]
  split
  · simp
  · split at this <;> [split at this; skip] <;> omega

theorem encodedMVCCKeyLength_eq (k : MVCCKey) :
    encodedMVCCKeyLength k =
      k.key.length + 1 + if k.timestamp.isEmpty then 0 else (encodeMVCCTimestamp k.timestamp).length + 1 := by
  rw [length_encodeMVCCTimestamp]
  simp only [encodedMVCCKeyLength, mvccEncodedTimeSentinelLen, mvccEncodedTimeWallLen, mvccEncodedTimeLengthLen,
    mvccEncodedTimeLogicalLen, mvccEncodedTimeSyntheticLen]
  split_ifs <;> omega

theorem encodeMVCCTimestamp_ne_nil (ts : Timestamp) : encodeMVCCTimestamp ts ≠ [] := by
  have hlen := length_encodeMVCCTimestamp ts
  intro h
  rw [h, length_nil] at hlen
  omega

theorem encodeMVCCKey_eq (k : MVCCKey) : encodeMVCCKey k = k.engineKey.encode := by
  simp only [encodeMVCCKey, encodedMVCCKeyLength_eq, encode, MVCCKey.engineKey, version,
    mvccEncodedTimeSentinelLen, mvccEncodedTimeLengthLen]
  by_cases he : k.timestamp.isEmpty = true
  · simp [he]
  have hpos := length_pos_of_ne_nil (encodeMVCCTimestamp_ne_nil k.timestamp)
  simp only [he, if_false, Bool.false_eq_true]
  have htsLen : (((k.key.length + 1 + ((encodeMVCCTimestamp k.timestamp).length + 1) : Nat) : Int) -
      (((k.key.length : Nat) : Int) + ((1 : Nat) : Int)) - ((1 : Nat) : Int)) =
        ((encodeMVCCTimestamp k.timestamp).length : Nat) := by
    omega
  rw [htsLen, if_pos hpos, if_pos (by omega)]
  simp [Nat.add_comm]

theorem suffix_eq (ts : Timestamp) :
    encodeMVCCTimestampSuffix ts =
      if ts.version = [] then [] else ts.version ++ [UInt8.ofNat (ts.version.length + 1)] := by
  simp only [encodeMVCCTimestampSuffix, encodedMVCCTimestampLength, encodedMVCCKeyLength_eq, version,
    mvccEncodedTimeSentinelLen, mvccEncodedTimeLengthLen]
  by_cases he : ts.isEmpty = true
  · simp [he]
  have hne := encodeMVCCTimestamp_ne_nil ts
  have hpos := length_pos_of_ne_nil hne
  simp only [he, if_false, Bool.false_eq_true, hne, length_nil, Nat.add_sub_cancel_left]
  have htsLen : (if 0 < (encodeMVCCTimestamp ts).length + 1 then (encodeMVCCTimestamp ts).length + 1 - 1
      else (encodeMVCCTimestamp ts).length + 1) = (encodeMVCCTimestamp ts).length := by
    rw [if_pos (by omega), Nat.add_sub_cancel]
  rw [htsLen, if_neg (by omega)]

/-! The order of timestamps. -/

/-- A timestamp's version as the comparison reads it, without the sentinel. -/
def Timestamp.ordered (ts : Timestamp) : Bytes :=
  bigEndian 8 ts.wallTime.toNat ++ if ts.logical = 0 then [] else bigEndian 4 ts.logical.toNat

theorem bigEndian_inj {n v w : Nat} (hv : v < 256 ^ n) (hw : w < 256 ^ n) (h : bigEndian n v = bigEndian n w) :
    v = w := by
  rw [← fromBigEndian_bigEndian hv, h, fromBigEndian_bigEndian hw]

/-- A version of a wall time and a logical part loses the logical part if it is zero. -/
theorem stripZeroLogical_append {w l : Bytes} (hw : w.length = 8) (hl : l.length = 4) :
    stripZeroLogical (0 :: (w ++ l)) = 0 :: (w ++ if l = bigEndian 4 0 then [] else l) := by
  have hdrop : (0 :: (w ++ l)).drop withWall = l := by simp [hw]
  have htake : (0 :: (w ++ l)).take withWall = 0 :: w := by simp [hw]
  unfold stripZeroLogical
  rw [hdrop, htake]
  by_cases hz : l = bigEndian 4 0
  · rw [if_pos hz, if_pos ⟨by simp [hw, hl], hz⟩, append_nil]
  · rw [if_neg hz, if_neg fun h => hz h.2]

namespace Timestamp.NonNeg

variable {t s : Timestamp}

theorem wall_lt_pow (h : t.NonNeg) : t.wallTime.toNat < 256 ^ 8 := by
  have := h.wall_lt
  omega

theorem logical_lt_pow (h : t.NonNeg) : t.logical.toNat < 256 ^ 4 := by
  have := h.logical_lt
  omega

theorem encode_eq (h : t.NonNeg) :
    encodeMVCCTimestamp t = bigEndian 8 t.wallTime.toNat ++
      if t.logical ≠ 0 ∨ t.synthetic then
        bigEndian 4 t.logical.toNat ++ if t.synthetic then [1] else []
      else [] := by
  have hwall : (t.wallTime % 2 ^ 64).toNat = t.wallTime.toNat := by
    have := h.wall_nonneg
    have := h.wall_lt
    omega
  have hlogical : (t.logical % 2 ^ 32).toNat = t.logical.toNat := by
    have := h.logical_nonneg
    have := h.logical_lt
    omega
  rw [encodeMVCCTimestamp, hwall, hlogical]

theorem logical_zero_iff (h : t.NonNeg) : bigEndian 4 t.logical.toNat = bigEndian 4 0 ↔ t.logical = 0 := by
  have := h.logical_nonneg
  constructor
  · intro he
    have := bigEndian_inj h.logical_lt_pow (by decide) he
    omega
  intro he
  rw [he]
  rfl

/-- Normalising drops the synthetic bit, and a logical part of zero. -/
theorem normalize_eq (h : t.NonNeg) :
    normalizeEngineKeyVersionForCompare (0 :: encodeMVCCTimestamp t) = 0 :: t.ordered := by
  have hstrip := stripZeroLogical_append (bigEndian_length 8 t.wallTime.toNat) (bigEndian_length 4 t.logical.toNat)
  simp only [h.logical_zero_iff] at hstrip
  rw [h.encode_eq]
  by_cases hsyn : t.synthetic = true
  · have hlong : stripSynthetic (0 :: (bigEndian 8 t.wallTime.toNat ++ (bigEndian 4 t.logical.toNat ++ [1]))) =
        0 :: (bigEndian 8 t.wallTime.toNat ++ bigEndian 4 t.logical.toNat) := by
      simp [stripSynthetic, take_append]
    rw [if_pos (.inr hsyn), if_pos hsyn, normalizeEngineKeyVersionForCompare, hlong, hstrip, ordered]
  by_cases hlog : t.logical = 0
  · rw [if_neg (by simp [hlog, hsyn]), ordered, if_pos hlog]
    exact normalize_of_length (.inl (by simp))
  have hshort : stripSynthetic (0 :: (bigEndian 8 t.wallTime.toNat ++ bigEndian 4 t.logical.toNat)) =
      0 :: (bigEndian 8 t.wallTime.toNat ++ bigEndian 4 t.logical.toNat) := if_neg (by simp)
  rw [if_pos (.inl hlog), if_neg hsyn, append_nil, normalizeEngineKeyVersionForCompare, hshort, hstrip, ordered]

theorem ordered_lt_of_wall (hs : s.NonNeg) (ht : t.NonNeg) (h : t.wallTime < s.wallTime) : t.ordered < s.ordered := by
  have := ht.wall_nonneg
  exact ((bigEndian_parts (by omega) hs.wall_lt_pow).append _ _).lt

theorem ordered_lt_of_logical (hs : s.NonNeg) (ht : t.NonNeg) (hw : t.wallTime = s.wallTime)
    (h : t.logical < s.logical) : t.ordered < s.ordered := by
  have := ht.logical_nonneg
  have hsne : ¬ s.logical = 0 := by omega
  rw [ordered, ordered, hw, if_neg hsne]
  by_cases hz : t.logical = 0
  · rw [if_pos hz, append_nil]
    exact lt_append_cons _ _ _
  · rw [if_neg hz]
    exact ((bigEndian_parts (by omega) hs.logical_lt_pow).append_left _).lt

theorem threeWay_ordered (hs : s.NonNeg) (ht : t.NonNeg) : threeWay t.ordered s.ordered = t.compare s := by
  unfold compare
  split_ifs with h1 h2 h3 h4
  · exact threeWay_gt_iff.mpr (ordered_lt_of_wall ht hs h1)
  · exact threeWay_lt_iff.mpr (ordered_lt_of_wall hs ht h2)
  · exact threeWay_gt_iff.mpr (ordered_lt_of_logical ht hs (by omega) h3)
  · exact threeWay_lt_iff.mpr (ordered_lt_of_logical hs ht (by omega) h4)
  · rw [threeWay_eq_iff, ordered, ordered, show t.wallTime = s.wallTime by omega, show t.logical = s.logical by omega]

end Timestamp.NonNeg

theorem threeWay_cons_self (c : UInt8) (a b : Bytes) : threeWay (c :: a) (c :: b) = threeWay a b := by
  rw [threeWay_cons, threeWay_eq_iff.mpr rfl]
  rfl

variable {k : MVCCKey}

theorem versionRank_of_isEmpty (h : k.timestamp.isEmpty = true) : versionRank k.engineKey.body = ⊥ := by
  simp [MVCCKey.engineKey, EngineKey.body, version, h]

theorem versionRank_of_not_isEmpty (hk : k.timestamp.NonNeg) (h : ¬ k.timestamp.isEmpty = true) :
    versionRank k.engineKey.body = ((OrderDual.toDual (0 :: k.timestamp.ordered) : Bytesᵒᵈ) : WithBot Bytesᵒᵈ) := by
  have hbody : k.engineKey.body = 0 :: encodeMVCCTimestamp k.timestamp := by
    simp [MVCCKey.engineKey, EngineKey.body, version, h, encodeMVCCTimestamp_ne_nil]
  rw [hbody, versionRank_of_ne (by simp), hk.normalize_eq]

theorem compare_encodeMVCCKey {o : MVCCKey} (hk : k.timestamp.NonNeg) (ho : o.timestamp.NonNeg) :
    engineKeyCompare (encodeMVCCKey k) (encodeMVCCKey o) = k.compare o := by
  rw [encodeMVCCKey_eq, encodeMVCCKey_eq, encode_eq _ k.short, encode_eq _ o.short, compare_fullKey]
  have hrank : threeWay (versionRank k.engineKey.body) (versionRank o.engineKey.body) =
      if k.timestamp.isEmpty ∧ ¬ o.timestamp.isEmpty then .lt
      else if ¬ k.timestamp.isEmpty ∧ o.timestamp.isEmpty then .gt
      else (k.timestamp.compare o.timestamp).swap := by
    by_cases hke : k.timestamp.isEmpty = true <;> by_cases hoe : o.timestamp.isEmpty = true
    · have hself : k.timestamp.compare o.timestamp = .eq := by
        simp only [Timestamp.isEmpty, Bool.and_eq_true, decide_eq_true_iff] at hke hoe
        simp [Timestamp.compare, hke.1.1, hke.1.2, hoe.1.1, hoe.1.2]
      rw [versionRank_of_isEmpty hke, versionRank_of_isEmpty hoe, threeWay_eq_iff.mpr rfl]
      simp [hke, hoe, hself]
    · rw [versionRank_of_isEmpty hke, versionRank_of_not_isEmpty ho hoe, threeWay_lt_iff.mpr (WithBot.bot_lt_coe _)]
      simp [hke, hoe]
    · rw [versionRank_of_not_isEmpty hk hke, versionRank_of_isEmpty hoe, threeWay_gt_iff.mpr (WithBot.bot_lt_coe _)]
      simp [hke, hoe]
    · rw [versionRank_of_not_isEmpty hk hke, versionRank_of_not_isEmpty ho hoe, threeWay_coe_toDual, threeWay_cons_self,
        threeWay_swap, Timestamp.NonNeg.threeWay_ordered ho hk]
      simp [hke, hoe]
  simp only [rank, full, threeWay_toLex, hrank, MVCCKey.compare]
  rw [bytesCompare_eq]
  simp only [MVCCKey.engineKey]
  cases threeWay k.key o.key <;> rfl

/-! Decoding. -/

theorem splitMVCCKey_fullKey (k : FullKey) : splitMVCCKey k.bytes = some (k.key, k.body.drop 1) := by
  simp only [splitMVCCKey, getLast?_bytes, toNat_length, length_bytes]
  have hend : k.key.length + k.body.length + 1 - 1 - k.body.length = k.key.length := by omega
  have hdrop : (k.bytes.take (k.key.length + k.body.length + 1 - 1)).drop (k.key.length + 1) = k.body.drop 1 := by
    rw [bytes, take_left' (by simp), drop_append]
    simp
  rw [if_neg (by omega), hend, hdrop]
  congr 2
  · simp [bytes]
  split
  · rfl
  · next h =>
    rw [drop_of_length_le (by omega)]

theorem splitMVCCKey_encode (k : MVCCKey) : splitMVCCKey (encodeMVCCKey k) = some (k.key, k.timestamp.version) := by
  have hdrop : k.engineKey.body.drop 1 = k.engineKey.version := by
    unfold EngineKey.body
    split
    · next h => rw [h]; rfl
    · rfl
  rw [encodeMVCCKey_eq, encode_eq _ k.short, splitMVCCKey_fullKey]
  simp only [full, hdrop]
  rfl

theorem toInt64_toNat {n : Int} (h : 0 ≤ n) (hlt : n < 2 ^ 63) : toInt64 n.toNat = n := by
  unfold toInt64
  omega

theorem toInt32_toNat {n : Int} (h : 0 ≤ n) (hlt : n < 2 ^ 31) : toInt32 n.toNat = n := by
  unfold toInt32
  omega

theorem Timestamp.eq_of_isEmpty {t : Timestamp} (h : t.isEmpty = true) : t = ⟨0, 0, false⟩ := by
  obtain ⟨w, l, s⟩ := t
  simp only [isEmpty, Bool.and_eq_true, decide_eq_true_iff, Bool.not_eq_true'] at h
  obtain ⟨⟨rfl, rfl⟩, rfl⟩ := h
  rfl

theorem decodeTimestamp_version {t : Timestamp} (h : t.NonNeg) : decodeTimestamp t.version = some t := by
  obtain ⟨w, l, syn⟩ := t
  have hwall : toInt64 (fromBigEndian (bigEndian 8 w.toNat)) = w := by
    rw [fromBigEndian_bigEndian h.wall_lt_pow, toInt64_toNat h.wall_nonneg h.wall_lt]
  have hlogical : toInt32 (fromBigEndian (bigEndian 4 l.toNat)) = l := by
    rw [fromBigEndian_bigEndian h.logical_lt_pow, toInt32_toNat h.logical_nonneg h.logical_lt]
  have htake : ∀ n v, (bigEndian n v).take n = bigEndian n v :=
    fun n v => take_of_length_le (by rw [bigEndian_length])
  unfold version
  by_cases he : Timestamp.isEmpty ⟨w, l, syn⟩ = true
  · rw [eq_of_isEmpty he]
    rfl
  rw [if_neg he, h.encode_eq]
  cases syn with
  | true => simp [decodeTimestamp, take_append, hwall, hlogical]
  | false =>
    by_cases hlog : l = 0
    · subst hlog
      simp [decodeTimestamp, htake, hwall]
    · simp [decodeTimestamp, hlog, take_append, htake, hwall, hlogical]

theorem decode_encodeMVCCKey (hk : k.timestamp.NonNeg) :
    decodeMVCCKey (encodeMVCCKey k) = .ok k := by
  simp only [decodeMVCCKey, splitMVCCKey_encode, decodeTimestamp_version hk]

/-! The comparer. -/

theorem compare_self (a : Bytes) : engineKeyCompare a a = .eq := by
  rw [← equal_iff]
  unfold engineKeyEqual
  cases ha : a.getLast? with
  | none => simp
  | some n =>
    obtain ⟨p, q, hsep⟩ : ∃ p q, separators a a n n = (p, q) := ⟨_, _, rfl⟩
    obtain rfl := separators_self hsep
    simp [hsep]

theorem compare_of_key_lt {k l : FullKey} (h : k.key < l.key) : engineKeyCompare k.bytes l.bytes = .lt := by
  rw [compare_fullKey, threeWay_lt_iff]
  exact Prod.Lex.toLex_lt_toLex.mpr (.inl h)

theorem key_le_of_compare {k l : FullKey} (h : engineKeyCompare k.bytes l.bytes = .lt) : k.key ≤ l.key := by
  rw [compare_fullKey, threeWay_lt_iff] at h
  exact Prod.Lex.monotone_fst _ _ h.le

/-- The laws of a separator of `a` and `b`. -/
def Separates (a b s : Bytes) : Prop := (engineKeyCompare a s).isLE ∧ engineKeyCompare s b = .lt

theorem separates_self {a b : Bytes} (h : engineKeyCompare a b = .lt) : Separates a b a :=
  ⟨by rw [compare_self]; rfl, h⟩

theorem separator_spec (dc : DefaultComparer) (dst : Bytes) {a b : Bytes} (h : engineKeyCompare a b = .lt) :
    ∃ s, separator dc dst a b = dst ++ s ∧ Separates a b s := by
  unfold separator
  cases ha : getKeyPartFromEngineKey a with
  | none => exact ⟨a, rfl, separates_self h⟩
  | some aKey =>
    cases hb : getKeyPartFromEngineKey b with
    | none => exact ⟨a, rfl, separates_self h⟩
    | some bKey =>
      dsimp only
      split_ifs with hkey hsep
      · exact ⟨a, rfl, separates_self h⟩
      · exact ⟨a, rfl, separates_self h⟩
      obtain ⟨k, rfl, rfl⟩ := exists_fullKey ha
      obtain ⟨l, rfl, rfl⟩ := exists_fullKey hb
      have hlt : k.key < l.key := lt_of_le_of_ne (key_le_of_compare h) hkey
      -- the separator of the user keys lies strictly above the first one
      have hbelow : k.key < dc.separator k.key l.key := lt_of_le_of_ne (dc.le_separator _ _ hlt) hsep
      refine ⟨dc.separator k.key l.key ++ [0], append_assoc _ _ _, ?_⟩
      rw [← bytes_bare]
      refine ⟨?_, compare_of_key_lt (dc.separator_lt _ _ hlt)⟩
      rw [compare_of_key_lt hbelow]
      rfl

theorem successor_spec (dc : DefaultComparer) (dst a : Bytes) :
    ∃ s, successor dc dst a = dst ++ s ∧ (engineKeyCompare a s).isLE := by
  have hself : (engineKeyCompare a a).isLE := by rw [compare_self]; rfl
  unfold successor
  cases ha : getKeyPartFromEngineKey a with
  | none => exact ⟨a, rfl, hself⟩
  | some aKey =>
    dsimp only
    split_ifs with hsucc
    · exact ⟨a, rfl, hself⟩
    obtain ⟨k, rfl, rfl⟩ := exists_fullKey ha
    have hbelow : k.key < dc.successor k.key := lt_of_le_of_ne (dc.le_successor _) hsucc
    refine ⟨dc.successor k.key ++ [0], append_assoc _ _ _, ?_⟩
    rw [← bytes_bare, compare_of_key_lt hbelow]
    rfl

/-- Encodings of keys of any version format; those of MVCC keys and of lock table keys are some. -/
def EncodedKey : Type := { b : Bytes // ∃ k : EngineKey, k.Short ∧ k.encode = b }

/-- Suffixes on their own, the empty one included. -/
def BareSuffix : Type := { b : Bytes // ∃ s : Suffix, s.bytes = b }

theorem EncodedKey.exists_fullKey (a : EncodedKey) : ∃ k : FullKey, a.1 = k.bytes := by
  obtain ⟨_, k, hk, rfl⟩ := a
  exact ⟨k.full hk, k.encode_eq hk⟩

theorem transCmp_encodedKey : Std.TransCmp fun a b : EncodedKey => engineKeyCompare a.1 b.1 := by
  choose full hfull using EncodedKey.exists_fullKey
  have hcmp : (fun a b : EncodedKey => engineKeyCompare a.1 b.1) = fun a b => threeWay (full a).rank (full b).rank := by
    funext a b
    rw [hfull a, hfull b, compare_fullKey]
  rw [hcmp]
  exact transCmp_threeWay fun a => (full a).rank

theorem transCmp_bareSuffix : Std.TransCmp fun a b : BareSuffix => engineKeyCompare a.1 b.1 := by
  choose suffix hsuffix using fun a : BareSuffix => a.2
  have hcmp : (fun a b : BareSuffix => engineKeyCompare a.1 b.1) =
      fun a b => threeWay (versionRank (suffix a).body) (versionRank (suffix b).body) := by
    funext a b
    rw [← hsuffix a, ← hsuffix b, compare_suffix]
  rw [hcmp]
  exact transCmp_threeWay fun a => versionRank (suffix a).body

theorem encodeMVCCKey_encoded (k : MVCCKey) : ∃ a : EncodedKey, a.1 = encodeMVCCKey k :=
  ⟨⟨_, k.engineKey, k.short, rfl⟩, (encodeMVCCKey_eq k).symm⟩

theorem encodeMVCCTimestampSuffix_bare (ts : Timestamp) : ∃ a : BareSuffix, a.1 = encodeMVCCTimestampSuffix ts :=
  ⟨⟨_, ⟨ts.version, MVCCKey.short ⟨[], ts⟩⟩, rfl⟩, (suffix_eq ts).symm⟩

/-- The part of a key that `Split` keeps. -/
def splitPart (a : Bytes) : Bytes := a.take (split a)

/-- What `Split` cuts off keeps the order of the keys, and comes first among the keys that
    share it. -/
theorem splitPart_spec (a b : EncodedKey) :
    (engineKeyCompare (splitPart a.1) (splitPart b.1) = .lt → engineKeyCompare a.1 b.1 = .lt) ∧
      ((engineKeyCompare a.1 b.1).isLE → (engineKeyCompare (splitPart a.1) (splitPart b.1)).isLE) ∧
      (engineKeyCompare (splitPart a.1) a.1).isLE := by
  obtain ⟨_, k, hk, rfl⟩ := a
  obtain ⟨_, l, hl, rfl⟩ := b
  simp only [splitPart, take_split k hk, take_split l hl]
  rw [k.encode_eq hk, l.encode_eq hl]
  simp only [compare_fullKey, threeWay_lt_iff, threeWay_isLE_iff]
  simp only [rank, bare, full, versionRank_nil, Prod.Lex.toLex_lt_toLex,
    Prod.Lex.toLex_le_toLex, lt_irrefl, and_false, or_false, le_refl, and_true, bot_le]
  refine ⟨fun h => .inl h, fun h => ?_, .inr trivial⟩
  rcases h with hlt | heq
  · exact .inl hlt
  · exact .inr heq.1

/-- The comparer on encoded keys and on bare suffixes: it agrees with the order of MVCC keys, is a
    total preorder on each of the two, and its equality, separators, successors and splits
    respect it. -/
theorem engineComparer_laws (dc : DefaultComparer) :
    (∀ k o : MVCCKey, k.timestamp.NonNeg → o.timestamp.NonNeg →
      engineKeyCompare (encodeMVCCKey k) (encodeMVCCKey o) = k.compare o ∧
        (engineKeyEqual (encodeMVCCKey k) (encodeMVCCKey o) = true ↔ k.compare o = .eq) ∧
        decodeMVCCKey (encodeMVCCKey k) = .ok k) ∧
    (∀ k : MVCCKey, ∃ a : EncodedKey, a.1 = encodeMVCCKey k) ∧
    (∀ ts : Timestamp, ∃ a : BareSuffix, a.1 = encodeMVCCTimestampSuffix ts) ∧
    (Std.TransCmp fun a b : EncodedKey => engineKeyCompare a.1 b.1) ∧
    (Std.TransCmp fun a b : BareSuffix => engineKeyCompare a.1 b.1) ∧
    (∀ a b : Bytes, engineKeyEqual a b = true ↔ engineKeyCompare a b = .eq) ∧
    (∀ dst a b : Bytes, engineKeyCompare a b = .lt → ∃ s, separator dc dst a b = dst ++ s ∧ Separates a b s) ∧
    (∀ dst a : Bytes, ∃ s, successor dc dst a = dst ++ s ∧ (engineKeyCompare a s).isLE) ∧
    (∀ a b : EncodedKey, (engineKeyCompare (splitPart a.1) (splitPart b.1) = .lt → engineKeyCompare a.1 b.1 = .lt) ∧
        ((engineKeyCompare a.1 b.1).isLE → (engineKeyCompare (splitPart a.1) (splitPart b.1)).isLE) ∧
        (engineKeyCompare (splitPart a.1) a.1).isLE) := by
  refine ⟨fun k o hk ho => ?_, encodeMVCCKey_encoded, encodeMVCCTimestampSuffix_bare, transCmp_encodedKey,
    transCmp_bareSuffix, equal_iff, fun dst _ _ h => separator_spec dc dst h, successor_spec dc, splitPart_spec⟩
  have hcmp := compare_encodeMVCCKey hk ho
  exact ⟨hcmp, by rw [equal_iff, hcmp], decode_encodeMVCCKey hk⟩

/-! The functions of `pebble.DefaultComparer`, which cut a key at the first byte they can raise. -/

namespace DefaultComparer

def cutSuccessor : Bytes → Bytes
  | [] => []
  | c :: a => if c = 255 then c :: cutSuccessor a else [c + 1]

def cutSeparator : Bytes → Bytes → Bytes
  | c :: a, d :: b =>
    if c = d then c :: cutSeparator a b
    else if d ≤ c then c :: a
    else if b ≠ [] ∨ c + 1 < d then [c + 1]
    -- the byte raised would be all of `b`: a later byte is raised
    else c :: cutSuccessor a
  | a, _ => a

theorem le_cutSuccessor (a : Bytes) : a ≤ cutSuccessor a := by
  induction a with
  | nil => exact le_refl _
  | cons c a ih =>
    unfold cutSuccessor
    split_ifs with h
    · exact Lib.cons_le_cons.mpr (.inr ⟨rfl, ih⟩)
    · exact Lib.cons_le_cons.mpr (.inl (by grind))

theorem cutSeparator_spec {a b : Bytes} (h : a < b) : a ≤ cutSeparator a b ∧ cutSeparator a b < b := by
  induction a generalizing b with
  | nil => cases b <;> exact ⟨le_refl _, h⟩
  | cons c a ih =>
    cases b with
    | nil => exact absurd h (by simp)
    | cons d b =>
      rw [cutSeparator]
      rcases cons_lt_cons_iff.mp h with hlt | ⟨rfl, hab⟩
      · rw [if_neg hlt.ne, if_neg (not_le.mpr hlt)]
        split_ifs with hroom
        · have hraised : c + 1 < d ∨ c + 1 = d ∧ [] < b := by
            rcases hroom with hb | hcd
            · obtain ⟨e, b, rfl⟩ := exists_cons_of_ne_nil hb
              rcases lt_or_eq_of_le (show c + 1 ≤ d by grind) with hcd | hcd
              · exact .inl hcd
              · exact .inr ⟨hcd, nil_lt_cons e b⟩
            · exact .inl hcd
          exact ⟨Lib.cons_le_cons.mpr (.inl (by grind)), cons_lt_cons_iff.mpr hraised⟩
        · exact ⟨Lib.cons_le_cons.mpr (.inr ⟨rfl, le_cutSuccessor a⟩), cons_lt_cons_iff.mpr (.inl hlt)⟩
      · rw [if_pos rfl, Lib.cons_le_cons, cons_lt_cons_iff]
        exact ⟨.inr ⟨rfl, (ih hab).1⟩, .inr ⟨rfl, (ih hab).2⟩⟩

def pebble : DefaultComparer where
  separator := cutSeparator
  successor := cutSuccessor
  le_separator _ _ h := (cutSeparator_spec h).1
  separator_lt _ _ h := (cutSeparator_spec h).2
  le_successor := le_cutSuccessor

end DefaultComparer

theorem engineComparer_laws_pebble :
    engineKeyCompare (encodeMVCCKey ⟨[97], ⟨2, 0, false⟩⟩) (encodeMVCCKey ⟨[97], ⟨1, 3, true⟩⟩) = .lt ∧
      ∃ s, separator .pebble [] [97, 0] [99, 0] = [] ++ s ∧ Separates [97, 0] [99, 0] s :=
  ⟨((engineComparer_laws .pebble).1 ⟨[97], ⟨2, 0, false⟩⟩ ⟨[97], ⟨1, 3, true⟩⟩
      ⟨by decide, by decide, by decide, by decide⟩ ⟨by decide, by decide, by decide, by decide⟩).1.trans (by decide),
    (engineComparer_laws .pebble).2.2.2.2.2.2.1 [] [97, 0] [99, 0] (by decide)⟩

/-- Keys and bare suffixes together are not ordered: two keys, in the order of their
    timestamps, and a suffix that stands after the second and before the first. -/
theorem keys_and_suffix_cycle :
    ∃ (k o : MVCCKey) (ts : Timestamp), k.timestamp.NonNeg ∧ o.timestamp.NonNeg ∧ ts.NonNeg ∧
      engineKeyCompare (encodeMVCCKey k) (encodeMVCCKey o) = .lt ∧
      engineKeyCompare (encodeMVCCKey o) (encodeMVCCTimestampSuffix ts) = .lt ∧
      engineKeyCompare (encodeMVCCTimestampSuffix ts) (encodeMVCCKey k) = .lt :=
  ⟨⟨[97], ⟨2 * 256 ^ 7, 0, false⟩⟩, ⟨[97], ⟨1, 0, false⟩⟩, ⟨97 * 256 ^ 7 + 256 ^ 5, 0, false⟩,
    ⟨by decide, by decide, by decide, by decide⟩, ⟨by decide, by decide, by decide, by decide⟩,
    ⟨by decide, by decide, by decide, by decide⟩, by decide +kernel, by decide +kernel, by decide +kernel⟩

end Ratel.EngineKeys
