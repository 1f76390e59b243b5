import Ratel.EngineKeys
import Ratel.Lib.Ordering

/- The order of engine keys. A key is a user key and a body, the sentinel and the version, which
   is empty when there is no version; a bare suffix is a body without the sentinel. On the
   keys, and apart from them on the bare suffixes, the comparison is the lexicographic one of
   the user keys and then, in reverse, of the normalised bodies with the empty body first. The
   laws of an order, those of the separator and the agreement with the order of MVCC keys are
   read off that. -/
namespace Ratel.EngineKeys

open Ratel.Lib Ratel.Encoding List

/-! Byte strings. -/

theorem bytesCompare_eq (a b : Bytes) : bytesCompare a b = threeWay a b := by
  rcases lt_trichotomy a b with h | h | h
  · rw [threeWay_lt_iff.mpr h]
    exact if_pos h
  · rw [threeWay_eq_iff.mpr h, h]
    simp [bytesCompare]
  · rw [threeWay_gt_iff.mpr h]
    simp only [bytesCompare]
    rw [if_neg (lt_asymm h), if_pos h]

variable {a b v : Bytes} {aLen bLen : UInt8} {p q : Int}

theorem bytesCompare_eq_iff : bytesCompare a b = .eq ↔ a = b := by
  rw [bytesCompare_eq, threeWay_eq_iff]

/-! Keys in parts. -/

/-- A key as the comparer reads one. -/
structure FullKey where
  key : Bytes
  body : Bytes
  short : body.length ≤ 255

/-- A bare suffix as the comparer reads one, or no suffix. -/
structure Suffix where
  body : Bytes
  short : body.length < 255

namespace FullKey

def bytes (k : FullKey) : Bytes := k.key ++ k.body ++ [UInt8.ofNat k.body.length]

theorem getLast?_bytes (k : FullKey) : k.bytes.getLast? = some (UInt8.ofNat k.body.length) := by
  simp [bytes]

theorem length_bytes (k : FullKey) : k.bytes.length = k.key.length + k.body.length + 1 := by
  simp [bytes, Nat.add_assoc]

theorem toNat_length (k : FullKey) : (UInt8.ofNat k.body.length).toNat = k.body.length := by
  have := k.short
  simp only [UInt8.toNat_ofNat']
  omega

theorem sep_eq (k : FullKey) :
    (k.bytes.length : Int) - 1 - (UInt8.ofNat k.body.length).toNat = k.key.length := by
  rw [k.toNat_length, k.length_bytes]
  omega

theorem keyPart_eq (k : FullKey) : keyPart k.bytes k.key.length = k.key := by
  simp [keyPart, bytes]

theorem versionPart_eq (k : FullKey) : versionPart k.bytes k.key.length = k.body := by
  simp only [versionPart, Int.toNat_natCast, bytes]
  rw [take_left' (by simp), drop_left' rfl]

theorem separators_eq (k l : FullKey) :
    separators k.bytes l.bytes (UInt8.ofNat k.body.length) (UInt8.ofNat l.body.length) =
      ((k.key.length : Int), (l.key.length : Int)) := by
  simp only [separators, sep_eq]
  rw [if_neg (by omega)]

theorem split_eq (k : FullKey) : EngineComparer.split k.bytes = k.key.length + 1 := by
  simp only [EngineComparer.split, getLast?_bytes, toNat_length, length_bytes]
  rw [if_neg (by omega)]
  omega

/-- A key without a version. -/
def bare (key : Bytes) : FullKey := ⟨key, [], by simp⟩

@[simp] theorem bytes_bare (key : Bytes) : (bare key).bytes = key ++ [0] := by simp [bare, bytes]

end FullKey

/-- A byte string with a key part is a key. -/
theorem exists_fullKey {key : Bytes} (h : getKeyPartFromEngineKey a = some key) :
    ∃ k : FullKey, k.bytes = a ∧ k.key = key := by
  unfold getKeyPartFromEngineKey at h
  cases hl : a.getLast? with
  | none => simp [hl] at h
  | some n =>
    simp only [hl] at h
    split at h
    · cases h
    next hn =>
    have hne : a ≠ [] := by intro ha; simp [ha] at hl
    have hlast : a.getLast hne = n := Option.some.inj (by rw [← getLast?_eq_some_getLast, hl])
    have hlen : (a.dropLast.drop (a.length - 1 - n.toNat)).length = n.toNat := by simp; omega
    refine ⟨⟨a.take (a.length - 1 - n.toNat), a.dropLast.drop (a.length - 1 - n.toNat), ?_⟩, ?_, ?_⟩
    · have := n.toNat_lt
      omega
    · have htake : a.take (a.length - 1 - n.toNat) = a.dropLast.take (a.length - 1 - n.toNat) := by
        rw [dropLast_eq_take, take_take, Nat.min_eq_left (by omega)]
      simp only [FullKey.bytes]
      rw [hlen, UInt8.ofNat_toNat, htake, take_append_drop, ← hlast, dropLast_append_getLast]
    · exact Option.some.inj h

namespace Suffix

def bytes (s : Suffix) : Bytes := if s.body = [] then [] else s.body ++ [UInt8.ofNat (s.body.length + 1)]

variable {s : Suffix}

theorem bytes_of_ne (h : s.body ≠ []) : s.bytes = s.body ++ [UInt8.ofNat (s.body.length + 1)] :=
  if_neg h

theorem bytes_of_eq (h : s.body = []) : s.bytes = [] := if_pos h

theorem getLast?_bytes (h : s.body ≠ []) :
    s.bytes.getLast? = some (UInt8.ofNat (s.body.length + 1)) := by
  simp [bytes_of_ne h]

theorem sep_eq (h : s.body ≠ []) :
    (s.bytes.length : Int) - 1 - (UInt8.ofNat (s.body.length + 1)).toNat = -1 := by
  have := s.short
  rw [bytes_of_ne h]
  simp only [length_append, length_singleton, UInt8.toNat_ofNat']
  omega

theorem versionPart_eq (h : s.body ≠ []) : versionPart s.bytes 0 = s.body := by
  simp [versionPart, bytes_of_ne h]

theorem nil_lt_bytes (h : s.body ≠ []) : [] < s.bytes := by
  rw [bytes_of_ne h]
  cases hb : s.body with
  | nil => exact absurd hb h
  | cons c r => exact lt_append_cons [] _ _

end Suffix

/-! The order of versions. -/

/-- Where a version stands: none first, then the later ones before the earlier. -/
def versionRank (v : Bytes) : WithBot Bytesᵒᵈ :=
  if v = [] then ⊥ else ((OrderDual.toDual (normalizeEngineKeyVersionForCompare v) : Bytesᵒᵈ) : WithBot Bytesᵒᵈ)

@[simp] theorem versionRank_nil : versionRank [] = ⊥ := rfl

theorem versionRank_of_ne (h : v ≠ []) :
    versionRank v = ((OrderDual.toDual (normalizeEngineKeyVersionForCompare v) : Bytesᵒᵈ) : WithBot Bytesᵒᵈ) := if_neg h

theorem compareVersions_eq (x y : Bytes) : compareVersions x y = threeWay (versionRank x) (versionRank y) := by
  unfold compareVersions
  by_cases hx : x = [] <;> by_cases hy : y = []
  · rw [hx, hy]
    exact (threeWay_eq_iff.mpr rfl).symm
  · rw [if_pos (by simpa using hx), if_neg (by simpa using hy), hx, versionRank_of_ne hy]
    exact (threeWay_lt_iff.mpr (WithBot.bot_lt_coe _)).symm
  · rw [if_neg (by simpa using hx), hy, versionRank_of_ne hx]
    exact (threeWay_gt_iff.mpr (WithBot.bot_lt_coe _)).symm
  · rw [if_neg (by simpa using hx), if_neg (by simpa using hy), versionRank_of_ne hx, versionRank_of_ne hy,
      bytesCompare_eq, threeWay_coe_toDual]

/-! The order of keys and of suffixes. -/

def FullKey.rank (k : FullKey) : Bytes ×ₗ WithBot Bytesᵒᵈ := toLex (k.key, versionRank k.body)

theorem compare_fullKey (k l : FullKey) : engineKeyCompare k.bytes l.bytes = threeWay k.rank l.rank := by
  simp only [engineKeyCompare, FullKey.getLast?_bytes, FullKey.separators_eq, FullKey.keyPart_eq,
    FullKey.versionPart_eq, FullKey.rank, threeWay_toLex]
  rw [← compareVersions_eq, ← bytesCompare_eq]
  cases bytesCompare k.key l.key <;> rfl

theorem compare_suffix (s t : Suffix) :
    engineKeyCompare s.bytes t.bytes = threeWay (versionRank s.body) (versionRank t.body) := by
  rw [← compareVersions_eq]
  by_cases hs : s.body = [] <;> by_cases ht : t.body = []
  · simp [engineKeyCompare, Suffix.bytes_of_eq hs, Suffix.bytes_of_eq ht, compareVersions, hs, ht, bytesCompare]
  · have hlt := Suffix.nil_lt_bytes ht
    simp [engineKeyCompare, Suffix.bytes_of_eq hs, compareVersions, hs, ht, bytesCompare, hlt]
  · have hlt := Suffix.nil_lt_bytes hs
    simp [engineKeyCompare, Suffix.bytes_of_eq ht, compareVersions, hs, ht, bytesCompare, hlt]
  · simp only [engineKeyCompare, Suffix.getLast?_bytes hs, Suffix.getLast?_bytes ht, separators,
      Suffix.sep_eq hs, Suffix.sep_eq ht]
    simp [keyPart, bytesCompare, Suffix.versionPart_eq hs, Suffix.versionPart_eq ht]

/-! Equality. -/

theorem length_stripSynthetic (v : Bytes) :
    (stripSynthetic v).length = if v.length = withSynthetic then withLogical else v.length := by
  unfold stripSynthetic
  split
  · next h =>
    simp [h]
  · rfl

theorem min_le_length_normalize (v : Bytes) :
    min v.length withWall ≤ (normalizeEngineKeyVersionForCompare v).length := by
  have hlen := length_stripSynthetic v
  have hwall : withWall ≤ withLogical ∧ withLogical ≤ withSynthetic := by simp
  unfold normalizeEngineKeyVersionForCompare stripZeroLogical
  split
  · next h =>
    rw [length_take]
    omega
  · rw [hlen]
    split <;> omega

theorem normalize_eq_nil_iff : normalizeEngineKeyVersionForCompare v = [] ↔ v = [] := by
  constructor
  · intro h
    have hle := min_le_length_normalize v
    rw [h] at hle
    have : v.length = 0 := by
      simp only [withWall, mvccEncodedTimeSentinelLen, length_nil] at hle
      omega
    exact length_eq_zero_iff.mp this
  · intro h
    rw [h]
    rfl

theorem versionRank_inj {x y : Bytes} :
    versionRank x = versionRank y ↔ normalizeEngineKeyVersionForCompare x = normalizeEngineKeyVersionForCompare y := by
  by_cases hx : x = [] <;> by_cases hy : y = []
  · simp [hx, hy]
  · have hne := mt normalize_eq_nil_iff.mp hy
    simp [hx, versionRank_of_ne hy, normalize_eq_nil_iff.mpr, Ne.symm hne]
  · have hne := mt normalize_eq_nil_iff.mp hx
    simp [hy, versionRank_of_ne hx, normalize_eq_nil_iff.mpr, hne]
  · simp [versionRank_of_ne hx, versionRank_of_ne hy]

theorem compareVersions_eq_iff {x y : Bytes} : compareVersions x y = .eq ↔
    normalizeEngineKeyVersionForCompare x = normalizeEngineKeyVersionForCompare y := by
  rw [compareVersions_eq, threeWay_eq_iff, versionRank_inj]

/-- Versions of the lengths that equality compares as they are. -/
theorem normalize_of_length (h : v.length ≤ withWall ∨ withSynthetic < v.length) :
    normalizeEngineKeyVersionForCompare v = v := by
  simp at h
  have hsyn : stripSynthetic v = v := if_neg (by simp; omega)
  rw [normalizeEngineKeyVersionForCompare, hsyn]
  exact if_neg (by simp; omega)

theorem separators_spec (h : separators a b aLen bLen = (p, q)) :
    (p = a.length - 1 - aLen.toNat ∧ q = b.length - 1 - bLen.toNat) ∨
      (p = 0 ∧ q = 0 ∧ (a.length : Int) = aLen.toNat ∧ (b.length : Int) = bLen.toNat) := by
  simp only [separators] at h
  split at h
  · next hbare =>
    obtain ⟨rfl, rfl⟩ := Prod.mk.inj h
    exact .inr ⟨rfl, rfl, by omega, by omega⟩
  · obtain ⟨rfl, rfl⟩ := Prod.mk.inj h
    exact .inl ⟨rfl, rfl⟩

theorem parts_eq {n : UInt8} (h : a.getLast? = some n) (hp : p < a.length) :
    a = keyPart a p ++ versionPart a p ++ [n] := by
  have hne : a ≠ [] := by intro ha; simp [ha] at h
  have hlast : a.getLast hne = n := Option.some.inj (by rw [← getLast?_eq_some_getLast, h])
  have hkey : keyPart a p = a.dropLast.take p.toNat := by
    rw [keyPart, dropLast_eq_take, take_take, Nat.min_eq_left (by omega)]
  rw [hkey, versionPart, ← dropLast_eq_take, take_append_drop, ← hlast, dropLast_append_getLast]

theorem length_versionPart (a : Bytes) (p : Int) : (versionPart a p).length = a.length - 1 - p.toNat := by
  simp [versionPart]

/-- Separators at which both strings split, and the lengths of the versions behind them. -/
theorem separators_bounds (ha : a.getLast? = some aLen)
    (hb : b.getLast? = some bLen) (h : separators a b aLen bLen = (p, q)) (hp : 0 ≤ p) (hq : 0 ≤ q) :
    p < a.length ∧ q < b.length ∧ (versionPart a p).length ≤ aLen.toNat ∧ (versionPart b q).length ≤ bLen.toNat := by
  have hapos : 0 < a.length := length_pos_of_ne_nil (by intro h0; simp [h0] at ha)
  have hbpos : 0 < b.length := length_pos_of_ne_nil (by intro h0; simp [h0] at hb)
  rw [length_versionPart, length_versionPart]
  rcases separators_spec h with hs | hs
  · omega
  · omega

theorem compare_eq_iff (ha : a.getLast? = some aLen)
    (hb : b.getLast? = some bLen) (h : separators a b aLen bLen = (p, q)) :
    engineKeyCompare a b = .eq ↔
      if p < 0 ∨ q < 0 then a = b
      else keyPart a p = keyPart b q ∧ normalizeEngineKeyVersionForCompare (versionPart a p) =
          normalizeEngineKeyVersionForCompare (versionPart b q) := by
  simp only [engineKeyCompare, ha, hb, h]
  split
  · rw [bytesCompare_eq_iff]
  · rw [← bytesCompare_eq_iff, ← compareVersions_eq_iff]
    cases bytesCompare (keyPart a p) (keyPart b q) <;> simp

/-- The condition of the fast path of `EngineKeyEqual`. -/
def FastEqual (aLen bLen : UInt8) : Prop :=
  aLen.toNat ≤ withWall ∧ bLen.toNat ≤ withWall ∨ aLen.toNat = withLockTableLen ∧ bLen.toNat = withLockTableLen

/-- On the fast path the parts are equal only if the whole keys are. -/
theorem eq_of_fast (ha : a.getLast? = some aLen) (hb : b.getLast? = some bLen)
    (h : separators a b aLen bLen = (p, q)) (hp : 0 ≤ p) (hq : 0 ≤ q) (hfast : FastEqual aLen bLen)
    (hkey : keyPart a p = keyPart b q)
    (hver : normalizeEngineKeyVersionForCompare (versionPart a p) =
      normalizeEngineKeyVersionForCompare (versionPart b q)) : a = b := by
  obtain ⟨hpa, hqb, -, -⟩ := separators_bounds ha hb h hp hq
  have hspec := separators_spec h
  have hlen := length_versionPart a p
  have hlen' := length_versionPart b q
  simp only [FastEqual, withWall, withLockTableLen, mvccEncodedTimeSentinelLen, mvccEncodedTimeWallLen,
    engineKeyVersionLockTableLen] at hfast
  rw [normalize_of_length (by simp; omega), normalize_of_length (by simp; omega)] at hver
  have hlast : aLen = bLen := by
    apply UInt8.toNat_inj.mp
    have := congrArg List.length hver
    omega
  rw [parts_eq ha hpa, parts_eq hb hqb, hkey, hver, hlast]

theorem separators_self {n : UInt8} (h : separators a a n n = (p, q)) : p = q := by
  simp only [separators] at h
  split at h <;> exact (Prod.mk.inj h).1.symm.trans (Prod.mk.inj h).2

theorem equal_iff (a b : Bytes) : engineKeyEqual a b = true ↔ engineKeyCompare a b = .eq := by
  cases ha : a.getLast? with
  | none =>
    simp only [engineKeyEqual, engineKeyCompare, ha]
    rw [bytesCompare_eq_iff, decide_eq_true_iff]
  | some aLen =>
    cases hb : b.getLast? with
    | none =>
      simp only [engineKeyEqual, engineKeyCompare, ha, hb]
      rw [bytesCompare_eq_iff, decide_eq_true_iff]
    | some bLen =>
      obtain ⟨p, q, hsep⟩ : ∃ p q, separators a b aLen bLen = (p, q) := ⟨_, _, rfl⟩
      rw [compare_eq_iff ha hb hsep]
      simp only [engineKeyEqual, ha, hb, hsep]
      split
      · next hfast =>
        rw [decide_eq_true_iff]
        constructor
        · intro hab
          subst hab
          obtain rfl : aLen = bLen := Option.some.inj (ha.symm.trans hb)
          obtain rfl := separators_self hsep
          split <;> simp
        · intro heq
          split at heq
          · exact heq
          · exact eq_of_fast ha hb hsep (by omega) (by omega) hfast heq.1 heq.2
      · split <;> simp

end Ratel.EngineKeys
