import Ratel.Lib.Cursor
import Ratel.Storage.Engine

/- The MVCC iterator: positions are user keys with a timestamp, ordered with the
   metadata record of a key first and its versions from new to old. The iterator stops
   at every point record and, for a range key, at its start bound; a seek inside a range
   key stops at the seek key itself. Only the contract of the iterator is modelled, over
   a `Source` that says what lies where; `Engine.source` is the source of an engine
   within iteration bounds, which also cut the range keys. Range-key masking
   (`RangeKeyMaskingBelow`), which lets an iterator hide points below a range key, is left
   out: every point is there. -/
namespace Ratel.Storage

open Encoding Lib

structure MVCCKey where
  key : Bytes
  ts : Timestamp
deriving DecidableEq, Repr

namespace MVCCKey

/-- The comparison key of a position. -/
def rank (p : MVCCKey) : Bytes ×ₗ Nat ×ₗ Natᵒᵈ :=
  toLex (p.key, toLex (if p.ts = 0 then 0 else 1, OrderDual.toDual p.ts))

theorem rank_injective : Function.Injective rank := by
  rintro ⟨k, t⟩ ⟨k', t'⟩ h
  simp only [rank, EmbeddingLike.apply_eq_iff_eq, Prod.mk.injEq] at h
  simp [h.1, h.2.2]

instance : LinearOrder MVCCKey := LinearOrder.lift' rank rank_injective

variable {p q : MVCCKey} {k : Bytes}

theorem lt_iff : p < q ↔ p.key < q.key ∨ p.key = q.key ∧ q.ts ≠ 0 ∧ (p.ts = 0 ∨ q.ts < p.ts) := by
  change rank p < rank q ↔ _
  simp only [rank, Prod.Lex.toLex_lt_toLex, OrderDual.toDual_lt_toDual]
  by_cases hp : p.ts = 0 <;> by_cases hq : q.ts = 0 <;> simp [hp, hq]

theorem le_iff : p ≤ q ↔ p.key < q.key ∨ p.key = q.key ∧ (p.ts = 0 ∨ q.ts ≠ 0 ∧ q.ts ≤ p.ts) := by
  rw [← not_lt, lt_iff]
  rcases lt_trichotomy p.key q.key with h | h | h
  · simp [h, not_lt.mpr h.le, h.ne']
  · by_cases hp : p.ts = 0 <;> by_cases hq : q.ts = 0 <;> simp [h, hp]
  · simp [h, not_lt.mpr h.le, h.ne']

theorem key_le (h : p ≤ q) : p.key ≤ q.key := by
  rcases le_iff.mp h with h | h
  · exact h.le
  · exact h.1.le

theorem lt_of_key_lt (h : p.key < q.key) : p < q := lt_iff.mpr (.inl h)

theorem key_lt_of_lt_bare (h : p < ⟨k, 0⟩) : p.key < k := by
  rcases lt_iff.mp h with h | h
  · exact h
  · exact absurd rfl h.2.1

theorem bare_le (p : MVCCKey) : (⟨p.key, 0⟩ : MVCCKey) ≤ p := le_iff.mpr (.inr ⟨rfl, .inl rfl⟩)

theorem bare_le_iff : (⟨k, 0⟩ : MVCCKey) ≤ p ↔ k ≤ p.key := by
  refine ⟨key_le, fun h => ?_⟩
  rcases h.lt_or_eq with h | rfl
  · exact (lt_of_key_lt h).le
  · exact bare_le p

theorem lt_bare_iff : p < (⟨k, 0⟩ : MVCCKey) ↔ p.key < k :=
  ⟨key_lt_of_lt_bare, fun h => lt_of_key_lt h⟩

end MVCCKey

inductive Record
  | metadata (m : MVCCMetadata)
  | value (v : MVCCValue)
deriving DecidableEq, Repr

/-- What an iterator iterates over: the point records, the fragments of the range keys,
    and the positions where it stops. -/
structure Source where
  stops : List MVCCKey
  point : MVCCKey → Option Record
  rangeAt : Bytes → Option RangeKeyStack
  mem_stops : ∀ p, p ∈ stops ↔ (point p).isSome ∨ p.ts = 0 ∧ ∃ s, rangeAt p.key = some s ∧ s.key = p.key
  metadata_ts : ∀ {p m}, point p = some (.metadata m) → p.ts = 0
  value_ts : ∀ {p v}, point p = some (.value v) → p.ts ≠ 0
  covers : ∀ {k s}, rangeAt k = some s → s.Covers k
  rangeAt_of_covers : ∀ {k s}, rangeAt k = some s → ∀ k', s.Covers k' → rangeAt k' = some s

namespace Source

variable (src : Source)

def IsPoint (p : MVCCKey) : Prop := (src.point p).isSome

instance (p : MVCCKey) : Decidable (src.IsPoint p) := inferInstanceAs (Decidable (_ = true))

theorem IsPoint.mem_stops {src : Source} {p : MVCCKey} (h : src.IsPoint p) : p ∈ src.stops :=
  (src.mem_stops p).mpr (.inl h)

/-- The range keys at a cursor; an exhausted cursor has none. -/
def rangesOn : Cursor MVCCKey → Option RangeKeyStack
  | .on p => src.rangeAt p.key
  | _ => none

/-- `SeekGE`: the seek key itself when a record or a range key is there, the next stop otherwise. -/
def seekGE (p : MVCCKey) : Cursor MVCCKey :=
  if src.IsPoint p ∨ (src.rangeAt p.key).isSome then .on p
  else .orAfter (least src.stops fun q => decide (p ≤ q))

/-- `SeekLT`: the last stop before the seek key. -/
def seekLT (p : MVCCKey) : Cursor MVCCKey := .orBefore (greatest src.stops fun q => decide (q < p))

/-- `NextKey`: the first stop of a later user key. -/
def nextKey : Cursor MVCCKey → Cursor MVCCKey
  | .on p => .orAfter (least src.stops fun q => decide (p.key < q.key))
  | c => c.next src.stops

def firstPoint (reverse : Bool) (test : MVCCKey → Prop) [DecidablePred test] : Option MVCCKey :=
  first reverse src.stops fun q => decide (src.IsPoint q) && decide (test q)

def pointOn (reverse : Bool) (p : MVCCKey) : Option MVCCKey := src.firstPoint reverse (Upto reverse p)

/-- The first point at or after a position. -/
def pointFrom (p : MVCCKey) : Option MVCCKey :=
  least src.stops fun q => decide (src.IsPoint q) && decide (p ≤ q)

def pointAfter (p : MVCCKey) : Option MVCCKey :=
  least src.stops fun q => decide (src.IsPoint q) && decide (p < q)

def pointBefore (p : MVCCKey) : Option MVCCKey :=
  greatest src.stops fun q => decide (src.IsPoint q) && decide (q < p)

/-- The first point of a later user key. -/
def pointPast (k : Bytes) : Option MVCCKey :=
  least src.stops fun q => decide (src.IsPoint q) && decide (k < q.key)

section
variable {src}

variable {test : MVCCKey → Prop} {q p : MVCCKey}

/-- The first point of a set, in terms of the points alone. -/
theorem firstPoint_eq_some_iff (reverse : Bool) [DecidablePred test] : src.firstPoint reverse test = some q ↔
    (src.IsPoint q ∧ test q) ∧ ∀ r, src.IsPoint r → test r → Upto reverse q r := by
  simp only [firstPoint, first_eq_some_iff, Bool.and_eq_true, decide_eq_true_eq]
  exact ⟨fun h => ⟨h.1.2, fun r hr hle => h.2 r hr.mem_stops ⟨hr, hle⟩⟩,
    fun h => ⟨⟨h.1.1.mem_stops, h.1⟩, fun r _ hr => h.2 r hr.1 hr.2⟩⟩

theorem firstPoint_eq_none_iff (reverse : Bool) [DecidablePred test] :
    src.firstPoint reverse test = none ↔ ∀ r, src.IsPoint r → ¬ test r := by
  simp only [firstPoint, first_eq_none_iff, Bool.and_eq_false_iff, decide_eq_false_iff_not]
  exact ⟨fun h r hr => (h r hr.mem_stops).resolve_left (fun hn => hn hr),
    fun h r _ => (em (src.IsPoint r)).elim (fun hr => .inr (h r hr)) .inl⟩

theorem firstPoint_congr {test' : MVCCKey → Prop} [DecidablePred test] [DecidablePred test'] (reverse : Bool)
    (h : ∀ r, src.IsPoint r → (test r ↔ test' r)) : src.firstPoint reverse test = src.firstPoint reverse test' := by
  refine congrArg (first reverse src.stops) (funext fun r => ?_)
  by_cases hr : src.IsPoint r <;> simp [hr, h r]

theorem pointFrom_eq_some_iff : src.pointFrom p = some q ↔
    (src.IsPoint q ∧ p ≤ q) ∧ ∀ r, src.IsPoint r → p ≤ r → q ≤ r := firstPoint_eq_some_iff false

theorem pointFrom_eq_none_iff : src.pointFrom p = none ↔ ∀ r, src.IsPoint r → ¬ p ≤ r :=
  firstPoint_eq_none_iff false

theorem pointAfter_eq_some_iff : src.pointAfter p = some q ↔
    (src.IsPoint q ∧ p < q) ∧ ∀ r, src.IsPoint r → p < r → q ≤ r := firstPoint_eq_some_iff false

theorem pointAfter_eq_none_iff : src.pointAfter p = none ↔ ∀ r, src.IsPoint r → ¬ p < r :=
  firstPoint_eq_none_iff false

theorem pointPast_eq_some_iff {k : Bytes} : src.pointPast k = some q ↔
    (src.IsPoint q ∧ k < q.key) ∧ ∀ r, src.IsPoint r → k < r.key → q ≤ r := firstPoint_eq_some_iff false

theorem pointPast_eq_none_iff {k : Bytes} : src.pointPast k = none ↔ ∀ r, src.IsPoint r → ¬ k < r.key :=
  firstPoint_eq_none_iff false

theorem pointBefore_eq_some_iff : src.pointBefore p = some q ↔
    (src.IsPoint q ∧ q < p) ∧ ∀ r, src.IsPoint r → r < p → r ≤ q := firstPoint_eq_some_iff true

theorem pointBefore_eq_none_iff : src.pointBefore p = none ↔ ∀ r, src.IsPoint r → ¬ r < p :=
  firstPoint_eq_none_iff true

theorem pointOn_self (reverse : Bool) (h : src.IsPoint p) : src.pointOn reverse p = some p :=
  (firstPoint_eq_some_iff reverse).mpr ⟨⟨h, .refl reverse p⟩, fun _ _ hr => hr⟩

/-- A move to the first stop that passes a test has reached the first point that does. -/
theorem move_spec (src : Source) (reverse : Bool) (test : MVCCKey → Prop) [DecidablePred test]
    (hmono : ∀ q r, test q → Upto reverse q r → test r) :
    (∃ q, (first reverse src.stops fun q => decide (test q)) = some q ∧ q ∈ src.stops ∧ test q ∧
      src.pointOn reverse q = src.firstPoint reverse test) ∨
    (first reverse src.stops fun q => decide (test q)) = none ∧ src.firstPoint reverse test = none := by
  cases hq : first reverse src.stops fun q => decide (test q) with
  | none =>
    refine .inr ⟨rfl, (firstPoint_eq_none_iff reverse).mpr fun r hr htest => ?_⟩
    have := first_eq_none_iff.mp hq r hr.mem_stops
    simp [htest] at this
  | some q =>
    obtain ⟨⟨hmem, htest⟩, hmin⟩ := first_eq_some_iff.mp hq
    simp only [decide_eq_true_eq] at htest hmin
    exact .inl ⟨q, rfl, hmem, htest, firstPoint_congr reverse fun r hr => ⟨hmono q r htest, hmin r hr.mem_stops⟩⟩

/-- A stop without a point is the start bound of its range key. -/
theorem bare_stop (hp : p ∈ src.stops) (hn : ¬ src.IsPoint p) :
    p.ts = 0 ∧ ∃ s, src.rangeAt p.key = some s ∧ s.key = p.key :=
  ((src.mem_stops p).mp hp).resolve_left hn

/-- Nothing before a range key's start bound is under the range key. -/
theorem rangeAt_ne_of_lt_start {s : RangeKeyStack} (hq : src.rangeAt q.key = some s)
    (hstart : s.key = q.key) (hts : q.ts = 0) (hlt : p < q) : src.rangeAt p.key ≠ some s := by
  intro hp
  have hk : p.key < q.key := by
    obtain ⟨k, t⟩ := q
    subst hts
    exact MVCCKey.key_lt_of_lt_bare hlt
  exact absurd (src.covers hp).1 (not_le.mpr (hstart ▸ hk))

end

end Source

/-! The source of an engine. -/

namespace Engine

variable (e : Engine)

/-- What the engine holds for a key, possibly nothing. -/
def keyState (k : Bytes) : KeyState := (e.keys.get k).getD ⟨none, .empty⟩

theorem keyState_of_get {e : Engine} {k : Bytes} {ks : KeyState} (h : e.keys.get k = some ks) : e.keyState k = ks := by
  rw [keyState, h, Option.getD_some]

def point (p : MVCCKey) : Option Record :=
  (e.keys.get p.key).bind fun ks =>
    if p.ts = 0 then ks.metadata.map .metadata else (ks.version p.ts).map .value

/-- A fragment within iteration bounds. -/
def clip (lo hi : Bytes) (s : RangeKeyStack) : RangeKeyStack :=
  { s with key := max s.key lo, endKey := min s.endKey hi }

/-- The positions that may hold a record of a key. -/
def positions (k : Bytes) (ks : KeyState) : List MVCCKey := ⟨k, 0⟩ :: ks.history.map fun v => ⟨k, v.1⟩

def inBounds (lo hi k : Bytes) : Bool := decide (lo ≤ k) && decide (k < hi)

def sourcePoint (lo hi : Bytes) (p : MVCCKey) : Option Record :=
  if inBounds lo hi p.key then e.point p else none

def sourceRangeAt (lo hi k : Bytes) : Option RangeKeyStack :=
  if inBounds lo hi k then (e.ranges.at? k).map (clip lo hi) else none

def sourceStops (lo hi : Bytes) : List MVCCKey :=
  (e.keys.entries.flatMap fun kv => positions kv.1 kv.2).filter (fun p => (e.sourcePoint lo hi p).isSome) ++
    ((e.ranges.fragments.map (clip lo hi)).filter fun s => inBounds lo hi s.key && decide (s.key < s.endKey)).map
      fun s => ⟨s.key, 0⟩

variable {p : MVCCKey} {lo hi : Bytes}

theorem point_mem_positions {e : Engine} (h : (e.point p).isSome) :
    p ∈ e.keys.entries.flatMap fun kv => positions kv.1 kv.2 := by
  unfold point at h
  cases hks : e.keys.get p.key with
  | none => simp [hks] at h
  | some ks =>
    refine List.mem_flatMap.mpr ⟨(p.key, ks), e.keys.ascending.find?_eq_some_iff.mp hks, ?_⟩
    simp only [hks, Option.bind_some] at h
    by_cases ht : p.ts = 0
    · refine List.mem_cons.mpr (.inl ?_)
      rw [← ht]
    rw [if_neg ht, Option.isSome_map] at h
    obtain ⟨v, hv⟩ := Option.isSome_iff_exists.mp h
    exact List.mem_cons.mpr (.inr (List.mem_map.mpr ⟨_, KeyState.version_eq_some_iff.mp hv, rfl⟩))

theorem clip_covers_iff {k : Bytes} {s : RangeKeyStack} :
    (clip lo hi s).Covers k ↔ s.Covers k ∧ inBounds lo hi k = true := by
  simp only [clip, RangeKeyStack.Covers, inBounds, max_le_iff, lt_min_iff, Bool.and_eq_true, decide_eq_true_eq]
  tauto

theorem sourceRangeAt_eq_some_iff {e : Engine} {k : Bytes} {s : RangeKeyStack} :
    e.sourceRangeAt lo hi k = some s ↔
      ∃ t ∈ e.ranges.fragments, clip lo hi t = s ∧ t.Covers k ∧ inBounds lo hi k = true := by
  unfold sourceRangeAt
  by_cases hb : inBounds lo hi k = true
  · simp only [hb, if_true, Option.map_eq_some_iff, RangeKeys.at?_eq_some_iff, and_true]
    exact ⟨fun ⟨t, ⟨hm, hc⟩, hs⟩ => ⟨t, hm, hs, hc⟩, fun ⟨t, hm, hs, hc⟩ => ⟨t, ⟨hm, hc⟩, hs⟩⟩
  · simp [hb]

theorem mem_sourceStops {e : Engine} (p : MVCCKey) : p ∈ e.sourceStops lo hi ↔
    (e.sourcePoint lo hi p).isSome ∨ p.ts = 0 ∧ ∃ s, e.sourceRangeAt lo hi p.key = some s ∧ s.key = p.key := by
  have hpoint : p ∈ (e.keys.entries.flatMap fun kv => positions kv.1 kv.2).filter
      (fun p => (e.sourcePoint lo hi p).isSome) ↔ (e.sourcePoint lo hi p).isSome := by
    rw [List.mem_filter]
    refine ⟨And.right, fun h => ⟨point_mem_positions ?_, h⟩⟩
    unfold sourcePoint at h
    split at h
    · exact h
    · simp at h
  have hrange : p ∈ ((e.ranges.fragments.map (clip lo hi)).filter fun s =>
        inBounds lo hi s.key && decide (s.key < s.endKey)).map (fun s => (⟨s.key, 0⟩ : MVCCKey)) ↔
      p.ts = 0 ∧ ∃ s, e.sourceRangeAt lo hi p.key = some s ∧ s.key = p.key := by
    simp only [List.mem_map, List.mem_filter, Bool.and_eq_true, decide_eq_true_eq, sourceRangeAt_eq_some_iff]
    constructor
    · rintro ⟨s, ⟨⟨t, ht, rfl⟩, hb, hlt⟩, rfl⟩
      have hcov : (clip lo hi t).Covers (clip lo hi t).key := ⟨le_refl _, hlt⟩
      exact ⟨rfl, _, ⟨t, ht, rfl, (clip_covers_iff.mp hcov).1, hb⟩, rfl⟩
    rintro ⟨hts, s, ⟨t, ht, rfl, hcov, hb⟩, hkey⟩
    have hc := clip_covers_iff.mpr ⟨hcov, hb⟩
    refine ⟨_, ⟨⟨t, ht, rfl⟩, ?_, ?_⟩, ?_⟩
    · rw [hkey]
      exact hb
    · exact lt_of_le_of_lt hc.1 hc.2
    · rw [hkey, ← hts]
  rw [sourceStops, List.mem_append, hpoint, hrange]

theorem point_metadata {e : Engine} {m : MVCCMetadata} (h : e.point p = some (.metadata m)) :
    p.ts = 0 := by
  obtain ⟨ks, _, h⟩ := Option.bind_eq_some_iff.mp h
  by_contra hts
  rw [if_neg hts] at h
  obtain ⟨v, _, hv⟩ := Option.map_eq_some_iff.mp h
  cases hv

theorem point_value {e : Engine} {v : MVCCValue} (h : e.point p = some (.value v)) : p.ts ≠ 0 := by
  obtain ⟨ks, _, h⟩ := Option.bind_eq_some_iff.mp h
  intro hts
  rw [if_pos hts] at h
  obtain ⟨m, _, hm⟩ := Option.map_eq_some_iff.mp h
  cases hm

theorem sourcePoint_eq_some_iff {e : Engine} {r : Record} :
    e.sourcePoint lo hi p = some r ↔ inBounds lo hi p.key = true ∧ e.point p = some r := by
  unfold sourcePoint
  split
  · simp [*]
  · simp [*]

/-- What an iterator with bounds `[lo, hi)` sees of an engine. -/
def source (lo hi : Bytes) : Source where
  stops := e.sourceStops lo hi
  point := e.sourcePoint lo hi
  rangeAt := e.sourceRangeAt lo hi
  mem_stops := mem_sourceStops
  metadata_ts h := point_metadata (sourcePoint_eq_some_iff.mp h).2
  value_ts h := point_value (sourcePoint_eq_some_iff.mp h).2
  covers h := by
    obtain ⟨t, _, rfl, hc, hb⟩ := sourceRangeAt_eq_some_iff.mp h
    exact clip_covers_iff.mpr ⟨hc, hb⟩
  rangeAt_of_covers h k' hk' := by
    obtain ⟨t, ht, rfl, _, _⟩ := sourceRangeAt_eq_some_iff.mp h
    obtain ⟨hc', hb'⟩ := clip_covers_iff.mp hk'
    exact sourceRangeAt_eq_some_iff.mpr ⟨t, ht, rfl, hc', hb'⟩

end Engine

end Ratel.Storage
