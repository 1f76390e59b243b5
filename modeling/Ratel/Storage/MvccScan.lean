import Ratel.Storage.ScannerSpec

/- What scans of an engine return. The source of an engine turns the outcome of a user
   key into one read off its own records: the newest version at or below a timestamp,
   unless a range tombstone lies between the two. `Visible` and `Conflicting` state what
   a consistent read is for, and `consistent_scan` that a scan without limits returns
   exactly the visible keys, or else reports every conflicting intent. -/
namespace Ratel.Storage

open Encoding Keys Lib List Outcome Engine

/-! One key of an engine. -/

namespace KeyState

def atOrBelow (ks : KeyState) (ts : Timestamp) : Option (Timestamp × MVCCValue) :=
  ks.history.find? fun e => decide (e.1 ≤ ts)

theorem atOrBelow_eq_some_iff {ks : KeyState} {ts : Timestamp} {e : Timestamp × MVCCValue} :
    ks.atOrBelow ts = some e ↔ (e ∈ ks.history ∧ e.1 ≤ ts) ∧ ∀ e' ∈ ks.history, e'.1 ≤ ts → e'.1 ≤ e.1 :=
  find?_descending Prod.fst ks.history_descending

theorem atOrBelow_eq_none_iff {ks : KeyState} {ts : Timestamp} :
    ks.atOrBelow ts = none ↔ ∀ e ∈ ks.history, ts < e.1 := by
  simp [atOrBelow]

end KeyState

/-- Reading a version of `k` under the fragment over it. -/
def readVersion (o : ScanOptions) (range : Option RangeKeyStack) (k : Bytes) :
    Option (Timestamp × MVCCValue) → Outcome
  | none => .skip
  | some (t, v) =>
    match coveredByRangeKey o range t with
    | some rkv => .emit (syntheticKV k rkv)
    | none => .emit ⟨⟨k, t⟩, v.rawBytes⟩

section
variable {o : ScanOptions} {e : Engine} {lo hi k : Bytes} {ks : KeyState}

theorem source_point_key (hb : inBounds lo hi k = true) (hks : e.keyState k = ks) (ts : Timestamp) :
    (e.source lo hi).point ⟨k, ts⟩ =
      if ts = 0 then ks.metadata.map .metadata else (ks.version ts).map .value := by
  subst hks
  unfold keyState
  cases h : e.keys.get k with
  | some ks => simp [source, sourcePoint, point, hb, h]
  | none => simp [source, sourcePoint, point, hb, h, KeyState.version]

theorem source_isPoint {p : MVCCKey} (h : (e.source lo hi).IsPoint p) :
    inBounds lo hi p.key = true ∧ ∃ ks, e.keys.get p.key = some ks := by
  obtain ⟨r, hr⟩ := Option.isSome_iff_exists.mp h
  obtain ⟨hb, hp⟩ := Engine.sourcePoint_eq_some_iff.mp hr
  obtain ⟨ks, hks, _⟩ := Option.bind_eq_some_iff.mp hp
  exact ⟨hb, ks, hks⟩

theorem source_rangeAt (hb : inBounds lo hi k = true) :
    (e.source lo hi).rangeAt k = (e.ranges.at? k).map (clip lo hi) := by
  simp [source, sourceRangeAt, hb]

theorem covered_clip (s : Option RangeKeyStack) (ts : Timestamp) :
    coveredByRangeKey o (s.map (clip lo hi)) ts = coveredByRangeKey o s ts := by
  cases s <;> rfl

/-- In the source of an engine a read finds the newest version at or below its timestamp. -/
theorem readAt_source (hb : inBounds lo hi k = true) (hks : e.keyState k = ks)
    (hpos : ∀ v ∈ ks.history, 0 < v.1) (ts : Timestamp) :
    readAt o (e.source lo hi) k ts = readVersion o (e.ranges.at? k) k (ks.atOrBelow ts) := by
  have hpoint : ∀ t, (e.source lo hi).IsPoint ⟨k, t⟩ → t ≠ 0 → ∃ v, (t, v) ∈ ks.history := by
    intro t ht ht0
    rw [Source.IsPoint, source_point_key hb hks, if_neg ht0, Option.isSome_map] at ht
    obtain ⟨v, hv⟩ := Option.isSome_iff_exists.mp ht
    exact ⟨v, KeyState.version_eq_some_iff.mp hv⟩
  unfold readAt
  by_cases h0 : ts = 0
  · have hnone : ks.atOrBelow ts = none := KeyState.atOrBelow_eq_none_iff.mpr fun v hv => h0 ▸ hpos v hv
    rw [if_pos h0, hnone]
    rfl
  rw [if_neg h0]
  cases hat : ks.atOrBelow ts with
  | none =>
    have hnone := KeyState.atOrBelow_eq_none_iff.mp hat
    cases hq : (e.source lo hi).pointFrom ⟨k, ts⟩ with
    | none => rfl
    | some q =>
      obtain ⟨⟨hqp, hle⟩, _⟩ := Source.pointFrom_eq_some_iff.mp hq
      have hne : q.key ≠ k := by
        rintro rfl
        rcases MVCCKey.le_iff.mp hle with hlt | ⟨_, h | ⟨hq0, hqts⟩⟩
        · exact lt_irrefl _ hlt
        · exact h0 h
        · obtain ⟨v, hv⟩ := hpoint q.ts hqp hq0
          exact absurd (hnone _ hv) (not_lt.mpr hqts)
      simp only [hne]
      rfl
  | some tv =>
    obtain ⟨t, v⟩ := tv
    obtain ⟨⟨hmem, hle⟩, hmax⟩ := KeyState.atOrBelow_eq_some_iff.mp hat
    have ht0 : t ≠ 0 := (hpos _ hmem).ne'
    have hrec : (e.source lo hi).point ⟨k, t⟩ = some (.value v) := by
      rw [source_point_key hb hks, if_neg ht0, KeyState.version_eq_some_iff.mpr hmem]
      rfl
    have hfrom : (e.source lo hi).pointFrom ⟨k, ts⟩ = some ⟨k, t⟩ := by
      refine Source.pointFrom_eq_some_iff.mpr ⟨⟨by simp [Source.IsPoint, hrec], ?_⟩, fun r hr hkr => ?_⟩
      · exact MVCCKey.le_iff.mpr (.inr ⟨rfl, .inr ⟨ht0, hle⟩⟩)
      rcases MVCCKey.le_iff.mp hkr with hlt | ⟨hk, h | ⟨hr0, hrts⟩⟩
      · exact MVCCKey.le_iff.mpr (.inl hlt)
      · exact absurd h h0
      obtain ⟨rk, rts⟩ := r
      subst hk
      obtain ⟨v', hv'⟩ := hpoint rts hr hr0
      exact MVCCKey.le_iff.mpr (.inr ⟨rfl, .inr ⟨hr0, hmax _ hv' hrts⟩⟩)
    simp only [hfrom, if_true, versionOutcome, hrec, source_rangeAt hb, covered_clip]
    cases hcov : coveredByRangeKey o (e.ranges.at? k) t <;> simp only [readVersion, hcov]

variable (o) in
def keyOutcome (range : Option RangeKeyStack) (k : Bytes) (ks : KeyState) : Outcome :=
  recordOutcome o (fun ts => readVersion o range k (ks.atOrBelow ts)) k ks.metadata

theorem outcome_source (hb : inBounds lo hi k = true) (hks : e.keyState k = ks) (hpos : ∀ v ∈ ks.history, 0 < v.1) :
    outcome o (e.source lo hi) k = keyOutcome o (e.ranges.at? k) k ks := by
  have hread : readAt o (e.source lo hi) k = fun ts => readVersion o (e.ranges.at? k) k (ks.atOrBelow ts) :=
    funext (readAt_source hb hks hpos)
  unfold outcome keyOutcome
  rw [hread, source_point_key hb hks]
  cases ks.metadata <;> rfl

end

/-! The keys of a scan. -/

def Engine.userKeys (e : Engine) (o : ScanOptions) : List Bytes :=
  let ks := (e.keys.scan o.start o.stop).map Prod.fst
  if o.reverse then ks.reverse else ks

variable {o : ScanOptions} {e : Engine} {k : Bytes}

theorem mem_userKeys :
    k ∈ e.userKeys o ↔ (o.start ≤ k ∧ k < o.stop) ∧ ∃ ks, e.keys.get k = some ks := by
  have hscan : k ∈ (e.keys.scan o.start o.stop).map Prod.fst ↔
      (o.start ≤ k ∧ k < o.stop) ∧ ∃ ks, e.keys.get k = some ks := by
    rw [mem_map]
    constructor
    · rintro ⟨⟨k', ks⟩, h, rfl⟩
      have h := (e.keys.mem_scan _ _ _).mp h
      exact ⟨h.1, ks, h.2⟩
    · rintro ⟨hb, ks, hks⟩
      exact ⟨(k, ks), (e.keys.mem_scan _ _ _).mpr ⟨hb, hks⟩, rfl⟩
  unfold userKeys
  split
  · rw [mem_reverse, hscan]
  · exact hscan

theorem userKeys_ordered :
    (e.userKeys o).Pairwise fun a b => if o.reverse then b < a else a < b := by
  have hscan : ((e.keys.scan o.start o.stop).map Prod.fst).Pairwise (· < ·) :=
    pairwise_map.mpr (e.keys.scan_ascending o.start o.stop)
  unfold userKeys
  cases o.reverse with
  | false => simpa using hscan
  | true => simpa [pairwise_reverse] using hscan

theorem inBounds_iff {lo hi : Bytes} : inBounds lo hi k = true ↔ lo ≤ k ∧ k < hi := by
  simp [inBounds]

theorem scanKeys_source (he : e.Consistent) :
    ScanKeys o (e.source o.start o.stop) (e.userKeys o) := by
  refine ⟨userKeys_ordered, fun k => ?_⟩
  rw [mem_userKeys]
  constructor
  · rintro ⟨hb, ks, hks⟩
    have hc := he.key k ks hks
    have hpoint := source_point_key (inBounds_iff.mpr hb) (keyState_of_get hks)
    cases hm : ks.metadata with
    | some m => exact ⟨⟨k, 0⟩, by simp [Source.IsPoint, hpoint, hm], rfl⟩
    | none =>
      obtain ⟨⟨t, v⟩, older, hist⟩ := exists_cons_of_ne_nil (hc.inhabited hm)
      have hmem : (t, v) ∈ ks.history := by simp [hist]
      have ht : t ≠ 0 := (hc.positive _ hmem).ne'
      exact ⟨⟨k, t⟩, by simp [Source.IsPoint, hpoint, ht, KeyState.version_eq_some_iff.mpr hmem], rfl⟩
  · rintro ⟨p, hp, rfl⟩
    obtain ⟨hb, hks⟩ := source_isPoint hp
    exact ⟨inBounds_iff.mp hb, hks⟩

/-- `mvccScanToBytes` over an iterator with the bounds of the span. -/
def mvccScan (o : ScanOptions) (e : Engine) (parent : Cursor MVCCKey) (changed : Bool) (iters : Nat) :
    Except ScanErr ScanResult := scan o (e.source o.start o.stop) (.init parent changed iters)

theorem mvccScan_eq (he : e.Consistent) (parent : Cursor MVCCKey) (changed : Bool)
    {iters : Nat} (hiters : iters ≤ o.maxItersBeforeSeek) : mvccScan o e parent changed iters =
      finish o (runKeys o (outcome o (e.source o.start o.stop)) (e.userKeys o) .empty) :=
  scan_eq (scanKeys_source he) (fun _ hr => inBounds_iff.mp (source_isPoint hr).1) parent changed hiters

/-- The outcome of a key of an engine, for any span that holds it. -/
def Engine.outcome (e : Engine) (o : ScanOptions) (k : Bytes) : Outcome :=
  keyOutcome o (e.ranges.at? k) k (e.keyState k)

theorem runKeys_congr {read read' : Bytes → Outcome} : ∀ {ks : List Bytes} {out : Out},
    (∀ k ∈ ks, read k = read' k) → runKeys o read ks out = runKeys o read' ks out
  | [], _, _ => rfl
  | k :: ks, out, h => by
    rw [runKeys, runKeys, h k mem_cons_self]
    cases applyOutcome o k out (read' k) with
    | mk out' ok =>
      cases ok with
      | false => rfl
      | true => exact runKeys_congr (forall_mem_cons.mp h).2

theorem outcome_of_mem (he : e.Consistent) (hk : k ∈ e.userKeys o) :
    Storage.outcome o (e.source o.start o.stop) k = e.outcome o k := by
  obtain ⟨hb, ks, hks⟩ := mem_userKeys.mp hk
  rw [outcome_source (inBounds_iff.mpr hb) (keyState_of_get hks) (he.key k ks hks).positive, Engine.outcome,
    keyState_of_get hks]

/-- A scan of an engine applies the outcomes of the keys of its span in order. -/
theorem mvccScan_eq_run (he : e.Consistent) (parent : Cursor MVCCKey) (changed : Bool)
    {iters : Nat} (hiters : iters ≤ o.maxItersBeforeSeek) :
    mvccScan o e parent changed iters = finish o (runKeys o (e.outcome o) (e.userKeys o) .empty) := by
  rw [mvccScan_eq he parent changed hiters, runKeys_congr fun k hk => outcome_of_mem he hk]

theorem Engine.outcome_key {kv : KV} (h : e.outcome o k = .emit kv) :
    kv.key.key = k := by
  refine recordOutcome_key (fun {ts kv} hread => ?_) h
  unfold readVersion at hread
  split at hread
  · cases hread
  · split at hread <;> cases hread <;> rfl

/-! Scans without limits. -/

structure ScanOptions.Unlimited (o : ScanOptions) : Prop where
  keys : o.maxKeys = 0
  bytes : o.targetBytes = 0
  intents : o.maxIntents = 0

def Outcome.pairs (o : ScanOptions) : Outcome → List KV
  | .emit kv => if kv.value = [] ∧ ¬ o.tombstones then [] else [kv]
  | _ => []

/-- The intents an outcome reports. -/
def Outcome.conflicts (k : Bytes) : Outcome → List (Bytes × MVCCMetadata)
  | .conflict m => [(k, m)]
  | _ => []

def Outcome.failed : Outcome → Bool
  | .fail _ => true
  | _ => false

theorem applyOutcome_unlimited (ho : o.Unlimited) {out : Out} {oc : Outcome}
    (hnone : out.resumeReason = none) (hok : oc.failed = false) : applyOutcome o k out oc =
      ({ out with kvs := out.kvs ++ oc.pairs o, intents := out.intents ++ oc.conflicts k }, true) := by
  cases oc with
  | skip => simp [applyOutcome, pairs, conflicts]
  | fail err => cases hok
  | conflict m => simp [applyOutcome, addIntent, ho.intents, pairs, conflicts]
  | emit kv =>
    by_cases hv : kv.value = [] ∧ ¬ o.tombstones
    · simp [applyOutcome, add, hv, pairs, conflicts]
    · simp only [applyOutcome, add, pairs, if_neg hv]
      simp [exceed, putResult, ho.keys, ho.bytes, hnone, conflicts]

theorem runKeys_unlimited {read : Bytes → Outcome} (ho : o.Unlimited) :
    ∀ (ks : List Bytes) (out : Out), out.resumeReason = none → (∀ k ∈ ks, (read k).failed = false) →
    runKeys o read ks out = ({ out with
      kvs := out.kvs ++ ks.flatMap fun k => (read k).pairs o,
      intents := out.intents ++ ks.flatMap fun k => (read k).conflicts k }, none)
  | [], out, _, _ => by simp [runKeys]
  | k :: ks, out, hnone, hok => by
    rw [runKeys, applyOutcome_unlimited ho hnone (hok k mem_cons_self)]
    simp only
    rw [runKeys_unlimited ho ks _ (by exact hnone) (forall_mem_cons.mp hok).2]
    simp [append_assoc]

/-! Consistent reads. -/

/-- The engine holds no inline values. -/
def Engine.Versioned (e : Engine) : Prop :=
  ∀ k ks m, e.keys.get k = some ks → ks.metadata = some m → m.rawBytes = []

/-- The reader has no intent in the span. -/
def NoOwnIntent (o : ScanOptions) (e : Engine) : Prop :=
  ∀ k ks m t txn, o.start ≤ k → k < o.stop → e.keys.get k = some ks → ks.metadata = some m → m.txn = some t →
    o.txn = some txn → t.id ≠ txn.id

/-- An intent of the span at or below the read timestamp. -/
def Conflicting (o : ScanOptions) (e : Engine) (k : Bytes) (m : MVCCMetadata) : Prop :=
  (o.start ≤ k ∧ k < o.stop) ∧ ∃ ks, e.keys.get k = some ks ∧ ks.metadata = some m ∧ m.timestamp ≤ o.ts

/-- A pair is visible at a timestamp: it is the newest version of its key at or below it,
    not a tombstone, and no range tombstone lies between the two. -/
def Visible (e : Engine) (ts : Timestamp) (kv : KV) : Prop :=
  ∃ ks v, e.keys.get kv.key.key = some ks ∧ (kv.key.ts, v) ∈ ks.history ∧ kv.key.ts ≤ ts ∧
    (∀ w ∈ ks.history, w.1 ≤ ts → w.1 ≤ kv.key.ts) ∧ v.rawBytes = kv.value ∧ kv.value ≠ [] ∧
    ∀ s ∈ e.ranges.fragments, s.Covers kv.key.key → ∀ r ∈ s.versions, ¬ (kv.key.ts ≤ r.timestamp ∧ r.timestamp ≤ ts)

theorem RangeKeyStack.le_newest {s : RangeKeyStack} (hs : s.Valid) {r : RangeKeyVersion} (hr : r ∈ s.versions) :
    r.timestamp ≤ s.newest := by
  obtain ⟨v, older, hv⟩ := exists_cons_of_ne_nil hs.nonempty
  have hdesc := hs.descending
  rw [hv] at hr hdesc
  simp only [RangeKeyStack.newest, hv, head?_cons, Option.map_some]
  rcases mem_cons.mp hr with rfl | hr
  · exact le_refl _
  · exact ((pairwise_cons.mp hdesc).1 r hr).le

theorem covered_eq_none_iff {s : RangeKeyStack} (hs : s.Valid) {t : Timestamp} :
    coveredByRangeKey o (some s) t = none ↔ ∀ r ∈ s.versions, ¬ (t ≤ r.timestamp ∧ r.timestamp ≤ o.ts) := by
  constructor
  · intro h r hr ⟨htr, hro⟩
    have hnewest : r.timestamp ≤ s.newest := RangeKeyStack.le_newest hs hr
    simp only [coveredByRangeKey, if_pos (Or.inr (htr.trans hnewest))] at h
    cases hv : s.firstAtOrBelow o.ts with
    | none =>
      have := find?_eq_none.mp hv r hr
      simp [hro] at this
    | some v =>
      obtain ⟨_, hmax⟩ := (find?_descending RangeKeyVersion.timestamp hs.descending).mp hv
      simp [hv, htr.trans (hmax r hr hro)] at h
  · intro h
    cases hc : coveredByRangeKey o (some s) t with
    | none => rfl
    | some v =>
      obtain ⟨⟨s', hs', hv⟩, hle⟩ := covered_spec hc
      cases hs'
      exact absurd hle (h v hv)

section
variable {o : ScanOptions} {range : Option RangeKeyStack} {k : Bytes} {ks : KeyState}

/-- Reading a key whose intent, if any, is another transaction's. -/
theorem keyOutcome_of_other (hc : ks.Consistent range) (hinline : ∀ m, ks.metadata = some m → m.rawBytes = [])
    (hother : ∀ m t txn, ks.metadata = some m → m.txn = some t → o.txn = some txn → t.id ≠ txn.id) :
    keyOutcome o range k ks =
      match ks.metadata with
      | some m => if m.timestamp ≤ o.ts then .conflict m else readVersion o range k (ks.atOrBelow o.ts)
      | none => readVersion o range k (ks.atOrBelow o.ts) := by
  unfold keyOutcome
  cases hm : ks.metadata with
  | none => rfl
  | some m =>
    obtain ⟨t, _, _, ht, _⟩ := hc.intent m hm (hinline m hm)
    simp only [recordOutcome, metadataOutcome, hinline m hm, ht, ne_eq, not_true_eq_false, if_false]
    cases htxn : o.txn with
    | none => rfl
    | some txn => simp only [if_neg (hother m t txn hm ht htxn)]

/-- The pair a read adds: the newest version at or below the read timestamp, if it is a
    value that no range tombstone covers. -/
theorem mem_pairs_readVersion (htomb : o.tombstones = false) (hvalid : ∀ s, range = some s → s.Valid) {kv : KV} :
    kv ∈ (readVersion o range k (ks.atOrBelow o.ts)).pairs o ↔
      kv.key.key = k ∧ ∃ v, ((kv.key.ts, v) ∈ ks.history ∧ kv.key.ts ≤ o.ts) ∧
        (∀ w ∈ ks.history, w.1 ≤ o.ts → w.1 ≤ kv.key.ts) ∧ v.rawBytes = kv.value ∧ kv.value ≠ [] ∧
        ∀ s, range = some s → ∀ r ∈ s.versions, ¬ (kv.key.ts ≤ r.timestamp ∧ r.timestamp ≤ o.ts) := by
  constructor
  · intro h
    cases hat : ks.atOrBelow o.ts with
    | none => simp [hat, readVersion, pairs] at h
    | some tv =>
      obtain ⟨t, v⟩ := tv
      obtain ⟨hmem, hmax⟩ := KeyState.atOrBelow_eq_some_iff.mp hat
      simp only [hat, readVersion] at h
      cases hcov : coveredByRangeKey o range t with
      | some rkv =>
        obtain ⟨⟨s, hs, hv⟩, _⟩ := covered_spec hcov
        simp [hcov, pairs, syntheticKV, (hvalid s hs).tombstones rkv hv, htomb] at h
      | none =>
        simp only [hcov, pairs, htomb, Bool.false_eq_true, not_false_eq_true, and_true] at h
        split at h
        · cases h
        rename_i hne
        cases mem_singleton.mp h
        refine ⟨rfl, v, hmem, hmax, rfl, hne, fun s hs => ?_⟩
        subst hs
        exact (covered_eq_none_iff (hvalid s rfl)).mp hcov
  · rintro ⟨rfl, v, hmem, hmax, hv, hne, hcov⟩
    have hat : ks.atOrBelow o.ts = some (kv.key.ts, v) := KeyState.atOrBelow_eq_some_iff.mpr ⟨hmem, hmax⟩
    have hnone : coveredByRangeKey o range kv.key.ts = none := by
      cases range with
      | none => rfl
      | some s => exact (covered_eq_none_iff (hvalid s rfl)).mpr (hcov s rfl)
    simp [hat, readVersion, hnone, pairs, hv, hne]

end

theorem readVersion_ok (o : ScanOptions) (range : Option RangeKeyStack) (k : Bytes)
    (tv : Option (Timestamp × MVCCValue)) :
    (readVersion o range k tv).failed = false ∧ (readVersion o range k tv).conflicts k = [] := by
  cases tv with
  | none => exact ⟨rfl, rfl⟩
  | some tv =>
    obtain ⟨t, v⟩ := tv
    simp only [readVersion]
    cases coveredByRangeKey o range t <;> exact ⟨rfl, rfl⟩

/-- The fragment over a key, as the range tombstones that cover it. -/
theorem forall_fragment {P : RangeKeyStack → Prop} :
    (∀ s, e.ranges.at? k = some s → P s) ↔ ∀ s ∈ e.ranges.fragments, s.Covers k → P s := by
  simp only [RangeKeys.at?_eq_some_iff]
  exact ⟨fun h s hs hc => h s ⟨hs, hc⟩, fun h s hs => h s hs.1 hs.2⟩

section
variable {o : ScanOptions} {e : Engine} (he : e.Consistent) (hversioned : e.Versioned) (hreader : NoOwnIntent o e)
include he hversioned hreader

variable {k : Bytes}

/-- Every key of the scan is read as one without an intent of the reader. -/
theorem outcome_of_reader {ks : KeyState} (hb : o.start ≤ k ∧ k < o.stop)
    (hks : e.keys.get k = some ks) : outcome o (e.source o.start o.stop) k =
      match ks.metadata with
      | some m => if m.timestamp ≤ o.ts then .conflict m else
          readVersion o (e.ranges.at? k) k (ks.atOrBelow o.ts)
      | none => readVersion o (e.ranges.at? k) k (ks.atOrBelow o.ts) := by
  have hc := he.key k ks hks
  rw [outcome_source (inBounds_iff.mpr hb) (keyState_of_get hks) hc.positive]
  exact keyOutcome_of_other hc (fun m hm => hversioned k ks m hks hm)
    fun m t txn hm => hreader k ks m t txn hb.1 hb.2 hks hm

theorem outcome_ok (hk : k ∈ e.userKeys o) : (outcome o (e.source o.start o.stop) k).failed = false := by
  obtain ⟨hb, ks, hks⟩ := mem_userKeys.mp hk
  rw [outcome_of_reader he hversioned hreader hb hks]
  split
  · split
    · rfl
    · exact (readVersion_ok _ _ _ _).1
  · exact (readVersion_ok _ _ _ _).1

theorem mem_conflicts {m : MVCCMetadata} : (k, m) ∈ (e.userKeys o).flatMap (fun k =>
    (outcome o (e.source o.start o.stop) k).conflicts k) ↔ Conflicting o e k m := by
  rw [mem_flatMap]
  constructor
  · rintro ⟨k', hk', hmem⟩
    obtain ⟨hb, ks, hks⟩ := mem_userKeys.mp hk'
    rw [outcome_of_reader he hversioned hreader hb hks] at hmem
    have hread := (readVersion_ok o (e.ranges.at? k') k' (ks.atOrBelow o.ts)).2
    split at hmem
    · rename_i m' hm'
      split at hmem
      · rename_i hle
        obtain ⟨rfl, rfl⟩ := Prod.mk.inj (mem_singleton.mp hmem)
        exact ⟨hb, ks, hks, hm', hle⟩
      · simp [hread] at hmem
    · simp [hread] at hmem
  · rintro ⟨hb, ks, hks, hm, hle⟩
    refine ⟨k, mem_userKeys.mpr ⟨hb, ks, hks⟩, ?_⟩
    rw [outcome_of_reader he hversioned hreader hb hks, hm]
    simp [hle, conflicts]

theorem mem_pairs (htomb : o.tombstones = false) (hnone : ¬ ∃ k m, Conflicting o e k m) {kv : KV} :
    kv ∈ (e.userKeys o).flatMap (fun k => (outcome o (e.source o.start o.stop) k).pairs o) ↔
      (o.start ≤ kv.key.key ∧ kv.key.key < o.stop) ∧ Visible e o.ts kv := by
  -- Without a conflict, every key is read at the read timestamp.
  have hread : ∀ k ks, o.start ≤ k ∧ k < o.stop → e.keys.get k = some ks →
      outcome o (e.source o.start o.stop) k = readVersion o (e.ranges.at? k) k (ks.atOrBelow o.ts) := by
    intro k ks hb hks
    rw [outcome_of_reader he hversioned hreader hb hks]
    split
    · rename_i m hm
      exact if_neg fun hle => hnone ⟨k, m, hb, ks, hks, hm, hle⟩
    · rfl
  have hvalid : ∀ k s, e.ranges.at? k = some s → s.Valid := fun k s hs =>
    e.ranges.valid s (e.ranges.at?_eq_some_iff.mp hs).1
  rw [mem_flatMap]
  constructor
  · rintro ⟨k, hk, hmem⟩
    obtain ⟨hb, ks, hks⟩ := mem_userKeys.mp hk
    rw [hread k ks hb hks, mem_pairs_readVersion htomb (hvalid k)] at hmem
    obtain ⟨rfl, v, hv, hmax, hraw, hne, hcov⟩ := hmem
    exact ⟨hb, ks, v, hks, hv.1, hv.2, hmax, hraw, hne, forall_fragment.mp hcov⟩
  · rintro ⟨hb, ks, v, hks, hv, hle, hmax, hraw, hne, hcov⟩
    refine ⟨kv.key.key, mem_userKeys.mpr ⟨hb, ks, hks⟩, ?_⟩
    rw [hread _ ks hb hks, mem_pairs_readVersion htomb (hvalid _)]
    exact ⟨rfl, v, ⟨hv, hle⟩, hmax, hraw, hne, forall_fragment.mpr hcov⟩

end

/-- What each key adds at most once, a scan lists in its own order. -/
theorem flatMap_ordered {α : Type} (key : α → Bytes) (f : Bytes → List α)
    (hf : ∀ k ∈ e.userKeys o, (f k).length ≤ 1 ∧ ∀ a ∈ f k, key a = k) :
    ((e.userKeys o).flatMap f).Pairwise fun a b => if o.reverse then key b < key a else key a < key b := by
  rw [pairwise_flatMap]
  refine ⟨fun k hk => ?_, ?_⟩
  · have hlen := (hf k hk).1
    match f k, hlen with
    | [], _ => exact .nil
    | [_], _ => exact pairwise_singleton _ _
  · refine userKeys_ordered.imp_of_mem fun {k k'} hk hk' hlt a ha b hb => ?_
    rw [(hf k hk).2 a ha, (hf k' hk').2 b hb]
    exact hlt

theorem conflicts_key (k : Bytes) (oc : Outcome) :
    (oc.conflicts k).length ≤ 1 ∧ ∀ a ∈ oc.conflicts k, a.1 = k := by
  cases oc <;> simp [conflicts]

theorem pairs_key {oc : Outcome} (h : ∀ kv, oc = .emit kv → kv.key.key = k) :
    (oc.pairs o).length ≤ 1 ∧ ∀ kv ∈ oc.pairs o, kv.key.key = k := by
  cases oc with
  | emit kv =>
    simp only [pairs]
    split
    · simp
    · simpa using h kv rfl
  | _ => simp [pairs]

/-- A consistent scan without limits, by a reader that has no intent in the span, reports
    every intent at or below its timestamp if there is one. Otherwise it returns exactly the
    visible pairs of the span, in the order of the scan. Neither depends on where the
    iterator was or how many iterations are made before a seek. -/
theorem consistent_scan (o : ScanOptions) (e : Engine) (he : e.Consistent) (hversioned : e.Versioned)
    (hreader : NoOwnIntent o e) (ho : o.Unlimited) (htomb : o.tombstones = false) (parent : Cursor MVCCKey)
    (changed : Bool) (iters : Nat) (hiters : iters ≤ o.maxItersBeforeSeek) :
    ((∃ k m, Conflicting o e k m) → ∃ intents, mvccScan o e parent changed iters = .error (.writeIntent intents) ∧
      (intents.Pairwise fun a b => if o.reverse then b.1 < a.1 else a.1 < b.1) ∧
      ∀ k m, (k, m) ∈ intents ↔ Conflicting o e k m) ∧
    ((¬ ∃ k m, Conflicting o e k m) → ∃ kvs, mvccScan o e parent changed iters = .ok ⟨kvs, none, none, 0⟩ ∧
      (kvs.Pairwise fun a b => if o.reverse then b.key.key < a.key.key else a.key.key < b.key.key) ∧
      ∀ kv, kv ∈ kvs ↔ (o.start ≤ kv.key.key ∧ kv.key.key < o.stop) ∧ Visible e o.ts kv) := by
  rw [mvccScan_eq he parent changed hiters,
    runKeys_unlimited ho _ _ rfl fun k hk => outcome_ok he hversioned hreader hk]
  refine ⟨fun ⟨k, m, hkm⟩ => ?_, fun hnone => ?_⟩
  · refine ⟨_, ?_, ?_, fun k m => mem_conflicts he hversioned hreader⟩
    · have hmem := (mem_conflicts he hversioned hreader).mpr hkm
      simp only [finish, Out.empty, nil_append]
      exact if_neg fun hnil => absurd hmem (by simp [hnil])
    · exact flatMap_ordered Prod.fst _ fun k _ => conflicts_key k _
  refine ⟨_, ?_, ?_, fun kv => mem_pairs he hversioned hreader htomb hnone⟩
  · have hnil : (e.userKeys o).flatMap (fun k => (outcome o (e.source o.start o.stop) k).conflicts k) = [] :=
      eq_nil_iff_forall_not_mem.mpr fun a ha =>
        hnone ⟨a.1, a.2, (mem_conflicts he hversioned hreader).mp ha⟩
    simp [finish, Out.empty, hnil, scanResult, noResume]
  · exact flatMap_ordered (fun kv : KV => kv.key.key) _ fun k _ => pairs_key fun kv => outcome_key

/-- A key with two versions, one whose only version is under a range tombstone, and one
    with an intent above its committed version. -/
def threeKeys : Engine where
  keys := ⟨[([0x61], ⟨none, ⟨[(2, ⟨0, [2]⟩), (1, ⟨0, [1]⟩)], by decide⟩⟩),
    ([0x62], ⟨none, ⟨[(1, ⟨0, [1]⟩)], by decide⟩⟩),
    ([0x63], ⟨some ⟨some ⟨7, 0, 1, 5, []⟩, 5, false, 12, 1, [], [], true⟩,
      ⟨[(5, ⟨0, [5]⟩), (2, ⟨0, [3]⟩)], by decide⟩⟩)], by decide +kernel⟩
  ranges := ⟨[⟨[0x62], [0x63], [⟨2, ⟨0, []⟩⟩]⟩],
    forall_mem_singleton.mpr ⟨by decide +kernel, by simp, by simp, by simp⟩, by simp⟩

@[elab_as_elim]
theorem threeKeys_get {ks : KeyState} {P : Bytes → KeyState → Prop} (h : threeKeys.keys.get k = some ks)
    (hall : threeKeys.keys.entries.Forall fun e => P e.1 e.2) : P k ks :=
  forall_iff_forall_mem.mp hall _ (threeKeys.keys.ascending.find?_eq_some_iff.mp h)

theorem threeKeys_consistent : threeKeys.Consistent := by
  refine ⟨fun k ks h => ?_, fun k ks h => ?_⟩
  · refine threeKeys_get h ⟨?_, ?_, ?_⟩ <;> simp
  have hnewest : ∀ s, threeKeys.ranges.at? k = some s → s.newest < 5 := by
    intro s hs
    have hs := (RangeKeys.at?_eq_some_iff _).mp hs
    cases mem_singleton.mp hs.1
    decide
  revert hnewest
  refine threeKeys_get h ⟨fun _ => ?_, fun _ => ?_, fun hnewest => ?_⟩
  · exact ⟨⟨by decide, by simp, by simp⟩, by decide⟩
  · exact ⟨⟨by decide, by simp, by simp⟩, by decide⟩
  refine ⟨⟨by decide, fun m hm _ => ?_, fun m hm hraw => ?_⟩, by simp⟩
  · cases hm
    exact ⟨_, _, _, rfl, rfl, hnewest⟩
  · cases hm
    exact absurd rfl hraw

def reverseScan : ScanOptions where
  reverse := true
  start := [0x61]
  stop := [0x7a]
  ts := 3
  maxKeys := 0
  targetBytes := 0
  allowEmpty := false
  wholeRowsOfSize := 0
  maxIntents := 0
  tombstones := false
  txn := none
  maxItersBeforeSeek := 10

theorem consistent_scan_threeKeys : (¬ ∃ k m, Conflicting reverseScan threeKeys k m) ∧
    ∃ kvs, mvccScan reverseScan threeKeys .before false 5 = .ok ⟨kvs, none, none, 0⟩ ∧ (kvs.Pairwise fun a b =>
        if reverseScan.reverse then b.key.key < a.key.key else a.key.key < b.key.key) ∧
      ∀ kv, kv ∈ kvs ↔ (reverseScan.start ≤ kv.key.key ∧ kv.key.key < reverseScan.stop) ∧
        Visible threeKeys reverseScan.ts kv := by
  have hnone : ¬ ∃ k m, Conflicting reverseScan threeKeys k m := by
    rintro ⟨k, m, _, ks, hks, hm, hle⟩
    revert hm hle
    refine threeKeys_get hks ⟨?_, ?_, ?_⟩ <;> intro hm hle <;> cases hm
    exact absurd hle (by decide)
  refine ⟨hnone, (consistent_scan reverseScan threeKeys threeKeys_consistent ?_ ?_ ⟨rfl, rfl, rfl⟩ rfl
    .before false 5 (by decide)).2 hnone⟩
  · intro k ks m hks
    refine threeKeys_get hks ⟨?_, ?_, ?_⟩ <;> intro hm <;> cases hm
    rfl
  · intro k ks m t txn _ _ _ _ _ htxn
    cases htxn

example : mvccScan reverseScan threeKeys .before false 5 =
    .ok ⟨[⟨⟨[0x63], 2⟩, [3]⟩, ⟨⟨[0x61], 2⟩, [2]⟩], none, none, 0⟩ := by decide +kernel

end Ratel.Storage
