import Ratel.Storage.ScannerSteps

/- What a scan computes, without an iterator: each user key has an outcome (nothing, a
   pair, a conflicting intent, an error) that depends on its records and the fragment
   over it alone, and a scan applies the outcomes of its keys in order until a limit or
   an error stops it. `scan_eq` says the scanner does exactly that, whatever the
   iterations before a seek and wherever the iterator was. -/
namespace Ratel.Storage

open Encoding Keys Lib List Source MVCCKey

variable {o : ScanOptions} {src : Source}

/-! Outcomes. -/

/-- What reading one user key amounts to. -/
inductive Outcome
  | skip
  | emit (kv : KV)
  | conflict (m : MVCCMetadata)
  | fail (err : Err)
deriving DecidableEq, Repr

variable (o src) in
/-- Reading the version at `p`. -/
def versionOutcome (p : MVCCKey) : Outcome :=
  match src.point p with
  | some (.value v) =>
    match coveredByRangeKey o (src.rangeAt p.key) p.ts with
    | some rkv => .emit (syntheticKV p.key rkv)
    | none => .emit ⟨p, v.rawBytes⟩
  | _ => .fail undecodable

variable (o src) in
/-- Reading the newest version of `k` at or below a timestamp. -/
def readAt (k : Bytes) (seekTS : Timestamp) : Outcome :=
  if seekTS = 0 then .skip
  else match src.pointFrom ⟨k, seekTS⟩ with
    | some q => if q.key = k then versionOutcome o src q else .skip
    | none => .skip

section
variable (o) (read : Timestamp → Outcome) (k : Bytes)

/-- Reading one's own intent, given how the versions of the key are read. -/
def ownIntentOutcome (m : MVCCMetadata) (t : TxnMeta) (txn : Transaction) (prevTS : Timestamp) : Outcome :=
  if txn.epoch = t.epoch then
    if t.sequence ≤ txn.sequence ∧ ¬ txnSeqIsIgnored t.sequence txn.ignoredSeqNums then read m.timestamp
    else match getFromIntentHistory m txn with
      | some v => .emit ⟨⟨k, m.timestamp⟩, v.rawBytes⟩
      | none => read prevTS
  else if txn.epoch < t.epoch then
    .fail ⟨"failed to read with epoch %d due to a write intent with epoch %d", [.int txn.epoch, .int t.epoch]⟩
  else read prevTS

def metadataOutcome (m : MVCCMetadata) : Outcome :=
  if m.rawBytes ≠ [] then .emit ⟨⟨k, 0⟩, m.rawBytes⟩
  else match m.txn with
    | none => .fail ⟨"intent without transaction", []⟩
    | some t =>
      let prevTS := if m.timestamp ≤ o.ts then m.timestamp - 1 else o.ts
      match o.txn with
      | some txn =>
        if t.id = txn.id then ownIntentOutcome read k m t txn prevTS
        else if m.timestamp ≤ o.ts then .conflict m else read o.ts
      | none => if m.timestamp ≤ o.ts then .conflict m else read o.ts

def recordOutcome : Option MVCCMetadata → Outcome
  | some m => metadataOutcome o read k m
  | none => read o.ts

/-- The same for a get, which may ignore an intent that is in the way. -/
def getOutcome (inconsistent : Bool) : Option MVCCMetadata → Outcome
  | some m =>
    if inconsistent ∧ m.rawBytes = [] ∧ m.txn.isSome ∧ m.timestamp ≤ o.ts then read (m.timestamp - 1)
    else metadataOutcome o read k m
  | none => read o.ts

end

def Record.metadata? : Record → Option MVCCMetadata
  | .metadata m => some m
  | .value _ => none

variable (o src) in
/-- Reading the user key `k`. -/
def outcome (k : Bytes) : Outcome :=
  recordOutcome o (readAt o src k) k ((src.point ⟨k, 0⟩).bind Record.metadata?)

variable (o) in
def applyOutcome (k : Bytes) (out : Out) : Outcome → Out × Bool
  | .skip => (out, true)
  | .emit kv => add o kv out
  | .conflict m => addIntent o k m out
  | .fail err => ({ out with err := some err }, false)

/-! An outcome adds a pair of its own key only. -/

variable {k : Bytes} {kv : KV} {st : State} {oc : Outcome} {out : Out} {ks : List Bytes}

theorem readAt_key {ts : Timestamp} (h : readAt o src k ts = .emit kv) : kv.key.key = k := by
  unfold readAt at h
  split at h
  · cases h
  split at h
  · split at h
    · rename_i hq
      unfold versionOutcome at h
      split at h
      · split at h <;> cases h <;> exact hq
      · cases h
    · cases h
  · cases h

theorem recordOutcome_key {read : Timestamp → Outcome}
    (hread : ∀ {ts kv}, read ts = .emit kv → kv.key.key = k) {m : Option MVCCMetadata}
    (h : recordOutcome o read k m = .emit kv) : kv.key.key = k := by
  have hother : ∀ m : MVCCMetadata, (if m.timestamp ≤ o.ts then .conflict m else read o.ts) = .emit kv →
      kv.key.key = k := by
    intro m h
    split at h
    · cases h
    · exact hread h
  cases m with
  | none => exact hread h
  | some m =>
    simp only [recordOutcome, metadataOutcome] at h
    split at h
    · cases h
      rfl
    split at h
    · cases h
    split at h
    · split at h
      · simp only [ownIntentOutcome] at h
        split at h
        · split at h
          · exact hread h
          split at h
          · cases h
            rfl
          · exact hread h
        · split at h
          · cases h
          · exact hread h
      · exact hother m h
    · exact hother m h

theorem outcome_key (h : outcome o src k = .emit kv) : kv.key.key = k :=
  recordOutcome_key readAt_key h

/-! Reading one key. -/

/-- `r` has applied an outcome of `k`, and the scanner can be advanced from where it is. -/
def Read (o : ScanOptions) (src : Source) (k : Bytes) (st : State) (oc : Outcome) (r : State × Bool) : Prop :=
  ∃ st', r = (st', (applyOutcome o k st.out oc).2) ∧ st'.out = (applyOutcome o k st.out oc).1 ∧
    Left o src k st' ∧ ((applyOutcome o k st.out oc).2 = false → OnKey o src k st')

theorem Read.of_out_eq {st' : State} {r : State × Bool} (h : Read o src k st' oc r)
    (hout : st'.out = st.out) : Read o src k st oc r := by
  unfold Read at h ⊢
  rwa [hout] at h

/-- Applying an outcome in place leaves the scanner on the key. -/
theorem read_in_place {st' : State} (h : OnKey o src k st) (hparent : st'.parent = st.parent)
    (hchanged : st'.rangeKeyChanged = st.rangeKeyChanged) (hpeeked : st'.peeked = st.peeked)
    (hranges : st'.curRangeKeys = st.curRangeKeys) (hiters : st'.itersBeforeSeek = st.itersBeforeSeek)
    (hcur : st'.cur.key = st.cur.key) (hfn : st'.fn = st.fn) (hout : st'.out = (applyOutcome o k st.out oc).1) :
    Read o src k st oc (st', (applyOutcome o k st.out oc).2) := by
  have hon : OnKey o src k st' := by
    obtain ⟨⟨p, hat, hpk⟩, hc, hf⟩ := h
    refine ⟨⟨p, ⟨hat.point, hranges.trans hat.ranges, hiters.trans_le hat.iters, ?_⟩, hpk⟩, hcur.trans hc, hfn.trans hf⟩
    rw [hpeeked, hparent, hchanged, hiters]
    exact hat.cursor
  exact ⟨st', rfl, hout, .on hon, fun _ => hon⟩

theorem read_emit (h : OnKey o src k st) :
    Read o src k st oc (st.emit (applyOutcome o k st.out oc)) :=
  read_in_place h rfl rfl rfl rfl rfl rfl rfl rfl

theorem readCurrent_spec {q : MVCCKey} (hat : At o src q st) (hcur : st.cur = q)
    (hk : q.key = k) (hfn : st.fn = if o.reverse then .keyReverse else .keyForward) :
    Read o src k st (versionOutcome o src q) (readCurrent o src st) := by
  have hon : OnKey o src k st := ⟨⟨q, hat, hk⟩, by rw [hcur, hk], hfn⟩
  unfold readCurrent versionOutcome
  rw [hcur, hat.ranges]
  cases src.point q with
  | none => exact read_emit hon
  | some r =>
    cases r with
    | metadata m => exact read_emit hon
    | value v =>
      cases coveredByRangeKey o (src.rangeAt q.key) q.ts with
      | none | some _ => exact read_emit hon

/-! Seeking a version. -/

section
variable {k : Bytes} {seekTS : Timestamp} {p q : MVCCKey}

/-- Without a record after one of `k`, `k` is the last key and has no older version. -/
theorem end_of_key (hpk : p.key = k) (hp : p < ⟨k, seekTS⟩) (h : src.pointAfter p = none) :
    src.pointPast k = none ∧ readAt o src k seekTS = .skip := by
  have hnone := Source.pointAfter_eq_none_iff.mp h
  refine ⟨Source.pointPast_eq_none_iff.mpr fun r hr hkr => hnone r hr (lt_of_key_lt (hpk ▸ hkr)), ?_⟩
  have hfrom : src.pointFrom ⟨k, seekTS⟩ = none :=
    Source.pointFrom_eq_none_iff.mpr fun r hr hle => hnone r hr (hp.trans_le hle)
  simp [readAt, hfrom]

/-- When the next record is of another key, `k` has no older version and that key follows it. -/
theorem next_key (hpk : p.key = k) (hp : p < ⟨k, seekTS⟩) (h : src.pointAfter p = some q) (hne : q.key ≠ k) :
    src.pointPast k = some q ∧ readAt o src k seekTS = .skip := by
  obtain ⟨⟨hq, hlt⟩, hmin⟩ := Source.pointAfter_eq_some_iff.mp h
  have hkq : k < q.key := lt_of_le_of_ne (hpk ▸ key_le hlt.le) (Ne.symm hne)
  refine ⟨Source.pointPast_eq_some_iff.mpr ⟨⟨hq, hkq⟩, fun r hr hkr => hmin r hr (lt_of_key_lt (hpk ▸ hkr))⟩, ?_⟩
  have hfrom : src.pointFrom ⟨k, seekTS⟩ = some q := Source.pointFrom_eq_some_iff.mpr
    ⟨⟨hq, (lt_of_key_lt hkq).le⟩, fun r hr hle => hmin r hr (hp.trans_le hle)⟩
  simp [readAt, hfrom, hne]

/-- The next record of `k` at or below the timestamp is the version to read. -/
theorem next_version (hpk : p.key = k) (hp : p < ⟨k, seekTS⟩) (h : src.pointAfter p = some q) (hk : q.key = k)
    (hts : q.ts ≤ seekTS) (hseek : seekTS ≠ 0) : readAt o src k seekTS = versionOutcome o src q := by
  obtain ⟨⟨hq, hlt⟩, hmin⟩ := Source.pointAfter_eq_some_iff.mp h
  have hq0 : q.ts ≠ 0 := by
    rcases MVCCKey.lt_iff.mp hlt with hlt | ⟨_, h0, _⟩
    · exact absurd (hpk.trans hk.symm) hlt.ne
    · exact h0
  have hfrom : src.pointFrom ⟨k, seekTS⟩ = some q := Source.pointFrom_eq_some_iff.mpr
    ⟨⟨hq, MVCCKey.le_iff.mpr (.inr ⟨hk.symm, .inr ⟨hq0, hts⟩⟩)⟩, fun r hr hle => hmin r hr (hp.trans_le hle)⟩
  simp [readAt, hfrom, hk, hseek]

theorem seekVersionLoop_spec (hseek : seekTS ≠ 0) : ∀ (n : Nat) {st : State} {p : MVCCKey}, At o src p st →
    p.key = k → st.fn = (if o.reverse then .keyReverse else .keyForward) → p < ⟨k, seekTS⟩ →
    (st.peeked = true → 0 < n) →
    (∃ st' ok, seekVersionLoop o src seekTS k n st = (st', some ok) ∧
      Read o src k st (readAt o src k seekTS) (st', ok)) ∨
    ∃ st' q, seekVersionLoop o src seekTS k n st = (st', none) ∧ Kept st st' ∧ At o src q st' ∧
      st'.peeked = false ∧ q.key = k
  | 0, st, p, h, hpk, _, _, hpeeked => by
    refine .inr ⟨st, p, rfl, ⟨rfl, rfl, rfl⟩, h, ?_, hpk⟩
    cases hp : st.peeked with
    | false => rfl
    | true => exact absurd (hpeeked hp) (Nat.lt_irrefl 0)
  | n + 1, st, p, h, hpk, hfn, hp, _ => by
    rw [seekVersionLoop]
    have hland := iterNext_spec h
    cases hq : src.pointAfter p with
    | none =>
      rw [hq] at hland
      obtain ⟨st', hst', hkept, hoff, _, hiters, _⟩ := hland.off
      obtain ⟨hpast, hread⟩ := end_of_key (o := o) hpk hp hq
      refine .inl ⟨setAdvanceKeyAtEnd o st', true, by rw [hst'], setAdvanceKeyAtEnd o st', ?_, ?_,
        .off hpast hoff (hiters.trans_le h.iters) rfl, ?_⟩
      · simp [hread, applyOutcome]
      · rw [hread]
        exact hkept.out
      · simp [hread, applyOutcome]
    | some q =>
      rw [hq] at hland
      obtain ⟨st', hst', hkept, hat, hcur, hpeeked, _⟩ :=
        hland.at (o := o) (Source.pointAfter_eq_some_iff.mp hq).1.1 rfl h.iters
      have hkept : Kept st st' := ⟨hkept.out, hkept.fn, hkept.origKey⟩
      simp only [hst', hcur]
      by_cases hne : q.key ≠ k
      · rw [if_pos hne]
        obtain ⟨hpast, hread⟩ := next_key (o := o) hpk hp hq hne
        have hat' := increment_at hat
        refine .inl ⟨_, true, rfl, setAdvanceKeyAtNewKey o k (st'.incrementItersBeforeSeek o), ?_, ?_,
          .past q ⟨hat'.point, hat'.ranges, hat'.iters, hat'.cursor⟩ hpast hcur rfl rfl, ?_⟩
        · simp [hread, applyOutcome]
        · rw [hread]
          exact hkept.out
        · simp [hread, applyOutcome]
      rw [if_neg hne]
      have hk : q.key = k := not_not.mp hne
      by_cases hts : q.ts ≤ seekTS
      · rw [if_pos hts, next_version hpk hp hq hk hts hseek]
        have hread := readCurrent_spec (increment_at hat) hcur hk (hkept.fn.trans hfn)
        exact .inl ⟨_, _, rfl, hread.of_out_eq hkept.out⟩
      rw [if_neg hts]
      have hq' : q < ⟨k, seekTS⟩ := MVCCKey.lt_iff.mpr (.inr ⟨hk, hseek, .inr (not_le.mp hts)⟩)
      rcases seekVersionLoop_spec hseek n hat hk (hkept.fn.trans hfn) hq' (by simp [hpeeked]) with
        ⟨st₃, ok, h₃, hread⟩ | ⟨st₃, q', h₃, hk₃, hat₃⟩
      · exact .inl ⟨st₃, ok, h₃, hread.of_out_eq hkept.out⟩
      · exact .inr ⟨st₃, q', h₃, hkept.trans hk₃, hat₃⟩

theorem seekVersion_spec {st : State} (h : At o src p st) (hcur : st.cur.key = k) (hpk : p.key = k)
    (hfn : st.fn = if o.reverse then .keyReverse else .keyForward) (hp : seekTS ≠ 0 → p < ⟨k, seekTS⟩) :
    Read o src k st (readAt o src k seekTS) (seekVersion o src seekTS st) := by
  unfold seekVersion
  by_cases hseek : seekTS = 0
  · rw [if_pos hseek, hseek, readAt]
    exact ⟨st, rfl, rfl, .on ⟨⟨p, h, hpk⟩, hcur, hfn⟩, fun hok => by simp [applyOutcome] at hok⟩
  rw [if_neg hseek]
  have hp := hp hseek
  simp only [hcur]
  rcases seekVersionLoop_spec hseek st.itersBeforeSeek h hpk hfn hp h.iters_pos with
    ⟨st', ok, hloop, hread⟩ | ⟨st', x, hloop, hkept, hat, hpeeked', hx⟩
  · rw [hloop]
    exact hread
  simp only [hloop]
  have hcoherent : Coherent src (st'.decrementItersBeforeSeek o) := hat.coherent hpeeked'
  have hland := iterSeek_spec (o := o) hcoherent ⟨k, seekTS⟩
  have hkept := hkept.trans ((decrement_kept (o := o)).trans (clearPeeked_kept (o := o)))
  cases hq : src.pointFrom ⟨k, seekTS⟩ with
  | none =>
    rw [hq] at hland
    obtain ⟨st'', hst'', hkept', hoff, _, hiters, _⟩ := hland.off
    have hread : readAt o src k seekTS = .skip := by simp [readAt, hq]
    have hpast : src.pointPast k = none := Source.pointPast_eq_none_iff.mpr fun r hr hkr =>
      Source.pointFrom_eq_none_iff.mp hq r hr (lt_of_key_lt hkr).le
    rw [hst'', hread]
    refine ⟨setAdvanceKeyAtEnd o st'', rfl, hkept'.out.trans hkept.out, .off hpast hoff ?_ rfl, ?_⟩
    · exact (hiters.trans clearPeeked_iters).trans_le (decrement_iters hat.iters)
    · simp [applyOutcome]
  | some q =>
    rw [hq] at hland
    obtain ⟨⟨hqpoint, hle⟩, hmin⟩ := Source.pointFrom_eq_some_iff.mp hq
    obtain ⟨st'', hst'', hkept', hat', hcur', _⟩ := hland.at (o := o) hqpoint
      (clearPeeked_unpeeked hpeeked') (clearPeeked_iters.trans_le (decrement_iters hat.iters))
    have hkept := hkept.trans hkept'
    simp only [hst'', hcur']
    by_cases hne : q.key ≠ k
    · rw [if_pos hne]
      have hkq : k < q.key := lt_of_le_of_ne (key_le hle) (Ne.symm hne)
      have hread : readAt o src k seekTS = .skip := by simp [readAt, hq, hne]
      have hpast : src.pointPast k = some q := Source.pointPast_eq_some_iff.mpr
        ⟨⟨hqpoint, hkq⟩, fun r hr hkr => hmin r hr (lt_of_key_lt hkr).le⟩
      rw [hread]
      exact ⟨setAdvanceKeyAtNewKey o k st'', rfl, hkept.out,
        .past q ⟨hat'.point, hat'.ranges, hat'.iters, hat'.cursor⟩ hpast hcur' rfl rfl, by simp [applyOutcome]⟩
    · rw [if_neg hne]
      have hk : q.key = k := not_not.mp hne
      have hread : readAt o src k seekTS = versionOutcome o src q := by simp [readAt, hq, hk, hseek]
      rw [hread]
      exact (readCurrent_spec hat' hcur' hk (hkept.fn.trans hfn)).of_out_eq hkept.out

end

/-! Reading a key. -/

/-- A covering range key is between the timestamp and the read timestamp. -/
theorem covered_spec {range : Option RangeKeyStack} {ts : Timestamp} {v : RangeKeyVersion}
    (h : coveredByRangeKey o range ts = some v) :
    (∃ s, range = some s ∧ v ∈ s.versions) ∧ ts ≤ v.timestamp ∧ v.timestamp ≤ o.ts := by
  unfold coveredByRangeKey at h
  split at h
  · cases h
  rename_i s
  split at h
  · split at h
    · rename_i v' hv'
      split at h
      · rename_i hle
        cases h
        exact ⟨⟨s, rfl, mem_of_find?_eq_some hv'⟩, hle, by simpa using find?_some hv'⟩
      · cases h
    · cases h
  · cases h

/-- When the newest record is a version at or below the read timestamp, it is the one to read. -/
theorem readAt_newest {p : MVCCKey} (hfirst : First src k p) (hts : p.ts ≠ 0) (hle : p.ts ≤ o.ts) :
    readAt o src k o.ts = versionOutcome o src p := by
  obtain ⟨⟨hpoint, _⟩, hmin⟩ := Source.pointFrom_eq_some_iff.mp hfirst.1
  have hfrom : src.pointFrom ⟨k, o.ts⟩ = some p := Source.pointFrom_eq_some_iff.mpr
    ⟨⟨hpoint, MVCCKey.le_iff.mpr (.inr ⟨hfirst.2.symm, .inr ⟨hts, hle⟩⟩)⟩,
      fun r hr hr' => hmin r hr (MVCCKey.bare_le_iff.mpr (key_le hr'))⟩
  have ho : o.ts ≠ 0 := fun h0 => hts (Nat.le_zero.mp (h0 ▸ hle))
  simp [readAt, hfrom, hfirst.2, ho]

theorem getOwnIntent_spec {m : MVCCMetadata} {t : TxnMeta} {txn : Transaction}
    {prevTS : Timestamp} (hat : At o src ⟨k, 0⟩ st) (hcur : st.cur = ⟨k, 0⟩)
    (hfn : st.fn = if o.reverse then .keyReverse else .keyForward) :
    Read o src k st (ownIntentOutcome (readAt o src k) k m t txn prevTS) (getOwnIntent o src m t txn prevTS st) := by
  have hon : OnKey o src k st := ⟨⟨_, hat, rfl⟩, by rw [hcur], hfn⟩
  have hseek : ∀ ts, Read o src k st (readAt o src k ts) (seekVersion o src ts st) := fun ts =>
    seekVersion_spec hat (by rw [hcur]) rfl hfn fun h => MVCCKey.lt_iff.mpr (.inr ⟨rfl, h, .inl rfl⟩)
  unfold getOwnIntent ownIntentOutcome
  split
  · split
    · exact hseek _
    cases getFromIntentHistory m txn with
    | none => exact hseek _
    | some v =>
      simp only [hcur]
      exact read_in_place hon rfl rfl rfl rfl rfl (by rw [hcur]) rfl rfl
  · split
    · exact read_emit hon
    · exact hseek _

theorem getMetadata_spec {m : MVCCMetadata} (hat : At o src ⟨k, 0⟩ st)
    (hcur : st.cur = ⟨k, 0⟩) (hfn : st.fn = if o.reverse then .keyReverse else .keyForward) :
    Read o src k st (metadataOutcome o (readAt o src k) k m) (getMetadata o src m st) := by
  have hon : OnKey o src k st := ⟨⟨_, hat, rfl⟩, by rw [hcur], hfn⟩
  have hother : Read o src k st (if m.timestamp ≤ o.ts then .conflict m else readAt o src k o.ts)
      (if m.timestamp ≤ o.ts then st.emit (addIntent o st.cur.key m st.out) else seekVersion o src o.ts st) := by
    rw [hcur]
    split
    · exact read_emit hon
    · exact seekVersion_spec hat (by rw [hcur]) rfl hfn fun h => MVCCKey.lt_iff.mpr (.inr ⟨rfl, h, .inl rfl⟩)
  unfold getMetadata metadataOutcome
  split
  · rw [hcur]
    exact read_emit hon
  cases m.txn with
  | none => exact read_emit hon
  | some t =>
    cases o.txn with
    | none => exact hother
    | some txn =>
      simp only
      split
      · exact getOwnIntent_spec hat hcur hfn
      · exact hother

/-- Only the newest record of a key can be its metadata. -/
theorem First.metadata {p : MVCCKey} (h : First src k p) :
    (src.point ⟨k, 0⟩).bind Record.metadata? = (src.point p).bind Record.metadata? := by
  obtain ⟨⟨_, _⟩, hmin⟩ := Source.pointFrom_eq_some_iff.mp h.1
  obtain ⟨pk, ts⟩ := p
  obtain rfl : pk = k := h.2
  by_cases hts : ts = 0
  · rw [hts]
  have hnone : src.point ⟨pk, 0⟩ = none := by
    by_contra hsome
    rcases MVCCKey.le_iff.mp (hmin _ (Option.isSome_iff_ne_none.mpr hsome) (le_refl _)) with hlt | ⟨_, h0 | ⟨h0, _⟩⟩
    · exact lt_irrefl _ hlt
    · exact hts h0
    · exact h0 rfl
  cases hrec : src.point ⟨pk, ts⟩ with
  | none => rw [hnone]
  | some rec =>
    cases rec with
    | metadata m => exact absurd (src.metadata_ts hrec) hts
    | value v => rw [hnone]; rfl

/-- `getOne` applies the outcome of the key the scanner is ready for. -/
theorem getOne_spec (h : Ready o src k st) (hfn : st.fn = if o.reverse then .keyReverse else .keyForward) :
    Read o src k st (outcome o src k) (getOne o src st) := by
  obtain ⟨p, hfirst, hat, hcur⟩ := h
  have hpk := hfirst.2
  have hon : OnKey o src k st := ⟨⟨p, hat, hpk⟩, by rw [hcur, hpk], hfn⟩
  obtain ⟨rec, hrec⟩ := Option.isSome_iff_exists.mp hat.point
  unfold getOne outcome
  rw [hcur, hat.ranges, hfirst.metadata, hrec]
  by_cases hts : p.ts ≠ 0
  · -- There is no metadata record: the newest version is read, or an older one is sought.
    rw [if_pos hts]
    cases rec with
    | metadata m => exact absurd (src.metadata_ts hrec) hts
    | value v =>
      rw [Option.bind_some, Record.metadata?, recordOutcome]
      cases hc : coveredByRangeKey o (src.rangeAt p.key) p.ts with
      | some rkv =>
        have hle := (covered_spec hc).2
        rw [readAt_newest hfirst hts (hle.1.trans hle.2), versionOutcome, hrec]
        simp only [hc]
        exact read_emit hon
      | none =>
        simp only
        by_cases hle : p.ts ≤ o.ts
        · rw [if_pos hle, readAt_newest hfirst hts hle, versionOutcome, hrec]
          simp only [hc]
          exact read_emit hon
        rw [if_neg hle]
        exact seekVersion_spec hat (by rw [hcur, hpk]) hpk hfn fun h =>
          MVCCKey.lt_iff.mpr (.inr ⟨hpk, h, .inr (not_le.mp hle)⟩)
  · rw [if_neg hts]
    have hp : p = ⟨k, 0⟩ := by
      obtain ⟨pk, pts⟩ := p
      have h0 : pts = 0 := not_not.mp hts
      simp only at hpk
      rw [hpk, h0]
    cases rec with
    | value v => exact absurd (not_not.mp hts) (src.value_ts hrec)
    | metadata m =>
      rw [hp] at hat hcur
      exact getMetadata_spec hat hcur hfn

/-! Scanning. -/

variable (o) in
/-- Apply the outcomes of keys in order; the keys that remain when one of them stops it. -/
def runKeys (read : Bytes → Outcome) : List Bytes → Out → Out × Option (List Bytes)
  | [], out => (out, none)
  | k :: ks, out =>
    match applyOutcome o k out (read k) with
    | (out, false) => (out, some ks)
    | (out, true) => runKeys read ks out

variable (o) in
/-- What a scan returns that has produced an output and stopped with keys remaining: it
    resumes at its resume key or else at the next key, if it has to. -/
def scanResult (r : Out × Option (List Bytes)) : ScanResult :=
  if r.1.resumeReason.isNone then noResume r.1
  else if r.1.resumeKey ≠ [] then resume o r.1 r.1.resumeKey
  else match r.2 with
    | some (k :: _) => resume o r.1 k
    | _ => noResume r.1

variable (o) in
/-- The end of a scan. -/
def finish (r : Out × Option (List Bytes)) : Except ScanErr ScanResult :=
  match r.1.err with
  | some err => .error (.failed err)
  | none => if r.1.intents = [] then .ok (scanResult o r) else .error (.writeIntent r.1.intents)

/-- `ks` are the keys of the source, in the order of the scan. -/
structure ScanKeys (o : ScanOptions) (src : Source) (ks : List Bytes) : Prop where
  ordered : ks.Pairwise fun a b => if o.reverse then b < a else a < b
  mem : ∀ k, k ∈ ks ↔ ∃ p, src.IsPoint p ∧ p.key = k

/-- Starting from a record and following the scan, the keys visited are `ks`. -/
def Visits (o : ScanOptions) (src : Source) : Option MVCCKey → List Bytes → Prop
  | from?, [] => from? = none
  | from?, k :: ks => (∃ q, from? = some q ∧ q.key = k) ∧ Visits o src (following o src k) ks

/-- The order in which a scan meets keys. -/
def Before (o : ScanOptions) (a b : Bytes) : Prop := if o.reverse then b < a else a < b

theorem before_irrefl (a : Bytes) : ¬ Before o a a := by
  unfold Before
  split <;> exact lt_irrefl a

theorem Before.trans {a b c : Bytes} (h : Before o a b) (h' : Before o b c) : Before o a c := by
  unfold Before at *
  split_ifs at *
  · exact h'.trans h
  · exact h.trans h'

/-- The first of the points whose keys pass a test, in the order of the scan. -/
def FirstPassing (o : ScanOptions) (src : Source) (test : Bytes → Prop) : Option MVCCKey → Prop
  | none => ∀ r, src.IsPoint r → ¬ test r.key
  | some q => (src.IsPoint q ∧ test q.key) ∧ ∀ r, src.IsPoint r → test r.key → q.key = r.key ∨ Before o q.key r.key

theorem firstPassing_of {test : Bytes → Prop} {test' : MVCCKey → Prop} [DecidablePred test'] {reverse : Bool}
    (hreverse : o.reverse = reverse) (h : ∀ r, src.IsPoint r → (test' r ↔ test r.key)) :
    FirstPassing o src test (src.firstPoint reverse test') := by
  cases hq : src.firstPoint reverse test' with
  | none => exact fun r hr ht => (Source.firstPoint_eq_none_iff reverse).mp hq r hr ((h r hr).mpr ht)
  | some q =>
    obtain ⟨⟨hqp, hqt⟩, hmin⟩ := (Source.firstPoint_eq_some_iff reverse).mp hq
    refine ⟨⟨hqp, (h q hqp).mp hqt⟩, fun r hr ht => ?_⟩
    have hle := hmin r hr ((h r hr).mpr ht)
    cases reverse with
    | false => simpa [Before, hreverse] using (key_le hle).eq_or_lt
    | true => simpa [Before, hreverse] using (key_le hle).eq_or_lt'

theorem firstPassing_following (k : Bytes) : FirstPassing o src (Before o k) (following o src k) := by
  unfold following
  cases hreverse : o.reverse with
  | true => exact firstPassing_of hreverse fun r _ => by simp [Before, hreverse, lt_bare_iff]
  | false => exact firstPassing_of hreverse fun r _ => by simp [Before, hreverse]

theorem visits_of_first : ∀ {ks : List Bytes} {test : Bytes → Prop} {from? : Option MVCCKey}, ks.Pairwise (Before o) →
    (∀ a b, test a → Before o a b → test b) → (∀ k, k ∈ ks ↔ (∃ p, src.IsPoint p ∧ p.key = k) ∧ test k) →
    FirstPassing o src test from? → Visits o src from? ks
  | [], _, none, _, _, _, _ => rfl
  | [], _, some q, _, _, hmem, hfirst => absurd ((hmem q.key).mpr ⟨⟨q, hfirst.1.1, rfl⟩, hfirst.1.2⟩) not_mem_nil
  | k :: ks, test, from?, hord, hup, hmem, hfirst => by
    obtain ⟨hlt, hks⟩ := pairwise_cons.mp hord
    obtain ⟨⟨x, hx, rfl⟩, htest⟩ := (hmem k).mp mem_cons_self
    refine ⟨?_, visits_of_first hks (fun _ _ => Before.trans) (fun k' => ⟨fun h => ?_, fun h => ?_⟩)
      (firstPassing_following x.key)⟩
    · cases from? with
      | none => exact absurd htest (hfirst x hx)
      | some q =>
        refine ⟨q, rfl, (hfirst.2 x hx htest).resolve_right fun hbefore => ?_⟩
        rcases mem_cons.mp ((hmem q.key).mpr ⟨⟨q, hfirst.1.1, rfl⟩, hfirst.1.2⟩) with h | h
        · exact before_irrefl _ (h ▸ hbefore)
        · exact before_irrefl _ (hbefore.trans (hlt q.key h))
    · exact ⟨((hmem k').mp (mem_cons_of_mem _ h)).1, hlt k' h⟩
    · rcases mem_cons.mp ((hmem k').mpr ⟨h.1, hup _ k' htest h.2⟩) with rfl | h'
      · exact absurd h.2 (before_irrefl _)
      · exact h'

/-- The scan loop applies the outcomes of the keys it visits. -/
theorem scanLoop_spec (hbound : ∀ r, src.IsPoint r → r.key < o.stop) : ∀ (ks : List Bytes) {k : Bytes} {n : Nat}
    {st : State}, Ready o src k st → st.fn = (if o.reverse then .keyReverse else .keyForward) →
    Visits o src (following o src k) ks → ks.length < n →
    (scanLoop o src n st).out = (runKeys o (outcome o src) (k :: ks) st.out).1 ∧
      ∀ rest, (runKeys o (outcome o src) (k :: ks) st.out).2 = some rest →
        ∃ k', OnKey o src k' (scanLoop o src n st) ∧ Visits o src (following o src k') rest
  | ks, k, 0, st, _, _, _, hn => absurd hn (Nat.not_lt_zero _)
  | ks, k, n + 1, st, hready, hfn, hvisits, hn => by
    obtain ⟨st', hget, hout, hleft, hstop⟩ := getOne_spec hready hfn
    obtain ⟨p, hfirst, _⟩ := hready
    rw [scanLoop, runKeys, hget]
    cases happly : applyOutcome o k st.out (outcome o src k) with
    | mk out ok =>
      rw [happly] at hout hstop
      cases ok with
      | false =>
        refine ⟨hout, fun rest hrest => ?_⟩
        cases hrest
        exact ⟨k, hstop rfl, hvisits⟩
      | true =>
        simp only
        have hadv := advance_spec hbound ⟨p, hfirst⟩ hleft
        cases ks with
        | nil =>
          rw [show following o src k = none from hvisits] at hadv
          obtain ⟨st'', hst'', hout'⟩ := hadv
          rw [hst'']
          exact ⟨hout'.trans hout, fun rest hrest => by cases hrest⟩
        | cons k' ks =>
          obtain ⟨⟨q, hq, hqk⟩, hvisits'⟩ := hvisits
          rw [hq] at hadv
          obtain ⟨st'', hst'', hout', hready', hfn'⟩ := hadv
          rw [hst'']
          rw [hqk] at hready'
          have ih := scanLoop_spec hbound ks (n := n) hready' hfn' hvisits' (by simpa using hn)
          rw [hout'.trans hout] at ih
          exact ih

/-- A scan that goes on has hit no limit. -/
theorem putResult_continues (h : (putResult o kv out).2 = true) :
    (putResult o kv out).1 = { out with kvs := out.kvs ++ [kv] } := by
  unfold putResult at h ⊢
  simp only at h ⊢
  split
  · rename_i hlimit
    rw [if_pos hlimit] at h
    cases h
  · rfl

theorem rejectResult_stops {key : Bytes} : (rejectResult o key out).2 = false := by
  unfold rejectResult
  simp only
  split
  · split <;> rfl
  · rfl

theorem applyOutcome_continues (hnone : out.resumeReason = none)
    (h : (applyOutcome o k out oc).2 = true) : (applyOutcome o k out oc).1.resumeReason = none := by
  cases oc with
  | skip => exact hnone
  | fail err => exact hnone
  | conflict m =>
    unfold applyOutcome addIntent at h ⊢
    simp only at h ⊢
    split
    · rename_i hlimit
      rw [if_pos hlimit] at h
      cases h
    · exact hnone
  | emit kv =>
    simp only [applyOutcome, add] at h ⊢
    split
    · exact hnone
    rename_i hvalue
    rw [if_neg hvalue] at h
    split
    · rename_i hexceed
      rw [if_pos hexceed] at h
      split
      · rename_i hmust
        rw [if_pos hmust] at h
        rw [putResult_continues h]
      rename_i hmust
      rw [if_neg hmust, rejectResult_stops] at h
      cases h
    · rename_i hexceed
      rw [if_neg hexceed] at h
      rw [putResult_continues h]
      simpa using hexceed

theorem runKeys_continues {read : Bytes → Outcome} : ∀ {ks : List Bytes} {out : Out}, out.resumeReason = none →
    (runKeys o read ks out).2 = none → (runKeys o read ks out).1.resumeReason = none
  | [], _, hnone, _ => hnone
  | k :: ks, out, hnone, h => by
    rw [runKeys] at h ⊢
    cases happly : applyOutcome o k out (read k) with
    | mk out' ok =>
      rw [happly] at h
      cases ok with
      | false => cases h
      | true =>
        have hnone' : out'.resumeReason = none := by
          have := applyOutcome_continues (o := o) (k := k) hnone (by rw [happly])
          rwa [happly] at this
        exact runKeys_continues hnone' h

theorem afterScan_spec {r : Out × Option (List Bytes)} (hout : st.out = r.1)
    (hnone : r.2 = none → r.1.resumeReason = none)
    (hrest : ∀ rest, r.2 = some rest → ∃ k, OnKey o src k st ∧ Visits o src (following o src k) rest) :
    afterScan o src st = match r.1.err with
      | some err => .error (.failed err)
      | none => .ok (scanResult o r) := by
  unfold afterScan scanResult
  rw [hout]
  cases r.1.err with
  | some err => rfl
  | none =>
    by_cases hreason : r.1.resumeReason.isNone = true
    · simp only [hreason, if_true]
    by_cases hkey : r.1.resumeKey ≠ []
    · simp only [hreason, hkey, if_false, if_true, ne_eq, not_false_eq_true, Bool.false_eq_true]
    simp only [hreason, hkey, if_false, Bool.false_eq_true]
    cases hr : r.2 with
    | none => simp [hnone hr] at hreason
    | some rest =>
      obtain ⟨k, hon, hvisits⟩ := hrest rest hr
      -- The scan stopped on a key; its resume key is the next one.
      have hadv : Advanced o src st (following o src k)
          (if o.reverse then advanceKeyReverse o src st else advanceKeyForward o src st) := by
        unfold following
        cases hreverse : o.reverse with
        | true => exact advanceKeyReverse_spec hreverse hon
        | false =>
          obtain ⟨⟨p, hat, hpk⟩, _, hfn⟩ := hon
          rw [← hpk]
          exact advanceKeyForward_spec hreverse hat (by rw [hfn, hreverse]; rfl)
      cases rest with
      | nil =>
        rw [show following o src k = none from hvisits] at hadv
        obtain ⟨st', hst', _⟩ := hadv
        rw [hst']
      | cons k' rest =>
        obtain ⟨⟨q, hq, hqk⟩, _⟩ := hvisits
        rw [hq] at hadv
        obtain ⟨st', hst', _, ⟨x, hx, _, hcur⟩, _⟩ := hadv
        rw [hst']
        simp only
        rw [hcur, hx.2, hqk]

theorem ScanKeys.length_le (h : ScanKeys o src ks) : ks.length ≤ src.stops.length := by
  have hnodup : ks.Nodup := h.ordered.imp fun {a b} hab heq => by
    subst heq
    split at hab <;> exact absurd hab (lt_irrefl _)
  have hsub : ks ⊆ src.stops.map (·.key) := fun k hk => by
    obtain ⟨p, hp, hpk⟩ := (h.mem k).mp hk
    exact mem_map.mpr ⟨p, hp.mem_stops, hpk⟩
  simpa using (hnodup.subperm hsub).length_le

theorem seekToStartOfScan_spec (st : State) (h : ScanKeys o src ks)
    (hbound : ∀ r, src.IsPoint r → o.start ≤ r.key ∧ r.key < o.stop) (hranges : st.curRangeKeys = none)
    (hpeeked : st.peeked = false) (hiters : st.itersBeforeSeek ≤ o.maxItersBeforeSeek) :
    ∃ first, Advanced o src st first (seekToStartOfScan o src st) ∧ Visits o src first ks := by
  have hcoherent : Coherent src st := .inr (.inl hranges)
  have hvisits : ∀ {first}, FirstPassing o src (fun _ => True) first → Visits o src first ks :=
    visits_of_first h.ordered (fun _ _ _ _ => trivial) fun k => by rw [h.mem k, and_true]
  unfold seekToStartOfScan
  cases hreverse : o.reverse with
  | true =>
    have hmoved := iterSeekReverse_spec hreverse hcoherent hiters ⟨o.stop, 0⟩
    refine ⟨src.pointBefore ⟨o.stop, 0⟩, ?_, ?_⟩
    · cases hq : src.pointBefore ⟨o.stop, 0⟩ with
      | none =>
        rw [hq] at hmoved
        obtain ⟨st', hst', hkept⟩ := hmoved
        rw [hst']
        exact ⟨st', rfl, hkept.out⟩
      | some q =>
        rw [hq] at hmoved
        obtain ⟨st', hst', hkept, x, hx, hat, hcur⟩ := hmoved
        rw [hst']
        exact ⟨_, rfl, hkept.out, ⟨x, hx, ⟨hat.point, hat.ranges, hat.iters, hat.cursor⟩, hcur⟩, by rw [hreverse]; rfl⟩
    · exact hvisits (firstPassing_of hreverse fun r hr => iff_of_true (lt_bare_iff.mpr (hbound r hr).2) trivial)
  | false =>
    have hland := iterSeek_spec (o := o) hcoherent ⟨o.start, 0⟩
    refine ⟨src.pointFrom ⟨o.start, 0⟩, ?_, ?_⟩
    · cases hq : src.pointFrom ⟨o.start, 0⟩ with
      | none =>
        rw [hq] at hland
        obtain ⟨st', hst', hkept, _⟩ := hland.off
        rw [hst']
        exact ⟨st', rfl, (clearPeeked_kept.trans hkept).out⟩
      | some q =>
        rw [hq] at hland
        obtain ⟨⟨hpoint, _⟩, hmin⟩ := Source.pointFrom_eq_some_iff.mp hq
        obtain ⟨st', hst', hkept, hat, hcur, _⟩ := hland.at (o := o) hpoint (clearPeeked_unpeeked hpeeked)
          (clearPeeked_iters.trans_le hiters)
        have hfirst : First src q.key q := first_of_not_before hpoint fun r hr _ =>
          hmin r hr (MVCCKey.bare_le_iff.mpr (hbound r hr).1)
        rw [hst']
        exact ⟨_, rfl, (clearPeeked_kept.trans hkept).out,
          ⟨q, hfirst, ⟨hat.point, hat.ranges, hat.iters, hat.cursor⟩, hcur⟩, by rw [hreverse]; rfl⟩
    · exact hvisits (firstPassing_of hreverse fun r hr => iff_of_true (bare_le_iff.mpr (hbound r hr).1) trivial)

/-- The scanner applies the outcomes of its keys in order, wherever its iterator was and
    however many iterations it makes before a seek. -/
theorem scan_eq (h : ScanKeys o src ks)
    (hbound : ∀ r, src.IsPoint r → o.start ≤ r.key ∧ r.key < o.stop) (parent : Cursor MVCCKey) (changed : Bool)
    {iters : Nat} (hiters : iters ≤ o.maxItersBeforeSeek) :
    scan o src (.init parent changed iters) = finish o (runKeys o (outcome o src) ks .empty) := by
  obtain ⟨first, hadv, hvisits⟩ :=
    seekToStartOfScan_spec (.init parent changed iters) h hbound rfl rfl hiters
  unfold scan
  cases ks with
  | nil =>
    rw [show first = none from hvisits] at hadv
    obtain ⟨st', hst', hout⟩ := hadv
    rw [hst']
    simp only [hout]
    rfl
  | cons k ks =>
    obtain ⟨⟨q, hq, hqk⟩, hvisits⟩ := hvisits
    rw [hq] at hadv
    obtain ⟨st', hst', hout, hready, hfn⟩ := hadv
    rw [hqk] at hready
    have hlen := h.length_le
    obtain ⟨hloop, hrest⟩ := scanLoop_spec (n := src.stops.length + 1) (fun r hr => (hbound r hr).2) ks hready hfn
      hvisits (by simp only [length_cons] at hlen; omega)
    rw [show st'.out = Out.empty from hout] at hloop hrest
    have hnone : (runKeys o (outcome o src) (k :: ks) Out.empty).2 = none →
        (runKeys o (outcome o src) (k :: ks) Out.empty).1.resumeReason = none := runKeys_continues rfl
    rw [hst']
    simp only
    rw [afterScan_spec hloop hnone hrest, hloop]
    unfold finish
    cases (runKeys o (outcome o src) (k :: ks) Out.empty).1.err with
    | some err => rfl
    | none => rfl

/-! Getting. -/

/-- A get may have noted an intent before it applied its outcome. -/
theorem getOneFor_spec (inconsistent : Bool) (h : Ready o src k st)
    (hfn : st.fn = if o.reverse then .keyReverse else .keyForward) :
    ∃ intents, (inconsistent = false → intents = []) ∧ (getOneFor o src inconsistent st).1.out =
      (applyOutcome o k { st.out with intents := st.out.intents ++ intents }
        (getOutcome o (readAt o src k) k inconsistent ((src.point ⟨k, 0⟩).bind Record.metadata?))).1 := by
  obtain ⟨st', hone, hout, -⟩ := getOne_spec h hfn
  obtain ⟨_, hfirst, hat, rfl⟩ := h
  obtain ⟨rec, hrec⟩ := Option.isSome_iff_exists.mp hat.point
  rw [outcome, hfirst.metadata, hrec] at hone hout
  rw [getOneFor, hfirst.metadata, hrec]
  have hplain : (getOne o src st).1.out = (applyOutcome o k { st.out with intents := st.out.intents ++ [] }
      (recordOutcome o (readAt o src k) k rec.metadata?)).1 := by
    rw [append_nil, hone]
    exact hout
  cases rec with
  | value v => exact ⟨[], fun _ => rfl, hplain⟩
  | metadata m =>
    simp only [Option.bind_some, Record.metadata?, getOutcome]
    split
    case isFalse => exact ⟨[], fun _ => rfl, hplain⟩
    case isTrue hignored =>
      have hnoted : At o src st.cur
          { st with out := { st.out with intents := st.out.intents ++ [(st.cur.key, m)] } } :=
        ⟨hat.point, hat.ranges, hat.iters, hat.cursor⟩
      have hbelow : m.timestamp - 1 ≠ 0 → st.cur < ⟨k, m.timestamp - 1⟩ := fun h =>
        MVCCKey.lt_iff.mpr (.inr ⟨hfirst.2, h, .inl (src.metadata_ts hrec)⟩)
      obtain ⟨_, hseek, hout', -⟩ := seekVersion_spec hnoted hfirst.2 hfirst.2 hfn hbelow
      refine ⟨[(st.cur.key, m)], by simp [hignored.1], ?_⟩
      rw [hseek]
      exact hout'

/-- Where all stops are of one key, a get applies the outcome of that key. -/
theorem get_eq (inconsistent : Bool) (hreverse : o.reverse = false) (hstops : ∀ p ∈ src.stops, p.key = o.start)
    (parent : Cursor MVCCKey) (changed : Bool) {iters : Nat} (hiters : iters ≤ o.maxItersBeforeSeek) :
    ∃ intents, (inconsistent = false → intents = []) ∧ get o src inconsistent (.init parent changed iters) = addSaved o
      (if o.tombstones then (src.rangeAt o.start).bind (·.firstAtOrBelow o.ts) else none)
      (applyOutcome o o.start { Out.empty with intents := intents } (getOutcome o (readAt o src o.start) o.start
        inconsistent ((src.point ⟨o.start, 0⟩).bind Record.metadata?))).1 := by
  have hranges : src.rangesOn (src.seekGE ⟨o.start, 0⟩) = src.rangeAt o.start := by
    unfold seekGE
    split
    case isTrue => rfl
    case isFalse hno =>
      cases hq : Lib.least src.stops fun q => decide (⟨o.start, 0⟩ ≤ q) with
      | none => exact (Option.not_isSome_iff_eq_none.mp (not_or.mp hno).2).symm
      | some q => exact congrArg src.rangeAt (hstops q (least_eq_some_iff.mp hq).1.1)
  have hinit : Coherent src (.init parent changed iters) := .inr (.inl rfl)
  have hland := seekGE_spec hinit ⟨o.start, 0⟩
  unfold get
  simp only [State.moveTo, hranges] at hland ⊢
  cases hq : src.pointFrom ⟨o.start, 0⟩ with
  | none =>
    have hnone := pointFrom_eq_none_iff.mp hq
    rw [hq] at hland
    obtain ⟨st', hst', hkept, -⟩ := hland.off
    have hbare : src.point ⟨o.start, 0⟩ = none := Option.not_isSome_iff_eq_none.mp fun h => hnone _ h le_rfl
    have hread : readAt o src o.start o.ts = .skip := by
      rw [readAt, pointFrom_eq_none_iff.mpr fun r hr h => hnone r hr (bare_le_iff.mpr (key_le h)), ite_self]
    refine ⟨[], fun _ => rfl, ?_⟩
    rw [hst', hbare, Option.bind_none, getOutcome, hread, applyOutcome]
    simp only
    rw [hkept.out]
    rfl
  | some q =>
    rw [hq] at hland
    have hpoint := (pointFrom_eq_some_iff.mp hq).1.1
    obtain ⟨st', hst', hkept, hat, hcur, -⟩ := hland.at (o := o) hpoint rfl hiters
    obtain ⟨intents, hintents, hout⟩ := getOneFor_spec inconsistent
      ⟨q, ⟨hq, hstops q hpoint.mem_stops⟩, hat, hcur⟩ (hkept.fn.trans (by rw [hreverse]; rfl))
    refine ⟨intents, hintents, ?_⟩
    rw [hst']
    simp only
    rw [hout, hkept.out]
    rfl

end Ratel.Storage
