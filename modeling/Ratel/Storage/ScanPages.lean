import Ratel.Storage.MvccScan

/- Scanning page by page. A scan that hits a limit returns a resume span, and the next
   page scans that. However the limit was hit (before a pair, after one, in the middle of
   a row that is then removed), the pairs of a page are those of a first part of the keys,
   the part is not empty when there is more, and the resume span holds exactly the rest.
   So the pages end, and together they are the scan without limits. -/
namespace Ratel.Storage

open Encoding Keys Lib List

section
variable {o : ScanOptions} {read : Bytes → Outcome}

/-! Trimming a row. -/

variable {size : Nat} {nextKey k : Bytes} {out : Out} {done : List Bytes}

/-- Trimming removes pairs of one row from the end, and names the first of them. -/
theorem trimLastRow_spec {row : Bytes} : ∀ {n : Nat} {kvs kept : List KV}
    {trimmed : Option Bytes} (removed : List KV), (∀ kv ∈ removed, getRowPrefix kv.key.key = some row) →
    trimLastRow size row nextKey n kvs (removed.head?.map fun kv => kv.key.key) = .ok (kept, trimmed) →
    ∃ removed', kvs ++ removed = kept ++ removed' ∧ (∀ kv ∈ removed', getRowPrefix kv.key.key = some row) ∧
      trimmed = removed'.head?.map fun kv => kv.key.key
  | 0, _, _, _, _, _, h => by simp [trimLastRow, errorf] at h
  | n + 1, kvs, kept, trimmed, removed, hrow, h => by
    rw [trimLastRow] at h
    rcases eq_nil_or_concat kvs with rfl | ⟨init, kv, rfl⟩
    · obtain ⟨rfl, rfl⟩ := h
      exact ⟨removed, rfl, hrow, rfl⟩
    simp only [concat_eq_append, getLast?_append_cons, getLast?_singleton, dropLast_concat] at h
    split at h
    · obtain ⟨rfl, rfl⟩ := h
      exact ⟨removed, by simp, hrow, rfl⟩
    rename_i hkv
    have hrow' : ∀ x ∈ kv :: removed, getRowPrefix x.key.key = some row :=
      forall_mem_cons.mpr ⟨not_not.mp hkv, hrow⟩
    split at h
    · rename_i hinit
      obtain ⟨rfl, rfl⟩ := h
      exact ⟨kv :: removed, by simp [hinit], hrow', rfl⟩
    · obtain ⟨removed', heq, hrest⟩ := trimLastRow_spec (kv :: removed) hrow' h
      exact ⟨removed', by simpa using heq, hrest⟩

/-- What trimming keeps and removes. The first row of a result is never removed. -/
theorem maybeTrim_spec {kvs kept : List KV} {trimmed : Option Bytes}
    (hne : kvs ≠ []) (hfirst : continuesFirstRow kvs nextKey = false)
    (h : maybeTrimPartialLastRow size kvs nextKey = .ok (kept, trimmed)) :
    ∃ removed, kvs = kept ++ removed ∧ kept ≠ [] ∧ trimmed = removed.head?.map fun kv => kv.key.key := by
  unfold maybeTrimPartialLastRow at h
  rw [if_neg hne] at h
  split at h
  · obtain ⟨rfl, rfl⟩ := h
    exact ⟨[], by simp, hne, rfl⟩
  rename_i row hrow
  obtain ⟨removed, heq, hremoved, htrim⟩ := trimLastRow_spec [] (by simp) h
  rw [append_nil] at heq
  refine ⟨removed, heq, ?_, htrim⟩
  rintro rfl
  obtain ⟨kv, rest, rfl⟩ := exists_cons_of_ne_nil hne
  simp only [continuesFirstRow, hrow, decide_eq_false_iff_not] at hfirst
  have hmem : kv ∈ [] ++ removed := heq ▸ mem_cons_self
  exact hfirst (hremoved kv hmem)

/-! One page. -/

/-- A limit on the pairs of a page. -/
def ScanOptions.Limited (o : ScanOptions) : Prop := 0 < o.maxKeys ∨ 0 < o.targetBytes

/-- The error of a scan of whole rows that has to trim a row with more pairs than a row can have. -/
def RowError (o : ScanOptions) (err : Err) : Prop :=
  o.wholeRows = true ∧ o.Limited ∧
    ∃ key, err = ⟨"row exceeds expected max size (%d): %s", [.int o.wholeRowsOfSize, .bytes key]⟩

theorem trimLastRow_error {row : Bytes} {err : Err} : ∀ {n : Nat} {kvs : List KV}
    {trimmed : Option Bytes}, trimLastRow size row nextKey n kvs trimmed = .error err →
    err = ⟨"row exceeds expected max size (%d): %s", [.int size, .bytes nextKey]⟩
  | 0, _, _, h => by
    cases h
    rfl
  | n + 1, kvs, trimmed, h => by
    rw [trimLastRow] at h
    split at h
    · cases h
    split at h
    · cases h
    split at h
    · cases h
    · exact trimLastRow_error h

/-- What applying an outcome to an output without a limit hit can do. A scan stops after a
    pair, before one with the pairs of its row removed, or with an error or a conflict. -/
inductive Applied (o : ScanOptions) (k : Bytes) (out : Out) (oc : Outcome) : Out × Bool → Prop
  | continues (hok : oc.failed = false) : Applied o k out oc
      ({ out with kvs := out.kvs ++ oc.pairs o, intents := out.intents ++ oc.conflicts k }, true)
  | stopsAfter (hok : oc.failed = false) (hconflicts : oc.conflicts k = []) (hlimit : o.Limited)
      (reason : ResumeReason) : Applied o k out oc
      ({ out with kvs := out.kvs ++ oc.pairs o, resumeReason := some reason }, false)
  | stopsBefore {kept removed : List KV} (hkvs : out.kvs = kept ++ removed) (hkept : kept ≠ [])
      (hlimit : o.Limited) (reason : ResumeReason) (bytes : Nat) : Applied o k out oc
      ({ out with
        kvs := kept, resumeReason := some reason, resumeNextBytes := bytes,
        resumeKey := (removed.head?.map fun kv => kv.key.key).getD k }, false)
  | fails {out' : Out} {err : Err} (hout : out'.err = some err) (herr : oc.failed = true ∨ RowError o err) :
      Applied o k out oc (out', false)
  | conflicts (hconflicts : oc.conflicts k ≠ []) (reason : ResumeReason) : Applied o k out oc
      ({ out with intents := out.intents ++ oc.conflicts k, resumeReason := some reason }, false)

theorem Applied.of_continues {out' : Out} {oc : Outcome} (hok : oc.failed = false)
    (h : out' = { out with kvs := out.kvs ++ oc.pairs o, intents := out.intents ++ oc.conflicts k }) :
    Applied o k out oc (out', true) := h ▸ .continues hok

theorem putResult_applied {kv : KV} (hpairs : (Outcome.emit kv).pairs o = [kv]) :
    Applied o k out (.emit kv) (putResult o kv out) := by
  unfold putResult
  rw [← hpairs]
  simp only
  split
  · rename_i hlimit
    exact .stopsAfter rfl rfl (.inl hlimit.1) .keyLimit
  · exact .of_continues rfl (by simp [Outcome.conflicts])

/-- A limit that would be exceeded is recorded, and nothing else changes. -/
theorem exceed_spec (kv : KV) (out : Out) :
    exceed o kv out = out ∨ o.Limited ∧ ∃ reason bytes,
      exceed o kv out = { out with resumeReason := some reason, resumeNextBytes := bytes } := by
  unfold exceed
  split
  · rename_i hbytes
    exact .inr ⟨.inr hbytes.1, _, _, rfl⟩
  split
  · rename_i hkeys
    exact .inr ⟨.inl hkeys.1, _, _, rfl⟩
  · exact .inl rfl

theorem rejectResult_applied {kv : KV} {reason : ResumeReason} {bytes : Nat} (hlimit : o.Limited)
    (hne : out.kvs ≠ []) (hfirst : o.wholeRows = true → continuesFirstRow out.kvs kv.key.key = false) :
    Applied o kv.key.key out (.emit kv)
      (rejectResult o kv.key.key { out with resumeReason := some reason, resumeNextBytes := bytes }) := by
  unfold rejectResult
  simp only
  split
  · rename_i hrows
    cases htrim : maybeTrimPartialLastRow o.wholeRowsOfSize out.kvs kv.key.key with
    | error err =>
      unfold maybeTrimPartialLastRow at htrim
      rw [if_neg hne] at htrim
      split at htrim
      · cases htrim
      · exact .fails rfl (.inr ⟨hrows, hlimit, _, trimLastRow_error htrim⟩)
    | ok r =>
      obtain ⟨kept, trimmed⟩ := r
      obtain ⟨removed, hkvs, hkept, rfl⟩ := maybeTrim_spec hne (hfirst hrows) htrim
      exact .stopsBefore hkvs hkept hlimit reason bytes
  · have hkvs : out.kvs = out.kvs ++ [] := by simp
    exact .stopsBefore hkvs hne hlimit reason bytes

theorem applyOutcome_applied {oc : Outcome} (hallow : o.allowEmpty = false)
    (hkey : ∀ kv, oc = .emit kv → kv.key.key = k) (hnone : out.resumeReason = none)
    (hbytes : out.resumeNextBytes = 0) : Applied o k out oc (applyOutcome o k out oc) := by
  cases oc with
  | skip => exact .of_continues rfl (by simp [Outcome.pairs, Outcome.conflicts])
  | fail err => exact .fails rfl (.inl rfl)
  | conflict m =>
    unfold applyOutcome addIntent
    simp only
    split
    · exact .conflicts (by simp [Outcome.conflicts]) .intentLimit
    · exact .of_continues rfl (by simp [Outcome.pairs, Outcome.conflicts])
  | emit kv =>
    have hk := hkey kv rfl
    subst hk
    simp only [applyOutcome, add]
    split
    · rename_i hv
      exact .of_continues rfl (by simp [Outcome.pairs, Outcome.conflicts, hv])
    rename_i hv
    have hpairs : (Outcome.emit kv).pairs o = [kv] := if_neg hv
    rcases exceed_spec (o := o) kv out with hsame | ⟨hlimit, reason, bytes, hexceed⟩
    · rw [hsame, hnone]
      exact putResult_applied hpairs
    rw [hexceed]
    simp only [Option.isSome_some, if_true]
    split
    · -- The first pair, or the first row, is added whatever the limits.
      obtain ⟨kvs, intents, _, resumeKey, _, err⟩ := out
      subst hnone hbytes
      exact putResult_applied hpairs
    rename_i hmust
    simp only [hallow, Bool.false_eq_true, not_false_eq_true, true_and, not_or, not_and, Bool.not_eq_true] at hmust
    exact rejectResult_applied hlimit hmust.1 hmust.2

/-- A key that a scan reads without an error or a conflict. -/
def Clean (read : Bytes → Outcome) (k : Bytes) : Prop := (read k).failed = false ∧ (read k).conflicts k = []

/-- A page of a scan over the keys `all`: the pairs of the first of them, and a resume span
    from the first key that remains. Progress is made whenever keys remain. -/
def Page (o : ScanOptions) (read : Bytes → Outcome) (all : List Bytes) : Except ScanErr ScanResult → Prop
  | .ok res => ∃ done rest, all = done ++ rest ∧ (∀ k ∈ done, Clean read k) ∧
      res.kvs = done.flatMap (fun k => (read k).pairs o) ∧ res.resumeSpan = rest.head?.map (resumeSpan o) ∧
      (rest ≠ [] → done ≠ [] ∧ o.Limited)
  | .error err => (∃ k ∈ all, ¬ Clean read k) ∨ ∃ e, err = .failed e ∧ RowError o e

/-- An output that holds what the keys `done` add, with no limit hit. -/
structure Collected (o : ScanOptions) (read : Bytes → Outcome) (done : List Bytes) (out : Out) : Prop where
  kvs : out.kvs = done.flatMap fun k => (read k).pairs o
  intents : out.intents = done.flatMap fun k => (read k).conflicts k
  ok : ∀ k ∈ done, (read k).failed = false
  resumeReason : out.resumeReason = none
  resumeKey : out.resumeKey = []
  resumeNextBytes : out.resumeNextBytes = 0
  err : out.err = none

theorem Collected.empty : Collected o read [] .empty := ⟨rfl, rfl, by simp, rfl, rfl, rfl, rfl⟩

theorem Collected.clean (h : Collected o read done out) (hnone : out.intents = []) :
    ∀ k ∈ done, Clean read k := by
  intro k hk
  refine ⟨h.ok k hk, ?_⟩
  exact flatMap_eq_nil_iff.mp (h.intents.symm.trans hnone) k hk

/-- A scan with intents in its output reports them. -/
theorem Collected.page_of_intents {all : List Bytes} {r : Out × Option (List Bytes)}
    (h : Collected o read done out) (hne : out.intents ≠ []) (herr : r.1.err = none)
    (hintents : r.1.intents ≠ []) (hall : ∀ k ∈ done, k ∈ all) : Page o read all (finish o r) := by
  unfold finish
  rw [herr]
  simp only [hintents, if_false]
  have hex : ∃ k ∈ done, (read k).conflicts k ≠ [] := by
    by_contra hno
    push Not at hno
    exact hne (h.intents.trans (flatMap_eq_nil_iff.mpr hno))
  obtain ⟨k, hk, hconflicts⟩ := hex
  exact .inl ⟨k, hall k hk, fun hclean => hconflicts hclean.2⟩

/-- Where a list of pairs was cut, the list of keys can be cut. -/
theorem flatMap_cut {α β : Type} {f : α → List β} : ∀ {l : List α} {bs : List β} {b : β} {cs : List β},
    (∀ a ∈ l, (f a).length ≤ 1) → l.flatMap f = bs ++ b :: cs →
    ∃ front a back, l = front ++ a :: back ∧ front.flatMap f = bs ∧ b ∈ f a
  | [], bs, b, cs, _, h => by simp at h
  | a :: l, bs, b, cs, hf, h => by
    have hfa := hf a mem_cons_self
    have hfl := (forall_mem_cons.mp hf).2
    rw [flatMap_cons] at h
    match hfa' : f a, hfa with
    | [], _ =>
      rw [hfa', nil_append] at h
      obtain ⟨front, a', back, rfl, hfront, hb⟩ := flatMap_cut hfl h
      exact ⟨a :: front, a', back, rfl, by simp [hfa', hfront], hb⟩
    | [c], _ =>
      rw [hfa'] at h
      cases bs with
      | nil =>
        obtain ⟨rfl, _⟩ := List.cons.inj h
        exact ⟨[], a, l, rfl, rfl, by simp [hfa']⟩
      | cons c' bs =>
        obtain ⟨rfl, htail⟩ := List.cons.inj h
        obtain ⟨front, a', back, rfl, hfront, hb⟩ := flatMap_cut hfl (show l.flatMap f = bs ++ b :: cs from htail)
        exact ⟨a :: front, a', back, rfl, by simp [hfa', hfront], hb⟩

theorem Collected.snoc (h : Collected o read done out) (hok : (read k).failed = false) : Collected o read (done ++ [k])
      { out with kvs := out.kvs ++ (read k).pairs o, intents := out.intents ++ (read k).conflicts k } where
  kvs := by simp [h.kvs]
  intents := by simp [h.intents]
  ok := forall_mem_append.mpr ⟨h.ok, forall_mem_singleton.mpr hok⟩
  resumeReason := h.resumeReason
  resumeKey := h.resumeKey
  resumeNextBytes := h.resumeNextBytes
  err := h.err

section
variable {done ks : List Bytes} {k : Bytes} {out : Out}

/-- The page of a scan that reached its last key. -/
theorem Collected.page_end (h : Collected o read done out) : Page o read done (finish o (out, none)) := by
  by_cases hintents : out.intents = []
  · simp only [finish, h.err, hintents, if_true, scanResult, h.resumeReason]
    exact ⟨done, [], by simp, h.clean hintents, h.kvs, rfl, by simp⟩
  · exact h.page_of_intents hintents h.err hintents fun _ => id

/-- The page of a scan that stopped after the pair of the last of its keys. -/
theorem Collected.page_stopsAfter (h : Collected o read done out) (hne : done ≠ []) (hlimit : o.Limited)
    (reason : ResumeReason) (ks : List Bytes) :
    Page o read (done ++ ks) (finish o ({ out with resumeReason := some reason }, some ks)) := by
  by_cases hintents : out.intents = []
  · simp only [finish, h.err, hintents, if_true, scanResult, h.resumeKey, Option.isNone_some, Bool.false_eq_true,
      if_false, ne_eq, not_true_eq_false]
    refine ⟨done, ks, rfl, h.clean hintents, ?_, ?_, fun _ => ⟨hne, hlimit⟩⟩
    · cases ks <;> exact h.kvs
    · cases ks <;> rfl
  · exact h.page_of_intents hintents h.err hintents fun _ => mem_append_left _

/-- The page of a scan that stopped before the pair of `k`, and removed pairs. -/
theorem Collected.page_stopsBefore (h : Collected o read done out) (hkey : ∀ k kv, read k = .emit kv → kv.key.key = k)
    (hkeys : ∀ k' ∈ done ++ k :: ks, k' ≠ []) (hlimit : o.Limited) {kept removed : List KV}
    (hkvs : out.kvs = kept ++ removed) (hkept : kept ≠ []) (reason : ResumeReason) (bytes : Nat) :
    Page o read (done ++ k :: ks) (finish o ({ out with
      kvs := kept, resumeReason := some reason, resumeNextBytes := bytes,
      resumeKey := (removed.head?.map fun kv => kv.key.key).getD k }, some ks)) := by
  by_cases hintents : out.intents = []
  · -- The keys are cut where the pairs were.
    have hcut : ∃ front back, done ++ k :: ks = front ++ (removed.head?.map fun kv => kv.key.key).getD k :: back ∧
        front.flatMap (fun k => (read k).pairs o) = kept ∧ ∀ k' ∈ front, k' ∈ done := by
      cases removed with
      | nil => exact ⟨done, ks, rfl, by rw [← h.kvs, hkvs, append_nil], fun _ => id⟩
      | cons kv removed =>
        have hlength : ∀ k' ∈ done, ((read k').pairs o).length ≤ 1 := fun k' _ => (pairs_key (hkey k')).1
        obtain ⟨front, k', back, rfl, hfront, hkv⟩ := flatMap_cut hlength (h.kvs.symm.trans hkvs)
        refine ⟨front, back ++ k :: ks, ?_, hfront, fun _ => mem_append_left _⟩
        rw [← (pairs_key (hkey k')).2 kv hkv]
        simp
    obtain ⟨front, back, hall, hfront, hmem⟩ := hcut
    have hresume := hkeys _ (hall ▸ mem_append_right front mem_cons_self)
    simp only [finish, h.err, hintents, if_true, scanResult, Option.isNone_some, Bool.false_eq_true, if_false, hresume,
      ne_eq, not_false_eq_true]
    refine ⟨front, _, hall, fun k' hk' => h.clean hintents k' (hmem k' hk'), hfront.symm, rfl, fun _ => ⟨?_, hlimit⟩⟩
    rintro rfl
    exact hkept hfront.symm
  · exact h.page_of_intents hintents h.err hintents fun _ => mem_append_left _

end

theorem runKeys_page (hallow : o.allowEmpty = false) (hkey : ∀ k kv, read k = .emit kv → kv.key.key = k) :
    ∀ (ks done : List Bytes) {out : Out}, Collected o read done out → (∀ k ∈ done ++ ks, k ≠ []) →
    Page o read (done ++ ks) (finish o (runKeys o read ks out))
  | [], done, out, h, _ => by
    rw [append_nil]
    exact h.page_end
  | k :: ks, done, out, h, hkeys => by
    have hmem : k ∈ done ++ k :: ks := by simp
    have happly := applyOutcome_applied hallow (hkey k) h.resumeReason h.resumeNextBytes
    rw [runKeys]
    generalize applyOutcome o k out (read k) = r at happly
    cases happly with
    | continues hok =>
      rw [append_cons] at hkeys ⊢
      exact runKeys_page hallow hkey ks (done ++ [k]) (h.snoc hok) hkeys
    | stopsAfter hok hconflicts hlimit reason =>
      have h' := (h.snoc hok).page_stopsAfter (by simp) hlimit reason ks
      rw [hconflicts, append_nil] at h'
      rw [append_cons]
      exact h'
    | stopsBefore hkvs hkept hlimit reason bytes =>
      exact h.page_stopsBefore hkey hkeys hlimit hkvs hkept reason bytes
    | fails hout herr =>
      simp only [finish, hout]
      rcases herr with hfailed | hrow
      · exact .inl ⟨k, hmem, fun hclean => by simp [hclean.1] at hfailed⟩
      · exact .inr ⟨_, rfl, hrow⟩
    | conflicts hconflicts reason =>
      simp only [finish, h.err, append_eq_nil_iff, hconflicts, and_false, if_false]
      exact .inl ⟨k, hmem, fun hclean => hconflicts hclean.2⟩

end

/-! The keys of a page. -/

def ScanOptions.within (o : ScanOptions) (sp : Span) : ScanOptions := { o with start := sp.key, stop := sp.endKey }

/-- The resume span at a key of a scan holds that key and those that follow it. -/
theorem userKeys_resume {o : ScanOptions} {e : Engine} {done rest : List Bytes} {k : Bytes}
    (h : e.userKeys o = done ++ k :: rest) : e.userKeys (o.within (resumeSpan o k)) = k :: rest := by
  have hordered : (e.userKeys o).Pairwise (Before o) := userKeys_ordered
  have hordered' : (e.userKeys (o.within (resumeSpan o k))).Pairwise (Before o) :=
    userKeys_ordered (o := o.within (resumeSpan o k))
  have hmem := fun x => mem_userKeys (o := o) (e := e) (k := x)
  rw [h] at hordered hmem
  obtain ⟨_, hrest, hdone⟩ := pairwise_append.mp hordered
  have hk := ((hmem k).mp (by simp)).1
  refine eq_of_pairwise (fun a b hab hba => before_irrefl a (hab.trans hba)) hordered' hrest fun x => ?_
  -- The span holds what is not before the key.
  have hspan : ((o.within (resumeSpan o k)).start ≤ x ∧ x < (o.within (resumeSpan o k)).stop) ↔
      (o.start ≤ x ∧ x < o.stop) ∧ ¬ Before o x k := by
    unfold Before
    cases hreverse : o.reverse with
    | false =>
      simp only [resumeSpan, hreverse, Bool.false_eq_true, if_false, not_lt]
      exact ⟨fun hx => ⟨⟨hk.1.trans hx.1, hx.2⟩, hx.1⟩, fun hx => ⟨hx.2, hx.1.2⟩⟩
    | true =>
      simp only [ScanOptions.within, resumeSpan, hreverse, if_true, lt_append_zero_iff, not_lt]
      exact ⟨fun hx => ⟨⟨hx.1, hx.2.trans_lt hk.2⟩, hx.2⟩, fun hx => ⟨hx.1.1, hx.2⟩⟩
  rw [mem_userKeys, hspan, and_right_comm, ← hmem x, mem_append]
  constructor
  · rintro ⟨hx | hx, hnot⟩
    · exact absurd (hdone x hx k mem_cons_self) hnot
    · exact hx
  refine fun hx => ⟨.inr hx, fun hbefore => ?_⟩
  rcases mem_cons.mp hx with rfl | hx
  · exact before_irrefl _ hbefore
  · exact before_irrefl _ (hbefore.trans ((pairwise_cons.mp hrest).1 x hx))

/-! All pages. -/

/-- The iterator a page is given: where it is, and how many iterations it makes before a seek. -/
structure PageIter (o : ScanOptions) where
  parent : Cursor MVCCKey
  changed : Bool
  iters : Nat
  iters_le : iters ≤ o.maxItersBeforeSeek

/-- Scan a span, then the resume spans that are returned, at most `n` times in all. -/
def scanPages (o : ScanOptions) (e : Engine) (its : Nat → PageIter o) : Nat → Span →
    Option (Except ScanErr (List (List KV)))
  | 0, _ => none
  | n + 1, sp =>
    match mvccScan (o.within sp) e (its n).parent (its n).changed (its n).iters with
    | .error err => some (.error err)
    | .ok res =>
      match res.resumeSpan with
      | none => some (.ok [res.kvs])
      | some sp' => (scanPages o e its n sp').map (·.map (res.kvs :: ·))

section
variable {o : ScanOptions} {e : Engine} (he : e.Consistent) (hallow : o.allowEmpty = false)
include he hallow

theorem mvccScan_page (it : PageIter o) (sp : Span) : Page (o.within sp) (e.outcome o) (e.userKeys (o.within sp))
    (mvccScan (o.within sp) e it.parent it.changed it.iters) := by
  rw [mvccScan_eq_run (o := o.within sp) he it.parent it.changed it.iters_le]
  have hne : ∀ k ∈ [] ++ e.userKeys (o.within sp), k ≠ [] := by
    intro k hk
    obtain ⟨_, ks, hks⟩ := mem_userKeys.mp hk
    exact he.nonempty k ks hks
  exact runKeys_page (o := o.within sp) hallow (fun _ _ => Engine.outcome_key) _ [] .empty hne

/-- Paging ends, with the pairs of the keys of the span if all of them are clean. -/
theorem scanPages_spec (its : Nat → PageIter o) : ∀ (n : Nat) (sp : Span), (e.userKeys (o.within sp)).length < n →
    ∃ r, scanPages o e its n sp = some r ∧
      match r with
      | .ok pages => (∀ k ∈ e.userKeys (o.within sp), Clean (e.outcome o) k) ∧
          pages.flatten = (e.userKeys (o.within sp)).flatMap fun k => (e.outcome o k).pairs o
      | .error err => (∃ k ∈ e.userKeys (o.within sp), ¬ Clean (e.outcome o) k) ∨ ∃ e', err = .failed e' ∧ RowError o e'
  | 0, _, hn => absurd hn (Nat.not_lt_zero _)
  | n + 1, sp, hn => by
    have hpage := mvccScan_page he hallow (its n) sp
    rw [scanPages]
    generalize mvccScan (o.within sp) e (its n).parent (its n).changed (its n).iters = r at hpage
    cases r with
    | error err => exact ⟨_, rfl, hpage⟩
    | ok res =>
      obtain ⟨done, rest, hall, hclean, hkvs, hresume, hprogress⟩ := hpage
      cases rest with
      | nil =>
        simp only [hresume, head?_nil]
        rw [append_nil] at hall
        refine ⟨_, rfl, hall ▸ hclean, ?_⟩
        rw [hall, flatten_singleton, hkvs]
        rfl
      | cons k rest =>
        simp only [hresume, head?_cons, Option.map_some]
        have hkeys : e.userKeys (o.within (resumeSpan (o.within sp) k)) = k :: rest := userKeys_resume hall
        have hlength : (k :: rest).length < n := by
          have hdone := length_pos_of_ne_nil (hprogress (by simp)).1
          rw [hall, length_append] at hn
          omega
        obtain ⟨r, hr, hspec⟩ := scanPages_spec its n _ (hkeys ▸ hlength)
        rw [hkeys] at hspec
        rw [hr, hall]
        refine ⟨_, rfl, ?_⟩
        cases r with
        | error err =>
          refine hspec.imp ?_ id
          rintro ⟨k', hk', hdirty⟩
          exact ⟨k', mem_append_right _ hk', hdirty⟩
        | ok pages =>
          refine ⟨forall_mem_append.mpr ⟨hclean, hspec.1⟩, ?_⟩
          rw [flatten_cons, hspec.2, hkvs, flatMap_append]
          rfl

end

def ScanOptions.unlimited (o : ScanOptions) : ScanOptions := { o with maxKeys := 0, targetBytes := 0 }

theorem not_limited_unlimited (o : ScanOptions) : ¬ o.unlimited.Limited := by
  simp [ScanOptions.Limited, ScanOptions.unlimited]

/-- Scanning page by page ends, whatever the limits and the iterators of the pages. If no
    page fails, neither does the scan without limits, and it returns the pages together. If
    a page fails, so does the scan without limits, unless a row was larger than allowed. -/
theorem scan_by_pages (o : ScanOptions) (e : Engine) (he : e.Consistent) (hallow : o.allowEmpty = false)
    (its : Nat → PageIter o) (it : PageIter o) (n : Nat) (hn : (e.userKeys o).length < n) :
    ∃ r, scanPages o e its n ⟨o.start, o.stop⟩ = some r ∧
      match r with
      | .ok pages => ∃ res, mvccScan o.unlimited e it.parent it.changed it.iters = .ok res ∧
          res.resumeSpan = none ∧ res.kvs = pages.flatten
      | .error err => (∃ err', mvccScan o.unlimited e it.parent it.changed it.iters = .error err') ∨
          ∃ e', err = .failed e' ∧ RowError o e' := by
  obtain ⟨r, hr, hspec⟩ := scanPages_spec he hallow its n ⟨o.start, o.stop⟩ hn
  refine ⟨r, hr, ?_⟩
  have hpage : Page o.unlimited (e.outcome o) (e.userKeys o) (mvccScan o.unlimited e it.parent it.changed it.iters) :=
    mvccScan_page (o := o.unlimited) he hallow ⟨it.parent, it.changed, it.iters, it.iters_le⟩ ⟨o.start, o.stop⟩
  generalize mvccScan o.unlimited e it.parent it.changed it.iters = all at hpage
  cases all with
  | error err =>
    -- The scan without limits met a key that is not clean, so a page did too.
    rcases hpage with ⟨k, hk, hdirty⟩ | ⟨_, _, _, hlimit, _⟩
    · cases r with
      | error err' => exact .inl ⟨err, rfl⟩
      | ok pages => exact absurd (hspec.1 k hk) hdirty
    · exact absurd hlimit (not_limited_unlimited o)
  | ok res =>
    obtain ⟨done, rest, hall, hclean, hkvs, hresume, hprogress⟩ := hpage
    have hrest : rest = [] := by
      by_contra hne
      exact not_limited_unlimited o (hprogress hne).2
    rw [hrest, append_nil] at hall
    subst hall
    cases r with
    | error err' =>
      rcases hspec with ⟨k, hk, hdirty⟩ | hrow
      · exact absurd (hclean k hk) hdirty
      · exact .inr hrow
    | ok pages => exact ⟨res, rfl, by rw [hresume, hrest]; rfl, hkvs.trans hspec.2.symm⟩

/-- Pages of one pair, from the end. -/
def onePair : ScanOptions := { reverseScan with maxKeys := 1 }

def freshIter : PageIter onePair := ⟨.before, false, 5, by decide⟩

theorem scan_by_pages_threeKeys : ∃ r, scanPages onePair threeKeys (fun _ => freshIter) 4 ⟨[0x61], [0x7a]⟩ = some r ∧
    match r with
    | .ok pages => ∃ res, mvccScan onePair.unlimited threeKeys .before false 5 = .ok res ∧
        res.resumeSpan = none ∧ res.kvs = pages.flatten
    | .error err => (∃ err', mvccScan onePair.unlimited threeKeys .before false 5 = .error err') ∨
        ∃ e', err = .failed e' ∧ RowError onePair e' :=
  scan_by_pages onePair threeKeys threeKeys_consistent rfl (fun _ => freshIter) freshIter 4 (by decide +kernel)

example : scanPages onePair threeKeys (fun _ => freshIter) 4 ⟨[0x61], [0x7a]⟩ =
    some (.ok [[⟨⟨[0x63], 2⟩, [3]⟩], [⟨⟨[0x61], 2⟩, [2]⟩]]) := by decide +kernel

end Ratel.Storage
