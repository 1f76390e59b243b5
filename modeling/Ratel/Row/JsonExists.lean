import Ratel.Row.JsonAccess

/- The `?`, `?|` and `?&` programs over a document's subordinate entries, against `Exists`
   on the document in memory.

   Entries of the root and of array elements are compared with the key as text, whatever
   their type, so a number or a boolean matches the key that spells it: the program finds
   `'5'` in `5` and in `[5]`, where `Exists` looks for strings only. Proven here: this is the
   one difference, in any order of the entries, and a program that is reset is a new one. -/
namespace Ratel.Row

open Ratel.Lib.Assoc Ratel.Encoding Ratel.Keys Ratel.Rowenc Ratel.Sql List AccessProgram

/-- `Reset` of a program made from `spec`, whose keys and path it keeps. -/
def AccessProgram.reset (spec : AccessSpec) (p : AccessProgram) : AccessProgram :=
  { p with
    sawSubordinate := false
    matched := false
    matchedCount := 0
    keySet := if p.totalKeys > 0 then spec.keys.dedup else p.keySet
    matcher := .new spec.path }

/-- A number or a boolean with the text `k`. -/
def spells (apd : Apd) (k : Bytes) : JSON → Bool
  | .scalar (.string _) => false
  | .scalar s => JSON.asText apd (.scalar s) = some k
  | _ => false

/-- `k` is found in the document by its text only. -/
def spelt (apd : Apd) (j : JSON) (k : Bytes) : Bool :=
  match j with
  | .array xs => xs.any (spells apd k)
  | j => spells apd k j

variable {apd : Apd} {n : Nat} {j c : JSON} {k : Bytes} {os : List Observation}

/-! What a document's entries offer. -/

theorem asText_scalar : nodeKind c = .scalar ∧ (nodeScalar c).bind (JSON.asText apd) = some k ↔
    c.isString k = true ∨ spells apd k c = true := by
  cases c with
  | scalar s => cases s <;> simp [nodeKind, nodeScalar, JSON.isString, spells, JSON.asText]
  | array _ | object _ => simp [nodeKind, JSON.isString, spells]

/-- Of the entries at and below a child of the root, only the child's own offers something. -/
theorem candidate_child (s : Segment) : (∃ o ∈ observations [.header, s] c, existsCandidate apd o = some k) ↔
    existsCandidate apd ⟨[.header, s], nodeKind c, c.len, nodeScalar c⟩ = some k := by
  rw [observations_eq, exists_mem_cons_iff]
  refine or_iff_left ?_
  rintro ⟨o, ho, hc⟩
  obtain ⟨t, _, ho⟩ := mem_flatMap.mp ho
  obtain ⟨pc, hpc, rfl⟩ := mem_map.mp ho
  obtain ⟨rest, hpath⟩ := JSON.prefix_of_mem_nodes _ _ hpc
  simp [existsCandidate, ← hpath, normalizeObserved] at hc

/-- The entries of a document offer what `Exists` finds in it, and what is spelt in it. -/
theorem candidate_iff (hj : j.Bounded n) : (∃ o ∈ observations [.header] j, existsCandidate apd o = some k) ↔
    j.hasKey k = true ∨ spelt apd j k = true := by
  have hchildren : (∃ o ∈ observations [.header] j, existsCandidate apd o = some k) ↔
      existsCandidate apd ⟨[.header], nodeKind j, j.len, nodeScalar j⟩ = some k ∨
        ∃ t ∈ j.children, ∃ o ∈ observations [.header, t.1] t.2, existsCandidate apd o = some k := by
    rw [observations_eq, exists_mem_cons_iff]
    exact or_congr_right ⟨by simp [mem_flatMap]; grind, by simp [mem_flatMap]; grind⟩
  simp only [hchildren, candidate_child]
  cases hj with
  | scalar s =>
    have h := @asText_scalar apd (.scalar s) k
    simpa [JSON.children, existsCandidate, normalizeObserved, nodeKind, JSON.hasKey, spelt] using h
  | @array xs hlen h =>
    have hx : ∀ (x : JSON) (i : UInt32), existsCandidate apd
        ⟨[.header, .arrayIndex i], nodeKind x, x.len, nodeScalar x⟩ = some k ↔ x.isString k = true ∨ spells apd k x = true := by
      intro x i
      rw [← asText_scalar]
      by_cases hk : nodeKind x = .scalar <;> simp [existsCandidate, normalizeObserved, hk]
    have hchild : (∃ t ∈ (JSON.array xs).children, existsCandidate apd
        ⟨[.header, t.1], nodeKind t.2, t.2.len, nodeScalar t.2⟩ = some k) ↔
        ∃ x ∈ xs, x.isString k = true ∨ spells apd k x = true := by
      constructor
      · rintro ⟨t, ht, hc⟩
        obtain ⟨xi, hxi, rfl⟩ := mem_map.mp ht
        exact ⟨xi.1, fst_mem_of_mem_zipIdx hxi, (hx _ _).mp hc⟩
      rintro ⟨x, hmem, hc⟩
      obtain ⟨i, hi⟩ := getElem?_of_mem hmem
      exact ⟨_, mem_map.mpr ⟨(x, i), mem_zipIdx_iff_getElem?.mpr hi, rfl⟩, (hx _ _).mpr hc⟩
    rw [hchild]
    simp [existsCandidate, normalizeObserved, nodeKind, JSON.hasKey, spelt]
    grind
  | @object kvs hlen hasc h =>
    have hfind : (find? k kvs).isSome = true ↔ ∃ v, (k, v) ∈ kvs := by
      simp only [Option.isSome_iff_exists, hasc.find?_eq_some_iff]
    simp [JSON.children, existsCandidate, normalizeObserved, nodeKind, JSON.hasKey, spelt, spells, hfind]

/-! Programs. -/

/-- Some entry offers `k`. -/
def Offered (apd : Apd) (os : List Observation) (k : Bytes) : Prop := ∃ o ∈ os, existsCandidate apd o = some k

theorem offered_cons {o : Observation} :
    Offered apd (o :: os) k ↔ existsCandidate apd o = some k ∨ Offered apd os k := exists_mem_cons_iff ..

namespace AccessProgram

variable {p p' : AccessProgram} {spec : AccessSpec} {o : Observation}

variable (apd p o) in
theorem observeExists_step : (p.observeExists apd o).kind = p.kind ∧ (p.observeExists apd o).key = p.key ∧
    (p.observeExists apd o).sawSubordinate = p.sawSubordinate ∧
    ((p.observeExists apd o).matched = true ↔ p.matched = true ∨ existsCandidate apd o = some p.key) := by
  unfold observeExists
  split <;> simp [*]

variable (apd os) in
theorem run_exists (hkind : p.kind = .exists) : ∃ p', os.foldlM (observe apd) p = .ok p' ∧ p'.kind = .exists ∧
    (p'.sawSubordinate = true ↔ p.sawSubordinate = true ∨ os ≠ []) ∧
    (p'.matched = true ↔ p.matched = true ∨ Offered apd os p.key) := by
  induction os generalizing p with
  | nil => exact ⟨p, rfl, hkind, by simp, by simp [Offered]⟩
  | cons o os ih =>
    have hobs : p.observe apd o = .ok (({ p with sawSubordinate := true } : AccessProgram).observeExists apd o) := by
      simp only [observe, hkind]
    obtain ⟨hkind', hkey, hsaw', hmatched'⟩ := observeExists_step apd { p with sawSubordinate := true } o
    obtain ⟨p', hrun, hk, hsaw, hmatched⟩ := ih (hkind'.trans hkind)
    rw [foldlM_cons, hobs, bind_ok]
    refine ⟨p', hrun, hk, by simp [hsaw, hsaw'], ?_⟩
    rw [hmatched, hmatched', hkey, offered_cons, or_assoc]

variable (apd o) in
/-- An entry strikes the key it offers off the keys still sought. -/
theorem observeExistsSet_step (hnodup : p.keySet.Nodup) : (p.observeExistsSet apd o).keySet.Nodup ∧
    (∀ k, k ∈ (p.observeExistsSet apd o).keySet ↔ k ∈ p.keySet ∧ existsCandidate apd o ≠ some k) ∧
    (p.observeExistsSet apd o).matchedCount + (p.observeExistsSet apd o).keySet.length =
      p.matchedCount + p.keySet.length ∧
    ((p.observeExistsSet apd o).matched = true ↔ p.matched = true ∨ ∃ k ∈ p.keySet, existsCandidate apd o = some k) := by
  unfold observeExistsSet
  cases hc : existsCandidate apd o with
  | none => simp [hnodup]
  | some k =>
    by_cases hk : k ∈ p.keySet
    · have hlen := length_erase_of_mem hk
      have hpos := length_pos_of_mem hk
      simp only [hk, if_true, hnodup.mem_erase_iff]
      refine ⟨hnodup.erase k, fun k' => ?_, by omega, by simp [hk]⟩
      rw [and_comm, ne_comm, ne_eq, ne_eq, Option.some_inj]
    · simp only [hk, if_false]
      refine ⟨hnodup, fun k' => ⟨fun hk' => ⟨hk', ?_⟩, And.left⟩, trivial, by simp [hk]⟩
      rintro ⟨⟩
      exact hk hk'

variable (apd p o) in
theorem observeExistsSet_same : (p.observeExistsSet apd o).kind = p.kind ∧
    (p.observeExistsSet apd o).totalKeys = p.totalKeys ∧
    (p.observeExistsSet apd o).sawSubordinate = p.sawSubordinate := by
  unfold observeExistsSet
  split
  · simp
  · split <;> simp

variable (apd os) in
/-- The keys still sought are those not offered, and each one offered was counted. -/
theorem run_set (hkind : p.kind = .existsAny ∨ p.kind = .existsAll) (hnodup : p.keySet.Nodup) :
    ∃ p', os.foldlM (observe apd) p = .ok p' ∧ p'.kind = p.kind ∧ p'.totalKeys = p.totalKeys ∧
    (p'.sawSubordinate = true ↔ p.sawSubordinate = true ∨ os ≠ []) ∧
    (∀ k, k ∈ p'.keySet ↔ k ∈ p.keySet ∧ ¬ Offered apd os k) ∧
    p'.matchedCount + p'.keySet.length = p.matchedCount + p.keySet.length ∧
    (p'.matched = true ↔ p.matched = true ∨ ∃ k ∈ p.keySet, Offered apd os k) := by
  induction os generalizing p with
  | nil => exact ⟨p, rfl, rfl, rfl, by simp, by simp [Offered], rfl, by simp [Offered]⟩
  | cons o os ih =>
    have hobs : p.observe apd o = .ok (({ p with sawSubordinate := true } : AccessProgram).observeExistsSet apd o) := by
      rcases hkind with hkind | hkind <;> simp only [observe, hkind]
    obtain ⟨hnodup', hmem, hlen, hmatched'⟩ :=
      observeExistsSet_step (p := { p with sawSubordinate := true }) apd o hnodup
    obtain ⟨hkind', htotal', hsaw'⟩ := observeExistsSet_same apd { p with sawSubordinate := true } o
    obtain ⟨p', hrun, hk, ht, hsaw, hset, hcount, hmatched⟩ := ih (hkind'.symm ▸ hkind) hnodup'
    rw [foldlM_cons, hobs, bind_ok]
    refine ⟨p', hrun, hk.trans hkind', ht.trans htotal', by simp [hsaw, hsaw'], fun k => ?_, hcount.trans hlen, ?_⟩
    · rw [hset, hmem, offered_cons, not_or, and_assoc]
    rw [hmatched, hmatched', or_assoc, ← exists_or]
    refine or_congr_right (exists_congr fun k => ?_)
    rw [hmem, offered_cons]
    by_cases hc : existsCandidate apd o = some k <;> simp [hc]

/-- Entries change nothing that `Reset` does not set again. -/
theorem observe_kept (h : p.observe apd o = .ok p') :
    p'.kind = p.kind ∧ p'.key = p.key ∧ p'.totalKeys = p.totalKeys ∧ (p.keySet = [] → p'.keySet = []) := by
  cases hkind : p.kind with
  | «exists» =>
    simp only [observe, hkind, observeExists] at h
    grind
  | existsAny | existsAll =>
    simp only [observe, hkind, observeExistsSet] at h
    grind
  | fetchJSONPath | fetchTextPath =>
    simp only [observe, hkind] at h
    obtain ⟨m, _, h⟩ := exists_of_bind_ok h
    cases h
    simp

theorem reset_run (h : os.foldlM (observe apd) (.new spec) = .ok p) : p.reset spec = .new spec := by
  have hkept : ∀ {os : List Observation} {p₀ : AccessProgram}, os.foldlM (observe apd) p₀ = .ok p →
      p.kind = p₀.kind ∧ p.key = p₀.key ∧ p.totalKeys = p₀.totalKeys ∧ (p₀.keySet = [] → p.keySet = []) := by
    intro os
    induction os with
    | nil =>
      rintro p₀ ⟨⟩
      exact ⟨rfl, rfl, rfl, id⟩
    | cons o os ih =>
      intro p₀ h
      obtain ⟨p₁, h₁, h⟩ := exists_of_bind_ok h
      have hone := observe_kept h₁
      grind
  obtain ⟨hkind, hkey, htotal, hset⟩ := hkept h
  have hkeys : (if p.totalKeys > 0 then spec.keys.dedup else p.keySet) = spec.keys.dedup := by
    split
    · rfl
    next hzero =>
    have hnil : spec.keys.dedup = [] := eq_nil_of_length_eq_zero (by rw [htotal] at hzero; simpa [new] using hzero)
    rw [hset hnil, hnil]
  unfold reset
  rw [hkeys]
  cases p
  simp_all [new]

end AccessProgram

/-- In any order of a document's entries, `?` returns what `Exists` does unless the key is
    only spelt in the document; likewise `?|` and `?&`, if that decides between true and
    false. A program that is reset after a run is as new. -/
theorem exists_programs_iff (apd : Apd) {n : Nat} (j : JSON) (hj : j.Bounded n) (os : List Observation)
    (hos : os.Perm (observations [.header] j)) (key : Bytes) (keys : List Bytes) :
    (runAccess apd { kind := .exists, key := key } os = .ok (.bool (j.hasKey key)) ↔
      (spelt apd j key = true → j.hasKey key = true)) ∧
    (runAccess apd { kind := .existsAny, keys := keys } os = .ok (.bool (keys.any j.hasKey)) ↔
      ((∃ k ∈ keys, spelt apd j k = true) → ∃ k ∈ keys, j.hasKey k = true)) ∧
    (runAccess apd { kind := .existsAll, keys := keys } os = .ok (.bool (keys.all j.hasKey)) ↔
      ((∀ k ∈ keys, j.hasKey k = true ∨ spelt apd j k = true) → ∀ k ∈ keys, j.hasKey k = true)) ∧
    ∀ (spec : AccessSpec) (os' : List Observation) (p : AccessProgram),
      os'.foldlM (observe apd) (.new spec) = .ok p → p.reset spec = .new spec := by
  have hoffered : ∀ k, Offered apd os k ↔ j.hasKey k = true ∨ spelt apd j k = true := fun k => by
    rw [← candidate_iff hj, Offered]
    simp only [hos.mem_iff]
  have hne : os ≠ [] := by
    rintro rfl
    simp [observations, JSON.nodes_ne_nil] at hos
  refine ⟨?_, ?_, ?_, fun _ _ _ => reset_run⟩
  · obtain ⟨p, hrun, hkind, hsaw, hmatched⟩ :=
      run_exists apd os (p := .new { kind := .exists, key := key }) rfl
    simp only [runAccess, hrun, bind_ok, resultDatum, hkind, hsaw.mpr (.inr hne), not_true, if_false,
      Except.ok.injEq, SqlDatum.bool.injEq]
    rw [Bool.eq_iff_iff, hmatched, hoffered]
    simp [new]
  · obtain ⟨p, hrun, hkind, -, hsaw, -, -, hmatched⟩ :=
      run_set apd os (p := .new { kind := .existsAny, keys := keys }) (.inl rfl) (nodup_dedup keys)
    simp only [runAccess, hrun, bind_ok, resultDatum, show p.kind = .existsAny from hkind,
      hsaw.mpr (.inr hne), not_true, if_false, Except.ok.injEq, SqlDatum.bool.injEq]
    rw [Bool.eq_iff_iff, hmatched]
    simp only [new, hoffered, mem_dedup, any_eq_true]
    grind
  obtain ⟨p, hrun, hkind, htotal, hsaw, hset, hcount, -⟩ :=
    run_set apd os (p := .new { kind := .existsAll, keys := keys }) (.inr rfl) (nodup_dedup keys)
  simp only [runAccess, hrun, bind_ok, resultDatum, show p.kind = .existsAll from hkind,
    hsaw.mpr (.inr hne), not_true, if_false, Except.ok.injEq, SqlDatum.bool.injEq]
  have hall : p.matchedCount = p.totalKeys ↔ ∀ k ∈ keys, Offered apd os k := by
    simp only [new, mem_dedup, Nat.zero_add] at htotal hset hcount
    have hnil : p.keySet = [] ↔ ∀ k ∈ keys, Offered apd os k := by
      rw [eq_nil_iff_forall_not_mem]
      grind
    rw [← hnil, ← length_eq_zero_iff]
    omega
  rw [Bool.eq_iff_iff, decide_eq_true_eq, hall]
  simp only [hoffered, all_eq_true]
  grind

/-- In `["a", 1]`, the second entry first. -/
theorem exists_programs_a :
    runAccess plainApd { kind := .exists, key := [97] }
      (observations [.header] (.array [.scalar (.string [97]), .scalar (.number ⟨0, false, 0, 1⟩)])).reverse =
        .ok (.bool true) :=
  (exists_programs_iff plainApd _ (n := 2) (.array (by simp) (by simp [JSON.Bounded.scalar])) _ (reverse_perm _)
    [97] []).1.mpr (by decide)

/-- The program finds `'5'` in the number 5, where `Exists` does not. -/
theorem exists_program_five :
    runAccess plainApd { kind := .exists, key := [53] } (observations [.header] (.scalar (.number ⟨0, false, 0, 5⟩))) =
      .ok (.bool true) ∧ JSON.hasKey (.scalar (.number ⟨0, false, 0, 5⟩)) [53] = false := by
  decide

end Ratel.Row
