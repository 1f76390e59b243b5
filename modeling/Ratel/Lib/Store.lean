import Ratel.Lib.SortedAssoc

/- An ordered key-value store and the write batches that change it, as a library:
   point reads, range scans, and batches of puts, conditional puts, deletes and range
   deletes applied in order. A batch is described key by key, by what it makes of the
   value a key had before (`effects`); a store is determined by its point reads
   (`Store.ext_get`), and so is any scan (`Store.scan_eq_iff`). -/
namespace Ratel.Lib

open Assoc
open List hiding find?

variable {κ β : Type} [LinearOrder κ]

/-- A finite map listed in key order. -/
structure Store (κ β : Type) [LinearOrder κ] where
  entries : List (κ × β)
  ascending : Ascending entries

namespace Store

def empty : Store κ β := ⟨[], by simp [Ascending]⟩

def get (s : Store κ β) (k : κ) : Option β := find? k s.entries

def put (s : Store κ β) (k : κ) (v : β) : Store κ β := ⟨insert k v s.entries, s.ascending.insert⟩

def del (s : Store κ β) (k : κ) : Store κ β := ⟨erase k s.entries, s.ascending.erase⟩

/-- Remove the keys of `[lo, hi)`. -/
def delRange (s : Store κ β) (lo hi : κ) : Store κ β :=
  ⟨s.entries.filter fun kv => ! (decide (lo ≤ kv.1) && decide (kv.1 < hi)), s.ascending.filter _⟩

/-- The entries of `[lo, hi)` in key order. -/
def scan (s : Store κ β) (lo hi : κ) : List (κ × β) :=
  s.entries.filter fun kv => decide (lo ≤ kv.1) && decide (kv.1 < hi)

variable {s : Store κ β} {k : κ}

@[ext] theorem ext_get {t : Store κ β} (h : ∀ k, s.get k = t.get k) : s = t := by
  obtain ⟨l, hl⟩ := s
  obtain ⟨m, hm⟩ := t
  have : l = m := hl.ext hm h
  subst this
  rfl

@[simp] theorem get_empty (k : κ) : (empty : Store κ β).get k = none := rfl

theorem get_put (s : Store κ β) (k k' : κ) (v : β) :
    (s.put k v).get k' = if k' = k then some v else s.get k' := Ascending.find?_insert k' s.entries

theorem get_del (s : Store κ β) (k k' : κ) : (s.del k).get k' = if k' = k then none else s.get k' :=
  Ascending.find?_erase k' s.ascending

theorem get_delRange (s : Store κ β) (lo hi k : κ) :
    (s.delRange lo hi).get k = if lo ≤ k ∧ k < hi then none else s.get k := by
  have h := s.ascending.find?_filter (fun k' => ! (decide (lo ≤ k') && decide (k' < hi))) k
  refine h.trans ?_
  by_cases hin : lo ≤ k ∧ k < hi
  · simp [hin]
  · rw [if_neg hin, if_pos (by rw [not_and_or] at hin; simpa using hin)]
    rfl

theorem scan_ascending (s : Store κ β) (lo hi : κ) : Ascending (s.scan lo hi) := s.ascending.filter _

theorem find?_scan (s : Store κ β) (lo hi k : κ) :
    find? k (s.scan lo hi) = if lo ≤ k ∧ k < hi then s.get k else none := by
  have h := s.ascending.find?_filter (fun k' => decide (lo ≤ k') && decide (k' < hi)) k
  refine h.trans ?_
  simp [get]

/-- A scan is the ascending list that finds what the point reads of its range do. -/
theorem scan_eq_iff (s : Store κ β) (lo hi : κ) {l : List (κ × β)} (hl : Ascending l)
    (hrange : ∀ a ∈ l, lo ≤ a.1 ∧ a.1 < hi) :
    s.scan lo hi = l ↔ ∀ k, lo ≤ k → k < hi → s.get k = find? k l := by
  refine ⟨fun h k hlo hhi => ?_, fun h => (s.scan_ascending lo hi).ext hl fun k => ?_⟩
  · rw [← h, find?_scan, if_pos ⟨hlo, hhi⟩]
  rw [find?_scan]
  split
  · next hk => exact h k hk.1 hk.2
  · next hk => exact (hl.find?_eq_none_iff.mpr fun w hw => hk (hrange _ hw)).symm

theorem mem_scan (s : Store κ β) (lo hi : κ) (e : κ × β) :
    e ∈ s.scan lo hi ↔ (lo ≤ e.1 ∧ e.1 < hi) ∧ s.get e.1 = some e.2 := by
  rw [scan, get, s.ascending.find?_eq_some_iff]
  simp [and_comm]

/-- A scan whose first key is present starts with it. -/
theorem scan_of_get (s : Store κ β) {lo hi : κ} {v : β} (hlt : lo < hi) (hv : s.get lo = some v) :
    ∃ rest, s.scan lo hi = (lo, v) :: rest ∧ Ascending rest ∧
      ∀ e, e ∈ rest ↔ (lo < e.1 ∧ e.1 < hi) ∧ s.get e.1 = some e.2 := by
  have hasc := s.scan_ascending lo hi
  have hmem : (lo, v) ∈ s.scan lo hi := (s.mem_scan lo hi _).mpr ⟨⟨le_refl _, hlt⟩, hv⟩
  cases hscan : s.scan lo hi with
  | nil => simp [hscan] at hmem
  | cons e rest =>
    rw [hscan] at hmem hasc
    have he : e = (lo, v) := by
      rcases mem_cons.mp hmem with he | hmem
      · exact he.symm
      · have hle := ((s.mem_scan lo hi e).mp (by simp [hscan])).1.1
        exact absurd (hasc.head_lt hmem) (not_lt.mpr hle)
    subst he
    refine ⟨rest, rfl, hasc.tail, fun e => ⟨fun h => ?_, fun h => ?_⟩⟩
    · have hin := (s.mem_scan lo hi e).mp (by simp [hscan, h])
      exact ⟨⟨hasc.head_lt h, hin.1.2⟩, hin.2⟩
    have hin := (s.mem_scan lo hi e).mpr ⟨⟨le_of_lt h.1.1, h.1.2⟩, h.2⟩
    rw [hscan] at hin
    rcases mem_cons.mp hin with rfl | hin
    · exact absurd h.1.1 (lt_irrefl _)
    · exact hin

theorem entries_put_of_lt (h : ∀ e ∈ s.entries, k < e.1) (v : β) :
    (s.put k v).entries = (k, v) :: s.entries := by
  obtain ⟨l, hl⟩ := s
  cases l with
  | nil => rfl
  | cons e l =>
    have hlt := h e mem_cons_self
    simp [put, Assoc.insert, hlt.not_gt, hlt.ne']

theorem entries_put_head {w : β} {rest : List (κ × β)} (h : s.entries = (k, w) :: rest)
    (v : β) : (s.put k v).entries = (k, v) :: rest := by
  simp [put, h, Assoc.insert]

theorem del_put_of_ne (s : Store κ β) {k' : κ} (h : k ≠ k') (v : β) : (s.put k v).del k' = (s.del k').put k v := by
  ext1 x
  simp only [get_del, get_put]
  split
  · next hx => rw [if_neg (hx ▸ h.symm)]
  · rfl

theorem entries_del_head {w : β} {rest : List (κ × β)} (h : s.entries = (k, w) :: rest) :
    (s.del k).entries = rest := by
  simp [del, h, Assoc.erase]

/-! Sums over the entries. -/

section
variable {M : Type*} [AddCommGroup M] (f : κ → β → M)

def sum (s : Store κ β) : M := (s.entries.map fun e => f e.1 e.2).sum

/-- What one entry contributes, if it is there. -/
def term (s : Store κ β) (k : κ) : M := ((s.get k).map (f k)).getD 0

theorem sum_insert (k : κ) (v : β) : ∀ l : List (κ × β), ((Assoc.insert k v l).map fun e => f e.1 e.2).sum =
    (l.map fun e => f e.1 e.2).sum - ((find? k l).map (f k)).getD 0 + f k v
  | [] => by simp [Assoc.insert, find?]
  | (k', w) :: l => by
    rw [Assoc.insert, find?]
    split
    · rw [map_cons, map_cons, sum_cons, sum_cons, sum_insert k v l]
      abel
    split
    · rename_i heq
      subst heq
      simp only [map_cons, sum_cons, Option.map_some, Option.getD_some]
      abel
    · simp only [map_cons, sum_cons, Option.map_none, Option.getD_none]
      abel

theorem sum_erase (k : κ) : ∀ l : List (κ × β), ((Assoc.erase k l).map fun e => f e.1 e.2).sum =
    (l.map fun e => f e.1 e.2).sum - ((find? k l).map (f k)).getD 0
  | [] => by simp [Assoc.erase, find?]
  | (k', w) :: l => by
    rw [Assoc.erase, find?]
    split
    · rw [map_cons, map_cons, sum_cons, sum_cons, sum_erase k l]
      abel
    split
    · rename_i heq
      subst heq
      simp only [map_cons, sum_cons, Option.map_some, Option.getD_some]
      abel
    · simp

theorem sum_put (s : Store κ β) (k : κ) (v : β) : (s.put k v).sum f = s.sum f - s.term f k + f k v :=
  sum_insert f k v s.entries

theorem sum_del (s : Store κ β) (k : κ) : (s.del k).sum f = s.sum f - s.term f k := sum_erase f k s.entries

end

end Store

/-! Batches. -/

/-- A write request. A conditional put expects its key to be absent. -/
inductive Write (κ β : Type)
  | put (k : κ) (v : β)
  | cput (k : κ) (v : β)
  | del (k : κ)
  | delRange (lo hi : κ)
deriving DecidableEq, Repr

namespace Write

/-- Apply one request; `none` when a conditional put finds its key present. -/
def apply (s : Store κ β) : Write κ β → Option (Store κ β)
  | put k v => some (s.put k v)
  | cput k v => if (s.get k).isSome then none else some (s.put k v)
  | del k => some (s.del k)
  | delRange lo hi => some (s.delRange lo hi)

/-- What a request makes of the value at `k`. -/
def effect (k : κ) (old : Option β) : Write κ β → Option β
  | put k' v => if k = k' then some v else old
  | cput k' v => if k = k' then some v else old
  | del k' => if k = k' then none else old
  | delRange lo hi => if lo ≤ k ∧ k < hi then none else old

def conditional : Write κ β → Bool
  | cput _ _ => true
  | _ => false

theorem get_apply {s t : Store κ β} {w : Write κ β} (h : w.apply s = some t) (k : κ) :
    t.get k = w.effect k (s.get k) := by
  cases w with
  | put k' v =>
    cases h
    exact s.get_put k' k v
  | cput k' v =>
    cases (Option.ite_none_left_eq_some.mp h).2
    exact s.get_put k' k v
  | del k' =>
    cases h
    exact s.get_del k' k
  | delRange lo hi =>
    cases h
    exact s.get_delRange lo hi k

end Write

def applyBatch (s : Store κ β) (ws : List (Write κ β)) : Option (Store κ β) :=
  ws.foldlM (fun s w => w.apply s) s

/-- What a batch makes of the value at `k`. -/
def effects (ws : List (Write κ β)) (k : κ) (old : Option β) : Option β :=
  ws.foldl (fun old w => w.effect k old) old

@[simp] theorem effects_nil (k : κ) (old : Option β) : effects [] k old = old := rfl

theorem effects_cons (w : Write κ β) (ws : List (Write κ β)) (k : κ) (old : Option β) :
    effects (w :: ws) k old = effects ws k (w.effect k old) := rfl

theorem effects_append (ws vs : List (Write κ β)) (k : κ) (old : Option β) :
    effects (ws ++ vs) k old = effects vs k (effects ws k old) := foldl_append

theorem get_applyBatch (k : κ) : ∀ {ws : List (Write κ β)} {s t : Store κ β},
    applyBatch s ws = some t → t.get k = effects ws k (s.get k)
  | [], s, t, h => by
    cases h
    rfl
  | w :: ws, s, t, h => by
    obtain ⟨u, hu, ht⟩ := Option.bind_eq_some_iff.mp h
    rw [get_applyBatch k (show applyBatch u ws = some t from ht), w.get_apply hu, effects_cons]

/-- A batch without conditional puts applies. -/
theorem applyBatch_isSome : ∀ (ws : List (Write κ β)) (s : Store κ β),
    (∀ w ∈ ws, w.conditional = false) → ∃ t, applyBatch s ws = some t
  | [], s, _ => ⟨s, rfl⟩
  | w :: ws, s, h => by
    obtain ⟨u, hu⟩ : ∃ u, w.apply s = some u := by
      have hw := h w mem_cons_self
      cases w with
      | cput k v => simp [Write.conditional] at hw
      | put _ _ | del _ | delRange _ _ => exact ⟨_, rfl⟩
    obtain ⟨t, ht⟩ := applyBatch_isSome ws u (forall_mem_cons.mp h).2
    refine ⟨t, ?_⟩
    rw [applyBatch, foldlM_cons, hu]
    exact ht

/-! Batches that put entries with distinct keys. -/

/-- Putting an ascending list of entries overlays it. -/
theorem effects_put (k : κ) (old : Option β) : ∀ {es : List (κ × β)}, Ascending es →
    effects (es.map fun e => Write.put e.1 e.2) k old = (find? k es).or old
  | [], _ => rfl
  | (k', v) :: es, h => by
    rw [map_cons, effects_cons, effects_put k _ h.tail, h.find?_cons]
    by_cases hk : k = k'
    · subst hk
      simp [Write.effect, h.find?_tail (lt_irrefl _)]
    · simp [Write.effect, hk]

/-- A request that sets the value of an entry's key, conditional or not. -/
def Write.Sets (w : Write κ β) (e : κ × β) : Prop := w = .put e.1 e.2 ∨ w = .cput e.1 e.2

theorem Write.Sets.effect_eq {w : Write κ β} {e : κ × β} (h : w.Sets e) (k : κ) (old : Option β) :
    w.effect k old = if k = e.1 then some e.2 else old := by
  rcases h with rfl | rfl <;> rfl

/-- Setting entries overlays them on what was there. -/
theorem effects_sets {f : κ × β → Write κ β} (hf : ∀ e, (f e).Sets e) (k : κ) (v : β) :
    ∀ {es : List (κ × β)} {old : Option β}, (es.map Prod.fst).Nodup →
    (effects (es.map f) k old = some v ↔ (k, v) ∈ es ∨ (k ∉ es.map Prod.fst ∧ old = some v))
  | [], old, _ => by simp
  | e :: es, old, h => by
    rw [map_cons, nodup_cons] at h
    rw [map_cons, effects_cons, effects_sets hf k v h.2, (hf e).effect_eq]
    obtain ⟨k', v'⟩ := e
    by_cases hk : k = k'
    · subst hk
      have hnot : (k, v) ∉ es := fun hmem => h.1 (mem_map.mpr ⟨(k, v), hmem, rfl⟩)
      simp [hnot, h.1, eq_comm]
    · simp [hk]

/-- Conditional puts of distinct absent keys apply. -/
theorem applyBatch_cput : ∀ (es : List (κ × β)) {s : Store κ β}, (es.map Prod.fst).Nodup →
    (∀ e ∈ es, s.get e.1 = none) → ∃ t, applyBatch s (es.map fun e => Write.cput e.1 e.2) = some t
  | [], s, _, _ => ⟨s, rfl⟩
  | e :: es, s, h, habs => by
    rw [map_cons, nodup_cons] at h
    obtain ⟨t, ht⟩ := applyBatch_cput es (s := s.put e.1 e.2) h.2 (fun e' he' => by
      have hne : e'.1 ≠ e.1 := fun hk => h.1 (hk ▸ mem_map_of_mem he')
      rw [Store.get_put, if_neg hne]
      exact habs e' (mem_cons_of_mem _ he'))
    refine ⟨t, ?_⟩
    rw [map_cons, applyBatch, foldlM_cons, Write.apply, habs e mem_cons_self]
    exact ht

end Ratel.Lib
