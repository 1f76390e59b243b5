import Ratel.Json.Tree

/- What the JSON operations do to the tree: which subtree a path leads to after a key
   is set, removed or merged in, or an element appended or replaced, and how large the
   containers can have become. -/
namespace Ratel.JSON

open Ratel.Lib Ratel.Lib.Assoc Ratel.Keys

/-! Descending into a container. -/

theorem descend_object_key (kvs : List (Bytes × JSON)) (k : Bytes) (q : Path) :
    (object kvs).descend (.objectKey k :: q) = (find? k kvs).bind (descend · q) := by
  rw [descend_cons, find?_children_object]

@[simp] theorem descend_object_index (kvs : List (Bytes × JSON)) (i : UInt32) (q : Path) :
    (object kvs).descend (.arrayIndex i :: q) = none := by
  rw [descend_cons, find?_arrayIndex_object]
  rfl

variable {xs : List JSON} {n m : Nat} {kvs : List (Bytes × JSON)} {v : JSON}

theorem descend_array_index (h : xs.length ≤ 2 ^ 32) (i : UInt32) (q : Path) :
    (array xs).descend (.arrayIndex i :: q) = (xs[i.toNat]?).bind (descend · q) := by
  rw [descend_cons, find?_children_array h]

theorem descend_elem (h : xs.length ≤ 2 ^ 32) {idx : Nat} (hidx : idx < xs.length) :
    (array xs).descend [.arrayIndex (UInt32.ofNat idx)] = xs[idx]? := by
  rw [descend_array_index h, UInt32.toNat_ofNat', Nat.mod_eq_of_lt (by omega)]
  cases xs[idx]? <;> simp

@[simp] theorem descend_array_key (xs : List JSON) (k : Bytes) (q : Path) :
    (array xs).descend (.objectKey k :: q) = none := by
  rw [descend_cons, find?_objectKey_array]
  rfl

@[simp] theorem descend_header (j : JSON) (q : Path) : j.descend (.header :: q) = none := by
  rw [descend_cons, find?_header]
  rfl

/-! Members. -/

theorem setKey_create (key : Bytes) (v : JSON) : ∀ kvs : List (Bytes × JSON), setKey key v true kvs = insert key v kvs
  | [] => rfl
  | (k, w) :: kvs => by
    rw [setKey, Assoc.insert, setKey_create key v kvs]
    by_cases hlt : k < key
    · simp [hlt]
    · by_cases he : k = key <;> simp [hlt]

theorem setKey_keep (key : Bytes) (v : JSON) : ∀ kvs : List (Bytes × JSON),
    setKey key v false kvs = if (find? key kvs).isSome then insert key v kvs else kvs
  | [] => rfl
  | (k, w) :: kvs => by
    rw [setKey, Assoc.insert, find?, setKey_keep key v kvs]
    by_cases hlt : k < key
    · simp only [if_pos hlt]
      split <;> rfl
    · by_cases he : k = key <;> simp [hlt, he]

/-! Sizes. -/

theorem bounded_elem (h : Bounded n (array xs)) {x : JSON} (hx : x ∈ xs) :
    Bounded n x := by
  cases h with
  | array _ h => exact h x hx

theorem bounded_member (h : Bounded n (object kvs)) {kv : Bytes × JSON} (hkv : kv ∈ kvs) : Bounded n kv.2 := by
  cases h with
  | object _ _ h => exact h kv hkv

theorem bounded_ascending (h : Bounded n (object kvs)) :
    Ascending kvs := by
  cases h with
  | object _ hasc _ => exact hasc

theorem length_insert_le (k : Bytes) (v : JSON) (kvs : List (Bytes × JSON)) :
    (insert k v kvs).length ≤ kvs.length + 1 := by
  rw [Ascending.length_insert]
  split <;> omega

theorem bounded_insert (h : Bounded n (object kvs))
    (hv : Bounded m v) (hnm : n + 1 ≤ m) (k : Bytes) : Bounded m (object (insert k v kvs)) := by
  have hlen := length_insert_le k v kvs
  have hkvs : kvs.length ≤ n := h.len_le
  refine .object (by omega) (bounded_ascending h).insert fun kv hkv => ?_
  rcases Ascending.mem_insert hkv with rfl | hkv
  · exact hv
  · exact (bounded_member h hkv).mono (by omega)

theorem bounded_erase (h : Bounded n (object kvs)) (k : Bytes) :
    Bounded n (object (erase k kvs)) := by
  have hsub : (erase k kvs).Sublist kvs := by
    rw [(bounded_ascending h).erase_eq_filter]
    exact List.filter_sublist
  have hkvs : kvs.length ≤ n := h.len_le
  exact .object (hsub.length_le.trans hkvs) (bounded_ascending h).erase fun kv hkv => bounded_member h (hsub.subset hkv)

theorem bounded_merge {left right : List (Bytes × JSON)} (hl : Bounded n (object left))
    (hr : Bounded n (object right)) : Bounded (2 * n) (object (merge left right)) := by
  have hlen := (bounded_ascending hl).length_merge_le (bounded_ascending hr)
  have hll : left.length ≤ n := hl.len_le
  have hrl : right.length ≤ n := hr.len_le
  refine .object (by omega) ((bounded_ascending hl).merge (bounded_ascending hr)) fun kv hkv => ?_
  rcases Ascending.mem_merge hkv with hm | hm
  · exact (bounded_member hl hm).mono (by omega)
  · exact (bounded_member hr hm).mono (by omega)

theorem bounded_array (hlen : xs.length ≤ m) (h : ∀ x ∈ xs, Bounded m x) :
    Bounded m (array xs) := .array hlen h

theorem bounded_setKey (h : Bounded n (object kvs))
    (hv : Bounded m v) (hnm : n + 1 ≤ m) (k : Bytes) (createMissing : Bool) :
    Bounded m (object (setKey k v createMissing kvs)) := by
  cases createMissing with
  | true =>
    rw [setKey_create]
    exact bounded_insert h hv hnm k
  | false =>
    rw [setKey_keep]
    split
    · exact bounded_insert h hv hnm k
    · exact h.mono (by omega)

theorem bounded_setValKeyOrIdx {j j' : JSON} (hj : Bounded n j) (hv : Bounded m v)
    (hnm : n + 1 ≤ m) {key : Bytes} {createMissing : Bool}
    (h : j.setValKeyOrIdx key v createMissing = .ok j') : Bounded m j' := by
  cases j with
  | scalar s =>
    cases h
    exact .scalar s
  | object kvs =>
    cases h
    exact bounded_setKey hj hv hnm key createMissing
  | array xs =>
    have hlen : xs.length ≤ n := hj.len_le
    have hold : ∀ x ∈ xs, Bounded m x := fun x hx => (bounded_elem hj hx).mono (by omega)
    simp only [setValKeyOrIdx] at h
    cases hi : Strconv.atoi key with
    | error e =>
      rw [hi] at h
      cases h
    | ok idx =>
      rw [hi, bind_ok] at h
      split at h
      · cases h
        exact hj.mono (by omega)
      split at h
      · cases h
        exact bounded_array (by simp; omega) (by simpa using ⟨hv, hold⟩)
      split at h
      · cases h
        exact bounded_array (by simp; omega) (List.forall_mem_append.mpr ⟨hold, List.forall_mem_singleton.mpr hv⟩)
      cases h
      refine bounded_array (by simp; omega) fun x hx => ?_
      rcases List.mem_or_eq_of_mem_set hx with hx | rfl
      · exact hold x hx
      · exact hv

theorem bounded_fetchValKeyOrIdx {j c : JSON} (hj : Bounded n j) {key : Bytes}
    (h : j.fetchValKeyOrIdx key = some c) : Bounded n c := by
  cases j with
  | scalar s => cases h
  | object kvs => exact bounded_member hj (find?_mem h)
  | array xs =>
    simp only [fetchValKeyOrIdx] at h
    split at h
    · cases h
    simp only [fetchValIdx, elemAt?] at h
    split at h
    · exact bounded_elem hj (List.mem_of_getElem? h)
    · cases h

theorem bounded_deepSetLoop (hv : Bounded m v) (hnm : n + 1 ≤ m)
    {createMissing : Bool} : ∀ {path : List Bytes} {j j' : JSON}, Bounded n j →
    j.deepSetLoop path v createMissing = .ok j' → Bounded m j'
  | [], j, j', hj, h => by
    cases h
    exact hj.mono (by omega)
  | [key], j, j', hj, h => bounded_setValKeyOrIdx hj hv hnm h
  | key :: key' :: path, j, j', hj, h => by
    rw [deepSetLoop] at h
    · split at h
      · cases h
        exact hj.mono (by omega)
      rename_i c hc
      cases hs : c.deepSetLoop (key' :: path) v createMissing with
      | error e =>
        rw [hs] at h
        cases h
      | ok sub =>
        rw [hs] at h
        exact bounded_setValKeyOrIdx hj (bounded_deepSetLoop hv hnm (bounded_fetchValKeyOrIdx hj hc) hs) hnm h
    · simp

end Ratel.JSON
