import Ratel.Keys.SubordinateOrder
import Ratel.Json.Basic

/- Documents as ordered trees. A container's children are labelled with path
   segments, array elements by their index and object members by their key, so a
   path leads from a document to at most one of its subtrees (`descend`), and the
   pre-order walk that subordinate storage writes one key-value pair per node of
   (`nodes`) lists each subtree once, at its path, with the paths ascending. -/
namespace Ratel

open Ratel.Lib Ratel.Lib.Assoc Ratel.Keys Segment
open List hiding find?

namespace JSON

/-- A document's children with the segments that address them; an element's index is
    converted to `uint32`. -/
def children : JSON → List (Segment × JSON)
  | scalar _ => []
  | array xs => xs.zipIdx.map fun xi => (.arrayIndex (UInt32.ofNat xi.2), xi.1)
  | object kvs => kvs.map fun kv => (.objectKey kv.1, kv.2)

/-- Induction over documents, one case: a document under its children. -/
theorem children_induct {motive : JSON → Prop} (h : ∀ j : JSON, (∀ sc ∈ j.children, motive sc.2) → motive j)
    (j : JSON) : motive j := by
  induction j with
  | scalar s => exact h _ (by simp [children])
  | array xs ih =>
    refine h _ fun sc hsc => ?_
    obtain ⟨xi, hxi, rfl⟩ := mem_map.mp hsc
    exact ih _ (fst_mem_of_mem_zipIdx hxi)
  | object kvs ih =>
    refine h _ fun sc hsc => ?_
    obtain ⟨kv, hkv, rfl⟩ := mem_map.mp hsc
    exact ih kv hkv

/-- The subtree a path leads to. -/
def descend : JSON → Path → Option JSON
  | j, [] => some j
  | j, s :: r =>
    match find? s j.children with
    | none => none
    | some c => descend c r

@[simp] theorem descend_nil (j : JSON) : j.descend [] = some j := by cases j <;> rfl

theorem descend_cons (j : JSON) (s : Segment) (r : Path) :
    j.descend (s :: r) = (find? s j.children).bind (descend · r) := by
  rw [descend]
  cases find? s j.children <;> rfl

theorem descend_append (j : JSON) (p q : Path) : j.descend (p ++ q) = (j.descend p).bind (descend · q) := by
  induction p generalizing j with
  | nil => simp
  | cons s p ih =>
    rw [cons_append, descend_cons, descend_cons]
    cases find? s j.children with
    | none => rfl
    | some c => simp [ih c]

/-! Well-formed documents. -/

/-- Object keys strictly ascend, and no container has more than `n` children. -/
inductive Bounded (n : Nat) : JSON → Prop
  | scalar (s : Scalar) : Bounded n (scalar s)
  | array {xs : List JSON} (hlen : xs.length ≤ n) (h : ∀ x ∈ xs, Bounded n x) : Bounded n (array xs)
  | object {kvs : List (Bytes × JSON)} (hlen : kvs.length ≤ n) (hasc : Ascending kvs)
      (h : ∀ kv ∈ kvs, Bounded n kv.2) : Bounded n (object kvs)

/-- The number of children a container header of the JSONB format can hold. -/
def containerHeaderLenMask : Nat := 0x1FFFFFFF

/-- A document as the source builds and encodes it: `jsonObject`s sorted and unique
    by key, container lengths within the 29 bits of a container header. -/
abbrev WF (j : JSON) : Prop := Bounded containerHeaderLenMask j

variable {n : Nat} {j : JSON}

theorem Bounded.mono {m : Nat} (hmn : m ≤ n) (h : Bounded m j) : Bounded n j := by
  induction h with
  | scalar s => exact .scalar s
  | array hlen _ ih => exact .array (hlen.trans hmn) ih
  | object hlen hasc _ ih => exact .object (hlen.trans hmn) hasc ih

theorem Bounded.child (h : Bounded n j) {sc : Segment × JSON} (hsc : sc ∈ j.children) : Bounded n sc.2 := by
  cases h with
  | scalar s => simp [children] at hsc
  | array hlen h =>
    obtain ⟨xi, hxi, rfl⟩ := mem_map.mp hsc
    exact h _ (fst_mem_of_mem_zipIdx hxi)
  | object hlen hasc h =>
    obtain ⟨kv, hkv, rfl⟩ := mem_map.mp hsc
    exact h kv hkv

theorem Bounded.len_le (h : Bounded n j) : j.len ≤ n := by
  cases h with
  | scalar s => exact Nat.zero_le _
  | array hlen _ => exact hlen
  | object hlen _ _ => exact hlen

theorem Bounded.descend {c : JSON} (hj : Bounded n j) {r : Path} (h : j.descend r = some c) : Bounded n c := by
  induction r generalizing j with
  | nil =>
    cases h
    exact hj
  | cons s r ih =>
    rw [descend_cons, Option.bind_eq_some_iff] at h
    obtain ⟨c', hc', hr⟩ := h
    exact ih (hj.child (find?_mem hc')) hr

theorem arrayIndex_lt_arrayIndex {a b : Nat} (hab : a < b) (hb : b < 2 ^ 32) :
    arrayIndex (UInt32.ofNat a) < arrayIndex (UInt32.ofNat b) := by
  show rank _ < rank _
  simp only [rank, Prod.Lex.toLex_lt_toLex, lt_irrefl, true_and, UInt32.toNat_ofNat']
  omega

theorem objectKey_lt_objectKey {k l : Bytes} : objectKey k < objectKey l ↔ k < l := by
  show rank _ < rank _ ↔ _
  simp [rank, Prod.Lex.toLex_lt_toLex]

theorem children_array_ascending {xs : List JSON} (h : xs.length ≤ 2 ^ 32) :
    Ascending (array xs).children := by
  refine pairwise_map.mpr ?_
  rw [pairwise_iff_getElem]
  intro a b ha hb hab
  simp only [length_zipIdx] at ha hb
  simp only [getElem_zipIdx, Nat.zero_add]
  exact arrayIndex_lt_arrayIndex hab (by omega)

/-- Children come in segment order. -/
theorem Bounded.children_ascending (hn : n ≤ 2 ^ 32) (h : Bounded n j) :
    Ascending j.children := by
  cases h with
  | scalar s => simp [children, Ascending]
  | array hlen h => exact children_array_ascending (hlen.trans hn)
  | object hlen hasc h =>
    refine pairwise_map.mpr (List.Pairwise.imp ?_ hasc)
    intro a b hab
    exact objectKey_lt_objectKey.mpr hab

/-! Searching a container's children. -/

theorem find?_children_array {xs : List JSON} (h : xs.length ≤ 2 ^ 32) (i : UInt32) :
    find? (.arrayIndex i) (array xs).children = xs[i.toNat]? := by
  apply Option.ext
  intro c
  rw [(children_array_ascending h).find?_eq_some_iff, children, mem_map]
  refine ⟨?_, fun hc => ⟨(c, i.toNat), ?_, by simp⟩⟩
  · rintro ⟨xi, hxi, he⟩
    have hget := mem_zipIdx_iff_getElem?.mp hxi
    have hlt := (List.getElem?_eq_some_iff.mp hget).1
    simp only [Prod.mk.injEq, Segment.arrayIndex.injEq] at he
    rw [← he.1, ← he.2, UInt32.toNat_ofNat', Nat.mod_eq_of_lt (by omega)]
    exact hget
  · exact mem_zipIdx_iff_getElem?.mpr hc

theorem find?_map_objectKey (k : Bytes) : ∀ kvs : List (Bytes × JSON),
    find? (objectKey k) (kvs.map fun kv => (objectKey kv.1, kv.2)) = find? k kvs
  | [] => rfl
  | (l, v) :: kvs => by
    by_cases hlt : l < k
    · simp [find?, objectKey_lt_objectKey, hlt, find?_map_objectKey k kvs]
    · by_cases he : l = k <;> simp [find?, objectKey_lt_objectKey, hlt]

theorem find?_children_object (kvs : List (Bytes × JSON)) (k : Bytes) :
    find? (.objectKey k) (object kvs).children = find? k kvs := find?_map_objectKey k kvs

theorem find?_children_none {s : Segment} (h : ∀ c, (s, c) ∉ j.children) :
    find? s j.children = none := by
  cases hf : find? s j.children with
  | none => rfl
  | some c => exact absurd (find?_mem hf) (h c)

theorem find?_objectKey_array (xs : List JSON) (k : Bytes) :
    find? (.objectKey k) (array xs).children = none :=
  find?_children_none fun c h => by simp [children] at h

theorem find?_arrayIndex_object (kvs : List (Bytes × JSON)) (i : UInt32) :
    find? (.arrayIndex i) (object kvs).children = none :=
  find?_children_none fun c h => by simp [children] at h

theorem children_ne_header {sc : Segment × JSON} (h : sc ∈ j.children) : sc.1 ≠ .header := by
  cases j with
  | scalar s => simp [children] at h
  | array xs =>
    obtain ⟨xi, -, rfl⟩ := mem_map.mp h
    simp
  | object kvs =>
    obtain ⟨kv, -, rfl⟩ := mem_map.mp h
    simp

/-! The pre-order walk. -/

mutual

/-- The nodes of a document rooted at path `p`, in the order in which
    `appendJSONSubordinateEntries` visits them. -/
def nodes (p : Path) : JSON → List (Path × JSON)
  | .scalar s => [(p, .scalar s)]
  | .array xs => (p, .array xs) :: nodesElems p 0 xs
  | .object kvs => (p, .object kvs) :: nodesPairs p kvs

def nodesElems (p : Path) (i : Nat) : List JSON → List (Path × JSON)
  | [] => []
  | x :: xs => nodes (p ++ [.arrayIndex (UInt32.ofNat i)]) x ++ nodesElems p (i + 1) xs

def nodesPairs (p : Path) : List (Bytes × JSON) → List (Path × JSON)
  | [] => []
  | (k, v) :: kvs => nodes (p ++ [.objectKey k]) v ++ nodesPairs p kvs

end

theorem nodesElems_eq (p : Path) : ∀ (xs : List JSON) (i : Nat), nodesElems p i xs =
    ((xs.zipIdx i).map fun xi => (arrayIndex (UInt32.ofNat xi.2), xi.1)).flatMap fun sc => nodes (p ++ [sc.1]) sc.2
  | [], i => by simp [nodesElems]
  | x :: xs, i => by simp [nodesElems, nodesElems_eq p xs (i + 1)]

theorem nodesPairs_eq (p : Path) : ∀ kvs : List (Bytes × JSON), nodesPairs p kvs =
    (kvs.map fun kv => (objectKey kv.1, kv.2)).flatMap fun sc => nodes (p ++ [sc.1]) sc.2
  | [] => by simp [nodesPairs]
  | (k, v) :: kvs => by simp [nodesPairs, nodesPairs_eq p kvs]

/-- A node, then the walks of its children. -/
theorem nodes_eq (p : Path) (j : JSON) :
    nodes p j = (p, j) :: j.children.flatMap fun sc => nodes (p ++ [sc.1]) sc.2 := by
  cases j with
  | scalar s => simp [nodes, children]
  | array xs => rw [nodes, nodesElems_eq, children]
  | object kvs => rw [nodes, nodesPairs_eq, children]

theorem nodes_ne_nil (p : Path) (j : JSON) : nodes p j ≠ [] := by
  rw [nodes_eq]
  simp

theorem nodes_append (p q : Path) (j : JSON) :
    nodes (p ++ q) j = (nodes q j).map fun rc => (p ++ rc.1, rc.2) := by
  induction j using children_induct generalizing q with
  | h j ih =>
    rw [nodes_eq, nodes_eq q, map_cons, map_flatMap]
    refine congrArg _ (flatMap_congr fun sc hsc => ?_)
    rw [append_assoc, ih sc hsc]

variable {j : JSON}

/-- The walk visits each subtree at its path. -/
theorem mem_nodes {n : Nat} (hn : n ≤ 2 ^ 32) (hj : Bounded n j) (p q : Path) (c : JSON) :
    (q, c) ∈ nodes p j ↔ ∃ r, q = p ++ r ∧ j.descend r = some c := by
  induction j using children_induct generalizing p with
  | h j ih =>
    have hasc := hj.children_ascending hn
    rw [nodes_eq, mem_cons, mem_flatMap]
    refine ⟨fun h => ?_, fun h => ?_⟩
    · rcases h with he | ⟨sc, hsc, hq⟩
      · obtain ⟨rfl, rfl⟩ := Prod.mk.inj he
        exact ⟨[], by simp, by simp⟩
      obtain ⟨r, rfl, hr⟩ := (ih sc hsc (hj.child hsc) _).mp hq
      refine ⟨sc.1 :: r, by simp, ?_⟩
      rw [descend_cons, hasc.find?_eq_some_iff.mpr hsc]
      exact hr
    obtain ⟨r, rfl, hr⟩ := h
    cases r with
    | nil => exact .inl (by simpa using hr.symm)
    | cons s r =>
      rw [descend_cons, Option.bind_eq_some_iff] at hr
      obtain ⟨c', hc', hr⟩ := hr
      have hmem := hasc.find?_eq_some_iff.mp hc'
      exact .inr ⟨_, hmem, (ih _ hmem (hj.child hmem) _).mpr ⟨r, by simp, hr⟩⟩

theorem prefix_of_mem_nodes (p : Path) (j : JSON) {rc : Path × JSON} (h : rc ∈ nodes p j) : p <+: rc.1 := by
  have hn := nodes_append p [] j
  rw [append_nil] at hn
  rw [hn] at h
  obtain ⟨qc, -, rfl⟩ := mem_map.mp h
  exact prefix_append _ _

/-- Paths ascend along the walk. -/
theorem nodes_ascending {n : Nat} (hn : n ≤ 2 ^ 32) (hj : Bounded n j) (p : Path) :
    Ascending (nodes p j) := by
  induction j using children_induct generalizing p with
  | h j ih =>
    have hasc := hj.children_ascending hn
    rw [nodes_eq]
    refine pairwise_cons.mpr ⟨fun rc hrc => ?_, pairwise_flatMap.mpr ⟨fun sc hsc => ?_, ?_⟩⟩
    · -- the node itself comes before what is below it
      obtain ⟨sc, -, hrc⟩ := mem_flatMap.mp hrc
      obtain ⟨t, ht⟩ := prefix_of_mem_nodes _ _ hrc
      rw [← ht, append_assoc]
      exact lt_append_cons _ _ _
    · exact ih sc hsc (hj.child hsc) _
    -- different children: the segments decide
    refine List.Pairwise.imp ?_ hasc
    intro sc sc' hlt rc hrc rc' hrc'
    obtain ⟨t, ht⟩ := prefix_of_mem_nodes _ _ hrc
    obtain ⟨t', ht'⟩ := prefix_of_mem_nodes _ _ hrc'
    rw [← ht, ← ht', append_assoc, append_assoc]
    exact ((Parts.of_lt hlt t t').append_left p).lt

theorem not_lt_header (s : Segment) : ¬ s < .header := by
  intro h
  have hr : s.rank < Segment.header.rank := h
  cases s <;> simp [rank, Prod.Lex.toLex_lt_toLex] at hr

theorem find?_header (j : JSON) : find? .header j.children = none := by
  cases hc : j.children with
  | nil => rfl
  | cons sc rest =>
    obtain ⟨s, c⟩ := sc
    have hmem : (s, c) ∈ j.children := by simp [hc]
    have hs : s ≠ .header := children_ne_header hmem
    rw [find?, if_neg (not_lt_header s), if_neg hs]

theorem header_not_mem_of_descend {c : JSON} {r : Path} (h : j.descend r = some c) :
    header ∉ r := by
  induction r generalizing j with
  | nil => simp
  | cons s r ih =>
    rw [descend_cons, Option.bind_eq_some_iff] at h
    obtain ⟨c', hc', hr⟩ := h
    intro hm
    rcases mem_cons.mp hm with rfl | hm
    · rw [find?_header] at hc'
      cases hc'
    · exact ih hr hm

end JSON

end Ratel
