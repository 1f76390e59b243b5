import Ratel.Rowenc.Subordinate

/- Reassembling stored values (`pkg/sql/row/subordinate_builders.go`). The JSON
   builder is a trie over decoded paths whose nodes may arrive in any order; the
   array builder a slice that grows to the largest index set. A Go map is an
   association list ascending by key, so listing it is what the source gets by
   sorting the map's keys.

   Proven here: whatever the order in which the entries of a document arrive, the
   builder materializes the document. -/
namespace Ratel.Row

open Ratel.Lib Ratel.Lib.Assoc Ratel.Encoding Ratel.Keys Ratel.Rowenc
open List hiding find?

/-! Arrays. -/

/-- `SubordinateArrayBuilder`: the elements set so far. A set element is a datum, NULL
    (`some none`) or not. -/
abbrev ArrayBuilder := List (Option (Option Bytes))

namespace ArrayBuilder

def set (b : ArrayBuilder) (elemIdx : Nat) (value : Option Bytes) : ArrayBuilder :=
  let elems := if b.length ≤ elemIdx then b ++ List.replicate (elemIdx + 1 - b.length) none else b
  List.set elems elemIdx (some value)

/-- The loop of `Materialize` from element `i` on. -/
def materializeFrom (i : Nat) : ArrayBuilder → Except Err (List (Option Bytes))
  | [] => .ok []
  | none :: _ => errorf "missing subordinate array element %d" [.int i]
  | some elem :: rest => do
    let elems ← materializeFrom (i + 1) rest
    return elem :: elems

def materialize (b : ArrayBuilder) : Except Err (List (Option Bytes)) := materializeFrom 0 b

end ArrayBuilder

/-! Documents. -/

/-- `subordinateJSONNodeBuilder`: the node's kind and scalar once set, and its object
    and array children. -/
inductive NodeBuilder
  | node (value : Option (NodeKind × Option JSON)) (object : List (Bytes × NodeBuilder))
      (array : List (Nat × NodeBuilder))

namespace NodeBuilder

def empty : NodeBuilder := node none [] []

def set : Path → NodeKind × Option JSON → NodeBuilder → NodeBuilder
  | [], kv, node _ o a => node (some kv) o a
  | .header :: path, kv, n => set path kv n
  | .objectKey k :: path, kv, node v o a => node v (insert k (set path kv ((find? k o).getD empty)) o) a
  | .arrayIndex i :: path, kv, node v o a =>
    node v o (insert i.toNat (set path kv ((find? i.toNat a).getD empty)) a)

mutual

def materialize : NodeBuilder → Except Err JSON
  | node none _ _ => errorf "missing subordinate JSON node value"
  | node (some (.scalar, none)) _ _ => errorf "missing subordinate JSON scalar value"
  | node (some (.scalar, some j)) _ _ => .ok j
  | node (some (.object, _)) o _ => do
    let kvs ← materializeObject o
    return .object kvs
  | node (some (.array, _)) _ a => do
    let xs ← materializeArray 0 a
    return .array xs

def materializeObject : List (Bytes × NodeBuilder) → Except Err (List (Bytes × JSON))
  | [] => .ok []
  | (k, n) :: rest => do
    let j ← materialize n
    let kvs ← materializeObject rest
    return (k, j) :: kvs

/-- The loop over `0 .. maxIdx`: the next index listed must be `i`. -/
def materializeArray (i : Nat) : List (Nat × NodeBuilder) → Except Err (List JSON)
  | [] => .ok []
  | (idx, n) :: rest =>
    if idx ≠ i then errorf "missing subordinate JSON array element %d" [.int i]
    else do
      let j ← materialize n
      let xs ← materializeArray (i + 1) rest
      return j :: xs

end

/-- Feed entries, path and node value, to the builder one after another. -/
def setAll (b : NodeBuilder) (es : List (Path × NodeKind × Option JSON)) : NodeBuilder :=
  es.foldl (fun b e => b.set e.1 e.2) b

/-! What a builder holds after a run of entries. -/

def value : NodeBuilder → Option (NodeKind × Option JSON)
  | node v _ _ => v

def child : NodeBuilder → Segment → Option NodeBuilder
  | _, .header => none
  | node _ o _, .objectKey k => find? k o
  | node _ _ a, .arrayIndex i => find? i.toNat a

/-- The maps of the root list in key order, and array indices come from `uint32`s. -/
def Listed : NodeBuilder → Prop
  | node _ o a => Ascending o ∧ Ascending a ∧ ∀ kn ∈ a, kn.1 < 2 ^ 32

theorem value_set_cons {s : Segment} (hs : s ≠ .header) (path : Path) (kv : NodeKind × Option JSON)
    (b : NodeBuilder) : (set (s :: path) kv b).value = b.value := by
  cases b
  cases s <;> simp_all [set, value]

theorem child_set_cons {s : Segment} (hs : s ≠ .header) (path : Path) (kv : NodeKind × Option JSON)
    (b : NodeBuilder) (t : Segment) : (set (s :: path) kv b).child t =
      if t = s then some (set path kv ((b.child s).getD empty)) else b.child t := by
  obtain ⟨v, o, a⟩ := b
  cases s with
  | header => exact absurd rfl hs
  | objectKey k =>
    cases t with
    | header => simp [child]
    | objectKey l => simp [set, child, Ascending.find?_insert]
    | arrayIndex i => simp [set, child]
  | arrayIndex i =>
    cases t with
    | header => simp [child]
    | objectKey l => simp [set, child]
    | arrayIndex i' => simp [set, child, Ascending.find?_insert, UInt32.toNat_inj]

theorem child_set_nil (kv : NodeKind × Option JSON) (b : NodeBuilder) (t : Segment) :
    (set [] kv b).child t = b.child t := by
  cases b
  cases t <;> rfl

theorem value_set_nil (kv : NodeKind × Option JSON) (b : NodeBuilder) : (set [] kv b).value = some kv := by
  cases b
  rfl

theorem listed_set (path : Path) (kv : NodeKind × Option JSON) (b : NodeBuilder) (h : b.Listed) :
    (set path kv b).Listed := by
  induction path with
  | nil =>
    cases b
    exact h
  | cons s path ih =>
    cases s with
    | header =>
      exact ih
    | objectKey k =>
      obtain ⟨v, o, a⟩ := b
      exact ⟨h.1.insert, h.2⟩
    | arrayIndex i =>
      obtain ⟨v, o, a⟩ := b
      refine ⟨h.1, h.2.1.insert, fun kn hkn => ?_⟩
      rcases Ascending.mem_insert hkn with rfl | hkn
      · exact i.toNat_lt
      · exact h.2.2 kn hkn

theorem listed_setAll (es : List (Path × NodeKind × Option JSON)) (b : NodeBuilder) (h : b.Listed) :
    (b.setAll es).Listed := by
  induction es generalizing b with
  | nil => exact h
  | cons e es ih => exact ih _ (listed_set _ _ _ h)

/-- The entries below segment `s`, with it taken off. -/
def strip (s : Segment) (es : List (Path × NodeKind × Option JSON)) : List (Path × NodeKind × Option JSON) :=
  es.filterMap fun e =>
    match e.1 with
    | [] => none
    | t :: path => if t = s then some (path, e.2) else none

/-- A child is built from the entries below its segment. -/
theorem child_setAll (s : Segment) : ∀ (es : List (Path × NodeKind × Option JSON)) (b : NodeBuilder),
    (∀ e ∈ es, Segment.header ∉ e.1) → (b.setAll es).child s =
      if strip s es = [] then b.child s else some (((b.child s).getD empty).setAll (strip s es))
  | [], b, _ => rfl
  | ([], kv) :: es, b, h => by
    have ih := child_setAll s es (set [] kv b) (forall_mem_cons.mp h).2
    rw [child_set_nil] at ih
    exact ih
  | (t :: path, kv) :: es, b, h => by
    have ht : t ≠ .header := fun he => h _ mem_cons_self (by simp [he])
    have ih := child_setAll s es (set (t :: path) kv b) (forall_mem_cons.mp h).2
    rw [child_set_cons ht] at ih
    by_cases hst : t = s
    · subst hst
      have hstrip : strip t ((t :: path, kv) :: es) = (path, kv) :: strip t es := by simp [strip]
      rw [hstrip]
      refine ih.trans ?_
      split
      · rename_i hnil
        simp [hnil, setAll]
      · simp [setAll]
    · have hstrip : strip s ((t :: path, kv) :: es) = strip s es := by simp [strip, hst]
      rw [hstrip]
      rw [if_neg (Ne.symm hst)] at ih
      exact ih

/-- A node's value is what its entries at the empty path agree on. -/
theorem value_setAll {v : NodeKind × Option JSON} : ∀ (es : List (Path × NodeKind × Option JSON))
    (b : NodeBuilder), (∀ e ∈ es, Segment.header ∉ e.1) → (∀ e ∈ es, e.1 = [] → e.2 = v) →
    (b.value = some v ∨ ∃ e ∈ es, e.1 = []) → (b.setAll es).value = some v
  | [], b, _, _, hex => hex.elim id (by simp)
  | ([], kv) :: es, b, h, hv, _ => by
    have hkv : kv = v := hv _ mem_cons_self rfl
    refine value_setAll es _ (forall_mem_cons.mp h).2 (forall_mem_cons.mp hv).2 (.inl ?_)
    rw [value_set_nil, hkv]
  | (t :: path, kv) :: es, b, h, hv, hex => by
    have ht : t ≠ .header := fun he => h _ mem_cons_self (by simp [he])
    refine value_setAll es _ (forall_mem_cons.mp h).2 (forall_mem_cons.mp hv).2 ?_
    rw [value_set_cons ht]
    simpa using hex

end NodeBuilder

/-- The entries of a document as a builder takes them: path, kind and scalar. -/
def entriesOf (j : JSON) : List (Path × NodeKind × Option JSON) :=
  (j.nodes []).map fun pc => (pc.1, nodeKind pc.2, nodeScalar pc.2)

theorem entriesOf_eq (j : JSON) : entriesOf j = ([], nodeKind j, nodeScalar j) ::
    j.children.flatMap fun sc => (entriesOf sc.2).map fun e => (sc.1 :: e.1, e.2) := by
  rw [entriesOf, JSON.nodes_eq, map_cons, map_flatMap]
  refine congrArg _ (flatMap_congr fun sc _ => ?_)
  have hn := JSON.nodes_append [sc.1] [] sc.2
  simp only [append_nil] at hn
  simp only [nil_append, hn, entriesOf, map_map]
  rfl

variable {n : Nat} {j : JSON}

theorem header_not_mem_entriesOf (hn : n ≤ 2 ^ 32) (hj : j.Bounded n)
    {e : Path × NodeKind × Option JSON} (he : e ∈ entriesOf j) : Segment.header ∉ e.1 := by
  obtain ⟨pc, hpc, rfl⟩ := mem_map.mp he
  obtain ⟨r, hr, hd⟩ := (JSON.mem_nodes hn hj [] pc.1 pc.2).mp hpc
  simp only [hr]
  exact JSON.header_not_mem_of_descend hd

/-- The entries below a segment are those of the child there. -/
theorem strip_entriesOf (hn : n ≤ 2 ^ 32) (hj : j.Bounded n) (s : Segment) :
    NodeBuilder.strip s (entriesOf j) = ((find? s j.children).map entriesOf).getD [] := by
  rw [← (hj.children_ascending hn).flatMap_select entriesOf s, entriesOf_eq, NodeBuilder.strip,
    filterMap_cons, filterMap_flatMap]
  refine flatMap_congr fun sc _ => ?_
  by_cases hs : sc.1 = s
  · simp [hs]
  · simp [hs]

/-! Materializing. -/

theorem materializeObject_eq {o : List (Bytes × NodeBuilder)} {kvs : List (Bytes × JSON)}
    (h : List.Forall₂ (fun a b => a.1 = b.1 ∧ a.2.materialize = .ok b.2) o kvs) :
    NodeBuilder.materializeObject o = .ok kvs := by
  induction h with
  | nil => rfl
  | @cons a b o kvs hab _ ih =>
    obtain ⟨hk, hn⟩ := hab
    rw [NodeBuilder.materializeObject, hn, ih, hk]
    rfl

/-- An array's elements listed with their indices. -/
def indexed (i : Nat) (xs : List JSON) : List (Nat × JSON) := (xs.zipIdx i).map fun xi => (xi.2, xi.1)

theorem indexed_ascending : ∀ (xs : List JSON) (i : Nat), Ascending (indexed i xs) ∧ ∀ a ∈ indexed i xs, i ≤ a.1
  | [], i => by simp [indexed, Ascending]
  | x :: xs, i => by
    obtain ⟨hasc, hge⟩ := indexed_ascending xs (i + 1)
    refine ⟨pairwise_cons.mpr ⟨fun a ha => hge a ha, hasc⟩, fun a ha => ?_⟩
    rcases mem_cons.mp ha with rfl | ha
    · exact le_rfl
    · exact le_trans (Nat.le_succ i) (hge a ha)

theorem find?_indexed (xs : List JSON) (i : Nat) : find? i (indexed 0 xs) = xs[i]? := by
  apply Option.ext
  intro c
  rw [(indexed_ascending xs 0).1.find?_eq_some_iff, indexed, mem_map]
  refine ⟨fun ⟨xi, hxi, he⟩ => ?_, fun hc => ⟨(c, i), mem_zipIdx_iff_getElem?.mpr hc, rfl⟩⟩
  rw [← (Prod.mk.inj he).1, ← (Prod.mk.inj he).2]
  exact mem_zipIdx_iff_getElem?.mp hxi

theorem materializeArray_eq : ∀ {xs : List JSON} {i : Nat} {a : List (Nat × NodeBuilder)},
    List.Forall₂ (fun a b => a.1 = b.1 ∧ a.2.materialize = .ok b.2) a (indexed i xs) →
    NodeBuilder.materializeArray i a = .ok xs
  | [], i, a, h => by
    cases h
    rfl
  | x :: xs, i, a, h => by
    cases h with
    | @cons kn _ a _ hab htail =>
      obtain ⟨hk, hn⟩ := hab
      rw [NodeBuilder.materializeArray, if_neg (by simp [hk]), hn, materializeArray_eq htail]
      rfl

/-- Fed with the entries of a document in any order, the builder materializes it. -/
theorem materialize_setAll (hn : n ≤ 2 ^ 32) (hj : j.Bounded n)
    {es : List (Path × NodeKind × Option JSON)} (hes : es.Perm (entriesOf j)) :
    (NodeBuilder.empty.setAll es).materialize = .ok j := by
  induction j using JSON.children_induct generalizing es with
  | h j ih =>
    have hhdr : ∀ e ∈ es, Segment.header ∉ e.1 :=
      fun e he => header_not_mem_entriesOf hn hj (hes.mem_iff.mp he)
    have hlisted : (NodeBuilder.empty.setAll es).Listed :=
      NodeBuilder.listed_setAll es _ ⟨by simp [Ascending], by simp [Ascending], by simp⟩
    -- the root's value
    have hvalue : (NodeBuilder.empty.setAll es).value = some (nodeKind j, nodeScalar j) := by
      refine NodeBuilder.value_setAll es _ hhdr (fun e he hnil => ?_) (.inr ⟨([], nodeKind j, nodeScalar j), ?_, rfl⟩)
      · have hm := hes.mem_iff.mp he
        rw [entriesOf_eq] at hm
        rcases mem_cons.mp hm with rfl | hm
        · rfl
        obtain ⟨sc, -, hm⟩ := mem_flatMap.mp hm
        obtain ⟨e', -, rfl⟩ := mem_map.mp hm
        simp at hnil
      · rw [hes.mem_iff, entriesOf_eq]
        exact mem_cons_self
    -- each child holds the entries of the document's child
    have hchild : ∀ s, Option.Rel (fun (b : NodeBuilder) c => b.materialize = .ok c)
        ((NodeBuilder.empty.setAll es).child s) (find? s j.children) := by
      intro s
      have hempty : NodeBuilder.empty.child s = none := by cases s <;> rfl
      have hstrip := hes.filterMap fun e =>
        match e.1 with
        | [] => none
        | t :: path => if t = s then some (path, e.2) else none
      change (NodeBuilder.strip s es).Perm (NodeBuilder.strip s (entriesOf j)) at hstrip
      rw [strip_entriesOf hn hj] at hstrip
      rw [NodeBuilder.child_setAll s es _ hhdr, hempty]
      cases hc : find? s j.children with
      | none =>
        rw [hc] at hstrip
        rw [if_pos (List.Perm.eq_nil hstrip)]
        exact .none
      | some c =>
        rw [hc] at hstrip
        have hmem := find?_mem hc
        have hne : NodeBuilder.strip s es ≠ [] := by
          intro hnil
          rw [hnil] at hstrip
          have := List.Perm.nil_eq hstrip
          rw [Option.map_some, entriesOf_eq] at this
          cases this
        rw [if_neg hne]
        exact .some (ih _ hmem (hj.child hmem) hstrip)
    generalize NodeBuilder.empty.setAll es = b at hlisted hvalue hchild
    obtain ⟨v, o, a⟩ := b
    subst hvalue
    cases hj with
    | scalar s => rfl
    | object hlen hasc h =>
      have ho := materializeObject_eq (hlisted.1.forall₂ hasc fun k => by
        have := hchild (.objectKey k)
        rwa [JSON.find?_children_object] at this)
      simp only [nodeKind, NodeBuilder.materialize, ho]
      rfl
    | @array xs hlen h =>
      have ha := materializeArray_eq (hlisted.2.1.forall₂ (indexed_ascending xs 0).1 fun i => by
        rw [find?_indexed]
        by_cases hi : i < 2 ^ 32
        · have := hchild (.arrayIndex (UInt32.ofNat i))
          rw [JSON.find?_children_array (hlen.trans hn)] at this
          simpa only [NodeBuilder.child, UInt32.toNat_ofNat', Nat.mod_eq_of_lt hi] using this
        have hnone : find? i a = none :=
          hlisted.2.1.find?_eq_none_iff.mpr fun w hw => hi (hlisted.2.2 _ hw)
        have hout : xs[i]? = none := getElem?_eq_none (by omega)
        rw [hnone, hout]
        exact .none)
      simp only [nodeKind, NodeBuilder.materialize, ha]
      rfl

/-! From stored entries. -/

variable (codec : JsonCodec)

/-- Decode a key-value pair of a JSON column and set it in the builder. -/
def setEntry (b : NodeBuilder) (e : Entry) : Except Err NodeBuilder := do
  let (_, _, path) ← decodeSubordinatePathKey e.1
  let (kind, _, scalar) ← decodeSubordinateJSONValueWithCardinality codec e.2
  return b.set path (kind, scalar)

/-- Decode key-value pairs one after another and materialize the document. -/
def buildFrom (es : List Entry) : Except Err JSON := do
  let b ← es.foldlM (setEntry codec) NodeBuilder.empty
  b.materialize

/-- The stored entry of node `c` at path `p` of a document. -/
def nodeEntry (pk : Bytes) (colID : UInt32) (pc : Path × JSON) : Entry :=
  (makeSubordinatePathKey (makeFamilyKey pk 0) colID pc.1, encodeSubordinateJSONValue codec pc.2)

theorem encodeJSONSubordinateEntriesAtPath_nil (pk : Bytes) (colID : UInt32) (path : Path) (j : JSON) :
    encodeJSONSubordinateEntriesAtPath codec [] (makeFamilyKey pk 0) colID path j =
      (j.nodes path).map (nodeEntry codec pk colID) := rfl

theorem setEntry_nodeEntry (pk : PrimaryKey) (colID : UInt32) {pc : Path × JSON}
    (hfit : suffixLen colID pc.1 ≤ 109) (hlen : pc.2.len < 2 ^ 63) (b : NodeBuilder) :
    setEntry codec b (nodeEntry codec pk.bytes colID pc) = .ok (b.set pc.1 (nodeKind pc.2, nodeScalar pc.2)) := by
  rw [setEntry, nodeEntry, decodeSubordinatePathKey_short pk colID pc.1 hfit,
    decode_encodeSubordinateJSONValue codec hlen]
  rfl

theorem foldlM_setEntry (pk : PrimaryKey) (colID : UInt32) : ∀ (pcs : List (Path × JSON)) (b : NodeBuilder),
    (∀ pc ∈ pcs, suffixLen colID pc.1 ≤ 109 ∧ pc.2.len < 2 ^ 63) →
    (pcs.map (nodeEntry codec pk.bytes colID)).foldlM (setEntry codec) b =
      .ok (b.setAll (pcs.map fun pc => (pc.1, nodeKind pc.2, nodeScalar pc.2)))
  | [], b, _ => rfl
  | pc :: pcs, b, h => by
    obtain ⟨hfit, hlen⟩ := h pc mem_cons_self
    rw [map_cons, foldlM_cons, setEntry_nodeEntry codec pk colID hfit hlen, bind_ok,
      foldlM_setEntry pk colID pcs _ (forall_mem_cons.mp h).2]
    rfl

/-- The builder skips a leading header. -/
theorem setAll_header (b : NodeBuilder) (es : List (Path × NodeKind × Option JSON)) :
    b.setAll (es.map fun e => (.header :: e.1, e.2)) = b.setAll es := by
  induction es generalizing b with
  | nil => rfl
  | cons e es ih =>
    exact ih _

theorem nodes_header (j : JSON) : j.nodes [.header] = (j.nodes []).map fun pc => (.header :: pc.1, pc.2) := by
  simpa using JSON.nodes_append [.header] [] j

/-- A permutation of a list's images is the images of a permutation. -/
theorem exists_perm_of_perm_map {α β : Type} {f : α → β} {l : List α} {es : List β}
    (h : es.Perm (l.map f)) : ∃ m : List α, m.Perm l ∧ es = m.map f := by
  have hrel : List.Forall₂ (fun e a => e = f a) (l.map f) l := by
    rw [List.forall₂_map_left_iff]
    exact List.forall₂_same.mpr fun _ _ => rfl
  obtain ⟨m, hm, hperm⟩ := perm_comp_forall₂ h hrel
  refine ⟨m, hperm, ?_⟩
  rw [← List.forall₂_eq_eq_eq, List.forall₂_map_right_iff]
  exact hm

theorem two_pow_63_of_mem_nodes (hn : n ≤ 2 ^ 32) (hj : j.Bounded n) {p : Path}
    {pc : Path × JSON} (h : pc ∈ j.nodes p) : pc.2.len < 2 ^ 63 := by
  obtain ⟨r, -, hd⟩ := (JSON.mem_nodes hn hj p pc.1 pc.2).mp h
  have := (hj.descend hd).len_le
  omega

/-- The stored entries of a document, in any order, build the document. -/
theorem buildFrom_perm (hn : n ≤ 2 ^ 32) (hj : j.Bounded n) (pk : PrimaryKey)
    {colID : UInt32} (hfit : SuffixesFit colID j) {es : List Entry}
    (hes : es.Perm ((j.nodes [.header]).map (nodeEntry codec pk.bytes colID))) :
    buildFrom codec es = .ok j := by
  rw [nodes_header, map_map] at hes
  obtain ⟨pcs, hpcs, rfl⟩ := exists_perm_of_perm_map hes
  have hmem : ∀ pc ∈ pcs.map fun pc => (Segment.header :: pc.1, pc.2), pc ∈ j.nodes [.header] := by
    intro pc hpc
    rw [nodes_header]
    exact (hpcs.map _).mem_iff.mp hpc
  rw [← map_map, buildFrom, foldlM_setEntry codec pk colID _ _ fun pc hpc =>
    ⟨hfit pc (hmem pc hpc), two_pow_63_of_mem_nodes hn hj (hmem pc hpc)⟩, bind_ok]
  have hperm : (pcs.map fun pc => (pc.1, nodeKind pc.2, nodeScalar pc.2)).Perm (entriesOf j) := hpcs.map _
  have hb := materialize_setAll hn hj hperm
  rw [← setAll_header, map_map] at hb
  rw [map_map]
  exact hb

/-- A document's subordinate entries have strictly ascending, hence distinct, keys;
    decoded and set in the builder in any order they give the document back; and each
    entry stands for the subtree at its path, with that subtree's number of children. -/
theorem subordinate_entries_round_trip (pk : PrimaryKey) (colID : UInt32) (j : JSON) (hj : j.WF)
    (hfit : SuffixesFit colID j) :
    let es := encodeJSONSubordinateEntriesAtPath codec [] (makeFamilyKey pk.bytes 0) colID [.header] j
    (es.map Prod.fst).Pairwise (· < ·) ∧ (∀ es' : List Entry, es'.Perm es → buildFrom codec es' = .ok j) ∧
    (∀ e ∈ es, ∃ path c, decodeSubordinatePathKey e.1 = .ok (pk.bytes, colID, .header :: path) ∧
      j.descend path = some c ∧ decodeSubordinateJSONValueWithCardinality codec e.2 =
        .ok (nodeKind c, (c.len : Int), nodeScalar c)) := by
  have hn : JSON.containerHeaderLenMask ≤ 2 ^ 32 := by decide
  refine ⟨?_, fun es' hes => buildFrom_perm codec hn hj pk hfit hes, fun e he => ?_⟩
  · exact pairwise_map.mpr (encodeJSONSubordinateEntries_ascending codec hn hj pk.bytes colID)
  obtain ⟨pc, hpc, rfl⟩ := mem_map.mp he
  obtain ⟨r, hr, hd⟩ := (JSON.mem_nodes hn hj _ pc.1 pc.2).mp hpc
  refine ⟨r, pc.2, ?_, hd, decode_encodeSubordinateJSONValue codec (two_pow_63_of_mem_nodes hn hj hpc)⟩
  have hkey := decodeSubordinatePathKey_short pk colID pc.1 (hfit pc hpc)
  rw [hr] at hkey ⊢
  exact hkey

/-- The document `{"a": [null, {}]}`. -/
def sampleDoc : JSON := .object [([97], .array [.scalar .null, .object []])]

theorem sampleDoc_wf : sampleDoc.WF := by
  refine .object (by decide) (by decide) (forall_mem_singleton.mpr (.array (by decide) ?_))
  exact forall_mem_cons.mpr ⟨.scalar _, forall_mem_singleton.mpr (.object (by decide) (by decide) (by simp))⟩

theorem subordinate_entries_round_trip_reversed :
    buildFrom plainCodec (encodeJSONSubordinateEntriesAtPath plainCodec []
      (makeFamilyKey samplePrimaryKey.bytes 0) 2 [.header] sampleDoc).reverse = .ok sampleDoc :=
  (subordinate_entries_round_trip plainCodec samplePrimaryKey 2 sampleDoc sampleDoc_wf (by decide)).2.1 _
    (reverse_perm _)

end Ratel.Row
