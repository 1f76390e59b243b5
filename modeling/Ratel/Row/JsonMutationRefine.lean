import Ratel.Json.Update
import Ratel.Row.JsonColumn

/- `UpdateSubordinateJSONRow` refines the operation in memory: on a column that holds a
   document it fails exactly when the operation does, and otherwise leaves the column
   holding the operation's result, by local edits or by a full rewrite.

   The requests of each local edit are computed as writes by path (`putWrites`,
   `childWrites`), and what they make of every path is compared with where the path
   leads in the result. Only keys that are already stored are ever decoded, so the
   suffix bound is needed of the stored document alone. -/
namespace Ratel.Row

open Ratel.Lib Ratel.Lib.Assoc Ratel.Encoding Ratel.Keys Ratel.Rowenc JSON PathWrite Segment
open List hiding find?

section Writes
variable (codec : JsonCodec)

/-- Put the nodes of `c` at and below path `p`. -/
def putWrites (p : Path) (c : JSON) : List PathWrite :=
  (c.nodes p).map fun qc => .put qc.1 (nodeValueOf codec qc.2)

/-- Put `v` at `p`, after removing what document `j` has there. -/
def childWrites (j : JSON) (p : Path) (v : JSON) : List PathWrite :=
  (if (j.descend p).isSome then [.clear (.header :: p)] else []) ++ putWrites codec p v

variable {codec}

theorem nodes_cons_header (p : Path) (c : JSON) :
    c.nodes (.header :: p) = (c.nodes p).map fun qc => (.header :: qc.1, qc.2) :=
  nodes_append [.header] p c

theorem putSubordinateJSONSubtree_eq (pk : Bytes) (colID : UInt32) (batch : Batch) (p : Path) (c : JSON) :
    putSubordinateJSONSubtree codec (makeFamilyKey pk 0) colID batch (.header :: p) c =
      batch ++ (putWrites codec p c).map (toWrite pk colID) := by
  rw [putSubordinateJSONSubtree, encodeJSONSubordinateEntriesAtPath_nil, nodes_cons_header, putWrites]
  simp only [map_map]
  rfl

variable {n : Nat}

theorem putWrites_valid (hn : n ≤ 2 ^ 32) {c : JSON} (hc : c.Bounded n) {p : Path}
    (hp : header ∉ p) : ∀ w ∈ putWrites codec p c, w.Valid := by
  intro w hw
  obtain ⟨qc, hqc, rfl⟩ := mem_map.mp hw
  obtain ⟨r, hr, hd⟩ := (mem_nodes hn hc p qc.1 qc.2).mp hqc
  show header ∉ qc.1
  rw [hr, mem_append]
  exact fun h => h.elim hp (header_not_mem_of_descend hd)

theorem childWrites_valid (hn : n ≤ 2 ^ 32) {v : JSON} (hv : v.Bounded n) (j : JSON) {p : Path}
    (hp : header ∉ p) : ∀ w ∈ childWrites codec j p v, w.Valid := by
  refine forall_mem_append.mpr ⟨?_, putWrites_valid hn hv hp⟩
  split
  · exact forall_mem_singleton.mpr hp
  · exact forall_mem_nil _

variable (codec) in
/-- Puts overlay the nodes of `c` on what was there. -/
theorem pathEffects_putWrites (hn : n ≤ 2 ^ 32) {c : JSON} (hc : c.Bounded n) (p r : Path)
    (old : Option Value) : pathEffects (putWrites codec p c) r old =
      if p <+: r then ((c.descend (r.drop p.length)).map (nodeValueOf codec)).or old else old := by
  let es : List (Path × Value) := (c.nodes p).map fun qc => (qc.1, nodeValueOf codec qc.2)
  have hes : Ascending es := pairwise_map.mpr (nodes_ascending hn hc p)
  have hput : pathEffects (putWrites codec p c) r old = effects (es.map fun e => Write.put e.1 e.2) r old := by
    have heff : ∀ (x : Option Value) (q : Path) (v : Value), effect r x (.put q v) = Write.effect r x (.put q v) := by
      intro x q v
      by_cases hq : r = q <;> simp [effect, Write.effect, hq]
    simp only [pathEffects, putWrites, effects, es, foldl_map, heff]
  have hfind : find? r es =
      if p <+: r then (c.descend (r.drop p.length)).map (nodeValueOf codec) else none := by
    apply Option.ext
    intro v
    rw [hes.find?_eq_some_iff, mem_map]
    refine ⟨?_, fun h => ?_⟩
    · rintro ⟨qc, hqc, he⟩
      obtain ⟨q, hq, hd⟩ := (mem_nodes hn hc p qc.1 qc.2).mp hqc
      have hr : r = p ++ q := (Prod.mk.inj he).1.symm.trans hq
      rw [hr, if_pos (prefix_append _ _), drop_left, hd, Option.map_some, (Prod.mk.inj he).2]
    split at h
    · rename_i hp
      obtain ⟨q, rfl⟩ := hp
      rw [drop_left, Option.map_eq_some_iff] at h
      obtain ⟨d, hd, rfl⟩ := h
      exact ⟨(p ++ q, d), (mem_nodes hn hc p _ _).mpr ⟨q, rfl, hd⟩, rfl⟩
    · cases h
  rw [hput, effects_put r old hes, hfind]
  split <;> simp

/-- A child put over or beside what `j` has leaves exactly its nodes below its path. -/
theorem pathEffects_childWrites (hn : n ≤ 2 ^ 32) {v : JSON} (hv : v.Bounded n) (j : JSON)
    (p r : Path) {old : Option Value} (hold : p <+: r → j.descend p = none → old = none) :
    pathEffects (childWrites codec j p v) r old =
      if p <+: r then (v.descend (r.drop p.length)).map (nodeValueOf codec) else old := by
  rw [childWrites, pathEffects_append, pathEffects_putWrites codec hn hv]
  by_cases hp : p <+: r
  · rw [if_pos hp, if_pos hp]
    -- whatever was below `p` is gone before the puts
    have hgone : pathEffects (if (j.descend p).isSome then [.clear (.header :: p)] else []) r old = none := by
      cases hj : j.descend p with
      | none => exact hold hp hj
      | some c =>
        have hpre : header :: p <+: .header :: r := cons_prefix_cons.mpr ⟨rfl, hp⟩
        simp [pathEffects, effect, hpre]
    rw [hgone, Option.or_none]
  · rw [if_neg hp]
    split
    · simp [pathEffects, effect, hp]
    · rfl

/-- What path `r` has in a column that holds `j`. -/
def valueAt (codec : JsonCodec) (j : JSON) (r : Path) : Option Value := (j.descend r).map (nodeValueOf codec)

end Writes

/-- A column of a row that holds document `j`, all of whose keys can be decoded. -/
structure Stored (codec : JsonCodec) (pk : PrimaryKey) (colID : UInt32) (st : KV) (j : JSON) : Prop where
  wf : j.WF
  fits : SuffixesFit colID j
  holds : Holds codec pk.bytes colID st j

section Steps
variable {codec : JsonCodec} {pk : PrimaryKey} {colID : UInt32} {st : KV} {j : JSON}

variable {p r : Path} {kvs : List (Bytes × JSON)} {v : JSON} {xs : List JSON}

theorem Stored.suffixLen_le (h : Stored codec pk colID st j) {c : JSON} (hd : j.descend p = some c) :
    suffixLen colID (.header :: p) ≤ 109 :=
  h.fits _ ((mem_nodes containerHeaderLenMask_le h.wf [.header] _ c).mpr ⟨p, rfl, hd⟩)

theorem Stored.getExact_eq (h : Stored codec pk colID st j) (hr : header ∉ r) :
    getExact st (makeFamilyKey pk.bytes 0) colID (.header :: r) = valueAt codec j r := h.holds.get_eq r hr

theorem deleteExact_eq (h : Stored codec pk colID st j) (batch : Batch) {c : JSON} (hd : j.descend p = some c) :
    deleteSubordinateExactSubtree batch (makeSubordinatePathKey (makeFamilyKey pk.bytes 0) colID (.header :: p)) =
      .ok (batch ++ [(clear (.header :: p)).toWrite pk.bytes colID]) := by
  rw [deleteSubordinateExactSubtree, decodeSubordinatePathKey_short pk colID _ (h.suffixLen_le hd)]
  rfl

theorem putChild_eq (h : Stored codec pk colID st j) (batch : Batch) (hp : header ∉ p) (v : JSON) (count : Int) :
    putChild codec st (makeFamilyKey pk.bytes 0) colID batch (.header :: p) v count =
      .ok (batch ++ (childWrites codec j p v).map (toWrite pk.bytes colID),
        if (j.descend p).isSome then count else count + 1) := by
  rw [putChild, h.getExact_eq hp, valueAt]
  cases hd : j.descend p with
  | none =>
    rw [Option.map_none, putSubordinateJSONSubtree_eq]
    simp [childWrites, hd, pure, Except.pure]
  | some c =>
    rw [Option.map_some, deleteExact_eq h batch hd, bind_ok, putSubordinateJSONSubtree_eq]
    simp [childWrites, hd, pure, Except.pure]

theorem nodeValueOf_object {a b : List (Bytes × JSON)} (h : a.length = b.length) :
    nodeValueOf codec (.object a) = nodeValueOf codec (.object b) := by
  simp [nodeValueOf, encodeSubordinateJSONValue, h]

variable (codec) in
theorem putHeader_object (batch : Batch) (p : Path) (kvs : List (Bytes × JSON)) :
    putSubordinateJSONHeader (makeFamilyKey pk.bytes 0) colID batch (.header :: p) .object kvs.length =
      .ok (batch ++ [(put p (nodeValueOf codec (.object kvs))).toWrite pk.bytes colID]) := by
  rw [putSubordinateJSONHeader, encodeSubordinateJSONContainerValue, if_neg (by omega)]
  rfl

variable (codec) in
theorem putHeader_array (batch : Batch) (p : Path) (xs : List JSON) :
    putSubordinateJSONHeader (makeFamilyKey pk.bytes 0) colID batch (.header :: p) .array xs.length =
      .ok (batch ++ [(put p (nodeValueOf codec (.array xs))).toWrite pk.bytes colID]) := by
  rw [putSubordinateJSONHeader, encodeSubordinateJSONContainerValue, if_neg (by omega)]
  rfl

/-- Rewrite the header of the object at `p` when its size changed. -/
def headerWrites (codec : JsonCodec) (p : Path) (kvs kvs' : List (Bytes × JSON)) : List PathWrite :=
  if kvs'.length = kvs.length then [] else [.put p (nodeValueOf codec (.object kvs'))]

theorem putHeaderIfChanged_eq (batch : Batch) (p : Path) (kvs kvs' : List (Bytes × JSON)) :
    putHeaderIfChanged (makeFamilyKey pk.bytes 0) colID batch (.header :: p) .object kvs.length kvs'.length =
      .ok (batch ++ (headerWrites codec p kvs kvs').map (toWrite pk.bytes colID)) := by
  rw [putHeaderIfChanged, headerWrites]
  by_cases hlen : kvs'.length = kvs.length
  · simp [hlen, pure, Except.pure]
  · rw [if_pos (by omega), if_neg hlen]
    rfl

/-- After the header is brought up to date the object's own entry is that of `kvs'`. -/
theorem pathEffects_headerWrites (p : Path) (kvs kvs' : List (Bytes × JSON)) (r : Path) {old : Option Value}
    (hold : r = p → old = some (nodeValueOf codec (.object kvs))) :
    pathEffects (headerWrites codec p kvs kvs') r old =
      if r = p then some (nodeValueOf codec (.object kvs')) else old := by
  rw [headerWrites]
  by_cases hlen : kvs'.length = kvs.length
  · rw [if_pos hlen]
    by_cases hr : r = p
    · rw [if_pos hr, nodeValueOf_object hlen]
      exact hold hr
    · rw [if_neg hr]
      rfl
  · rw [if_neg hlen]
    rfl

theorem headerWrites_valid (hp : header ∉ p) (kvs kvs' : List (Bytes × JSON)) :
    ∀ w ∈ headerWrites codec p kvs kvs', w.Valid := by
  rw [headerWrites]
  split
  · exact forall_mem_nil _
  · exact forall_mem_singleton.mpr hp

/-- Where paths lead in an object after a member is put. -/
theorem descend_insert (key : Bytes) (v : JSON) (kvs : List (Bytes × JSON)) (q : Path) :
    (object (insert key v kvs)).descend q =
      if [.objectKey key] <+: q then v.descend (q.drop 1)
      else if q = [] then some (.object (insert key v kvs)) else (object kvs).descend q := by
  cases q with
  | nil => simp
  | cons s q =>
    cases s with
    | header => simp
    | arrayIndex i => simp
    | objectKey l =>
      rw [descend_object_key, descend_object_key, Ascending.find?_insert]
      by_cases hl : l = key
      · simp [hl]
      have hpre : ¬ [objectKey key] <+: .objectKey l :: q := by
        simp [Ne.symm hl]
      rw [if_neg hl, if_neg hpre, if_neg (by simp)]

/-- The requests of a local edit, added to the batch, that turn the column's values
    for `j` into those for `j'`. -/
def Edits (codec : JsonCodec) (pk : PrimaryKey) (colID : UInt32) (batch : Batch) (j j' : JSON)
    (res : Except Err Batch) : Prop :=
  ∃ ws : List PathWrite, res = .ok (batch ++ ws.map (toWrite pk.bytes colID)) ∧
    (∀ w ∈ ws, w.Valid) ∧ ∀ r, header ∉ r → pathEffects ws r (valueAt codec j r) = valueAt codec j' r

theorem Edits.refl (batch : Batch) (j : JSON) : Edits codec pk colID batch j j (.ok batch) :=
  ⟨[], by simp, by simp, fun r _ => rfl⟩

/-- Setting a member of the object at `p` puts the new object's nodes below `p`. -/
theorem setObjectKey_eq (h : Stored codec pk colID st j) (batch : Batch)
    (hp : header ∉ p) (hd : j.descend p = some (.object kvs))
    (key : Bytes) (hv : v.WF) (createMissing : Bool) :
    ∃ ws : List PathWrite, setObjectKey codec st (makeFamilyKey pk.bytes 0) colID batch (.header :: p)
        kvs.length key v createMissing = .ok (batch ++ ws.map (toWrite pk.bytes colID)) ∧
      (∀ w ∈ ws, w.Valid) ∧ ∀ r, header ∉ r → pathEffects ws r (valueAt codec j r) =
        if p <+: r then valueAt codec (.object (setKey key v createMissing kvs)) (r.drop p.length)
        else valueAt codec j r := by
  have hhdr : header ∉ p ++ [.objectKey key] := by simpa using hp
  have hchild : j.descend (p ++ [.objectKey key]) = find? key kvs := by
    rw [descend_append, hd, Option.bind_some, descend_object_key]
    cases find? key kvs <;> simp
  have hbelow : ∀ q, j.descend (p ++ q) = (object kvs).descend q := by
    intro q
    rw [descend_append, hd, Option.bind_some]
  rw [setObjectKey]
  simp only [cons_append]
  rw [h.getExact_eq hhdr, valueAt, hchild]
  by_cases hskip : (find? key kvs).isNone ∧ ¬ createMissing
  · -- nothing to set
    refine ⟨[], ?_, by simp, fun r _ => ?_⟩
    · rw [if_pos (by simpa using hskip)]
      simp [pure, Except.pure]
    have hcm : createMissing = false := by simpa using hskip.2
    have hnone : (find? key kvs).isSome = false := by simpa using hskip.1
    rw [hcm, setKey_keep, hnone]
    split
    · rename_i hpr
      obtain ⟨q, rfl⟩ := hpr
      simp [pathEffects, valueAt, hbelow]
    · rfl
  rw [if_neg (by simpa using hskip)]
  have hset : setKey key v createMissing kvs = insert key v kvs := by
    cases createMissing with
    | true => exact setKey_create key v kvs
    | false =>
      rw [setKey_keep, if_pos]
      cases hf : find? key kvs with
      | none => simp [hf] at hskip
      | some c => rfl
  have hlen : (if (find? key kvs).isSome then (kvs.length : Int) else kvs.length + 1) =
      ((insert key v kvs).length : Nat) := by
    rw [Ascending.length_insert]
    split <;> simp
  rw [putChild_eq h batch hhdr, bind_ok, hchild, hlen, hset]
  refine ⟨childWrites codec j (p ++ [.objectKey key]) v ++ headerWrites codec p kvs (insert key v kvs),
    ?_, ?_, fun r hr => ?_⟩
  · rw [putHeaderIfChanged_eq, map_append, append_assoc]
  · exact forall_mem_append.mpr ⟨childWrites_valid containerHeaderLenMask_le hv j hhdr, headerWrites_valid hp _ _⟩
  have hold : p ++ [.objectKey key] <+: r → j.descend (p ++ [.objectKey key]) = none → valueAt codec j r = none := by
    rintro ⟨q, rfl⟩ hn
    rw [valueAt, descend_append, hn]
    rfl
  rw [pathEffects_append, pathEffects_childWrites containerHeaderLenMask_le hv j _ _ hold, pathEffects_headerWrites]
  · by_cases hpr : p <+: r
    · obtain ⟨q, rfl⟩ := hpr
      have hpre : p ++ [.objectKey key] <+: p ++ q ↔ [.objectKey key] <+: q := by
        rw [prefix_append_right_inj]
      rw [if_pos (prefix_append _ _), drop_left, valueAt, valueAt, hbelow, descend_insert]
      by_cases hq : q = []
      · simp [hq]
      rw [if_neg (by simpa using hq), if_neg hq]
      by_cases hk : [.objectKey key] <+: q
      · rw [if_pos (hpre.mpr hk), if_pos hk]
        obtain ⟨q', rfl⟩ := hk
        rw [← append_assoc, drop_left]
        rfl
      · rw [if_neg fun hc => hk (hpre.mp hc), if_neg hk]
    · have hne : r ≠ p := fun he => hpr (he ▸ prefix_refl _)
      rw [if_neg hpr, if_neg hne, if_neg fun hc => hpr ((prefix_append _ _).trans hc)]
  · -- the object's own entry is not below the member
    rintro rfl
    rw [if_neg fun hc => by simpa using hc.length_le, valueAt, hd]
    rfl

theorem setRootKey_edits (h : Stored codec pk colID st (.object kvs))
    (batch : Batch) (key : Bytes) (hv : v.WF) (createMissing : Bool) :
    Edits codec pk colID batch (.object kvs) (.object (setKey key v createMissing kvs))
      (applyLocalRootObjectSetKey codec st (makeFamilyKey pk.bytes 0) colID batch kvs.length key v createMissing) := by
  obtain ⟨ws, hres, hval, heff⟩ := setObjectKey_eq h batch (p := []) (by simp) (descend_nil _) key hv createMissing
  refine ⟨ws, hres, hval, fun r hr => ?_⟩
  simpa using heff r hr

/-! Concatenation of objects. -/

theorem foldlM_putChild (h : Stored codec pk colID st j) : ∀ (right : List (Bytes × JSON)) (batch : Batch)
    (count : Int), right.foldlM (fun bc kv => putChild codec st (makeFamilyKey pk.bytes 0) colID bc.1
        [.header, .objectKey kv.1] kv.2 bc.2) (batch, count) =
      .ok (batch ++ (right.flatMap fun kv => childWrites codec j [.objectKey kv.1] kv.2).map (toWrite pk.bytes colID),
        right.foldl (fun c kv => if (j.descend [.objectKey kv.1]).isSome then c else c + 1) count)
  | [], batch, count => by simp [pure, Except.pure]
  | kv :: right, batch, count => by
    rw [foldlM_cons, putChild_eq h batch (p := [.objectKey kv.1]) (by simp), bind_ok,
      foldlM_putChild h right, flatMap_cons, map_append, append_assoc]
    rfl

/-- Each member of the right object is put at its key; other paths keep their value. -/
theorem pathEffects_members (j : JSON) (l : Bytes) (q : Path) : ∀ {right : List (Bytes × JSON)},
    Ascending right → (∀ kv ∈ right, kv.2.WF) → ∀ {old : Option Value},
    ((find? l right).isSome → j.descend [.objectKey l] = none → old = none) →
    pathEffects (right.flatMap fun kv => childWrites codec j [.objectKey kv.1] kv.2) (.objectKey l :: q) old =
      match find? l right with
      | some v => valueAt codec v q
      | none => old
  | [], _, _, old, _ => rfl
  | (k, v) :: right, hasc, hwf, old, hold => by
    rw [flatMap_cons, pathEffects_append]
    have hpre : [objectKey k] <+: .objectKey l :: q ↔ k = l := by simp
    have ⟨hv, hwf'⟩ := forall_mem_cons.mp hwf
    by_cases hkl : k = l
    · subst hkl
      have hnone : find? k right = none := hasc.find?_tail (lt_irrefl _)
      have hhere : find? k ((k, v) :: right) = some v := by simp [find?]
      rw [pathEffects_childWrites containerHeaderLenMask_le hv j _ _ (fun _ hd => hold (by simp [hhere]) hd),
        if_pos (by simp), pathEffects_members j k q hasc.tail hwf' (by simp [hnone]), hnone, hhere]
      rfl
    have hrest : find? l ((k, v) :: right) = find? l right := by
      rw [hasc.find?_cons, if_neg (Ne.symm hkl)]
    rw [pathEffects_childWrites containerHeaderLenMask_le hv j _ _
      (fun hp _ => absurd (hpre.mp hp) hkl), if_neg (by simpa using hkl), hrest]
    rw [hrest] at hold
    exact pathEffects_members j l q hasc.tail hwf' hold

theorem pathEffects_members_other (j : JSON) (hr : ∀ l q, r ≠ .objectKey l :: q)
    (old : Option Value) : ∀ {right : List (Bytes × JSON)}, (∀ kv ∈ right, kv.2.WF) →
    pathEffects (right.flatMap fun kv => childWrites codec j [.objectKey kv.1] kv.2) r old = old
  | [], _ => rfl
  | (k, v) :: right, hwf => by
    have hpre : ¬ [objectKey k] <+: r := by
      rintro ⟨q, rfl⟩
      exact hr k q rfl
    rw [flatMap_cons, pathEffects_append, pathEffects_childWrites containerHeaderLenMask_le
      (hwf (k, v) mem_cons_self) j _ _ (fun hp _ => absurd hp hpre), if_neg hpre]
    exact pathEffects_members_other j hr old (forall_mem_cons.mp hwf).2

theorem descend_member (kvs : List (Bytes × JSON)) (l : Bytes) :
    (object kvs).descend [.objectKey l] = find? l kvs := by
  rw [descend_object_key]
  cases find? l kvs <;> simp

theorem objectConcat_edits {left right : List (Bytes × JSON)} (h : Stored codec pk colID st (.object left))
    (hright : (object right).WF) (batch : Batch) :
    Edits codec pk colID batch (.object left) (.object (merge left right))
      (applyLocalRootObjectConcat codec st (makeFamilyKey pk.bytes 0) colID batch left.length right) := by
  have hl := bounded_ascending h.wf
  have hr := bounded_ascending hright
  have hwf : ∀ kv ∈ right, kv.2.WF := fun kv hkv => bounded_member hright hkv
  have hcount : right.foldl (fun (c : Int) kv =>
      if ((object left).descend [.objectKey kv.1]).isSome then c else c + 1) left.length =
      ((merge left right).length : Nat) := by
    rw [Ascending.length_merge hl hr]
    simp only [descend_member]
  refine ⟨(right.flatMap fun kv => childWrites codec (.object left) [.objectKey kv.1] kv.2) ++
    headerWrites codec [] left (merge left right), ?_, ?_, fun r hr' => ?_⟩
  · rw [applyLocalRootObjectConcat, foldlM_putChild h, bind_ok, hcount, map_append, ← append_assoc]
    exact putHeaderIfChanged_eq _ [] left (merge left right)
  · refine forall_mem_append.mpr ⟨fun w hw => ?_, headerWrites_valid (by simp) _ _⟩
    obtain ⟨kv, hkv, hw⟩ := mem_flatMap.mp hw
    exact childWrites_valid containerHeaderLenMask_le (hwf kv hkv) _ (by simp) w hw
  rw [pathEffects_append]
  by_cases hkey : ∃ l q, r = .objectKey l :: q
  · obtain ⟨l, q, rfl⟩ := hkey
    have hold : (find? l right).isSome → (object left).descend [.objectKey l] = none →
        valueAt codec (.object left) (.objectKey l :: q) = none := by
      intro _ hn
      rw [descend_member] at hn
      rw [valueAt, descend_object_key, hn]
      rfl
    rw [pathEffects_members _ l q hr hwf hold, pathEffects_headerWrites [] _ _ _ (by simp), if_neg (by simp),
      valueAt, valueAt, descend_object_key, descend_object_key, Ascending.find?_merge hl hr]
    cases find? l right <;> simp [valueAt]
  have hother : ∀ l q, r ≠ .objectKey l :: q := fun l q he => hkey ⟨l, q, he⟩
  rw [pathEffects_members_other _ hother _ hwf, pathEffects_headerWrites]
  · cases r with
    | nil => simp [valueAt]
    | cons s q =>
      cases s with
      | header => simp at hr'
      | objectKey l => exact absurd rfl (hother l q)
      | arrayIndex i => simp [valueAt]
  · rintro rfl
    simp [valueAt]

/-! Removing a member, and the edits of arrays. -/

theorem deleteKey_edits (h : Stored codec pk colID st (.object kvs)) (batch : Batch) (key : Bytes) :
    Edits codec pk colID batch (.object kvs) (.object (erase key kvs))
      (applyLocalRootObjectDeleteKey st (makeFamilyKey pk.bytes 0) colID batch kvs.length key) := by
  have hasc := bounded_ascending h.wf
  rw [applyLocalRootObjectDeleteKey, h.getExact_eq (r := [.objectKey key]) (by simp), valueAt, descend_member]
  cases hf : find? key kvs with
  | none =>
    have hsame : erase key kvs = kvs := hasc.erase.ext hasc fun k => by
      rw [Ascending.find?_erase k hasc]
      split
      · rename_i hk
        rw [hk, hf]
      · rfl
    rw [hsame]
    exact Edits.refl batch _
  | some c =>
    have hlen : ((erase key kvs).length : Int) = kvs.length - 1 := by
      have hpos : 0 < kvs.length := length_pos_of_mem (find?_mem hf)
      rw [Ascending.length_erase, hf, if_pos (by simp)]
      omega
    have hdel := deleteExact_eq h batch (p := [.objectKey key]) (c := c) (by rw [descend_member, hf])
    refine ⟨[.clear [.header, .objectKey key], .put [] (nodeValueOf codec (.object (erase key kvs)))],
      ?_, ?_, fun r hr => ?_⟩
    · rw [Option.map_some, if_pos (by simp), hdel, bind_ok, ← hlen, putHeader_object codec _ [] (erase key kvs)]
      simp
    · simp [Valid, HeaderFirst]
    cases r with
    | nil => simp [pathEffects, effect, valueAt]
    | cons s q =>
      cases s with
      | header => simp at hr
      | arrayIndex i => simp [pathEffects, effect, valueAt]
      | objectKey l =>
        simp only [pathEffects, effect, foldl_cons, foldl_nil, valueAt,
          descend_object_key, Ascending.find?_erase l hasc]
        by_cases hl : l = key
        · simp [hl]
        · simp [hl, Ne.symm hl]

/-- Appended elements are put one after another from index `n` on. -/
def appendWrites (codec : JsonCodec) : Nat → List JSON → List PathWrite
  | _, [] => []
  | n, x :: xs => putWrites codec [.arrayIndex (UInt32.ofNat n)] x ++ appendWrites codec (n + 1) xs

theorem foldl_append_eq (n : Nat) : ∀ (xs : List JSON) (k : Nat) (batch : Batch),
    (xs.zipIdx k).foldl (fun batch xi => putSubordinateJSONSubtree codec (makeFamilyKey pk.bytes 0) colID batch
        [.header, .arrayIndex (UInt32.ofNat ((n : Int) + xi.2).toNat)] xi.1) batch =
      batch ++ (appendWrites codec (n + k) xs).map (toWrite pk.bytes colID)
  | [], k, batch => by simp [appendWrites]
  | x :: xs, k, batch => by
    have hidx : ((n : Int) + (k : Nat)).toNat = n + k := by omega
    rw [zipIdx_cons, foldl_cons, hidx, putSubordinateJSONSubtree_eq, foldl_append_eq n xs (k + 1),
      appendWrites, map_append, append_assoc, Nat.add_assoc]

theorem appendWrites_valid : ∀ {xs : List JSON} {n : Nat}, (∀ x ∈ xs, x.WF) → ∀ w ∈ appendWrites codec n xs, w.Valid
  | [], _, _ => forall_mem_nil _
  | x :: xs, n, h =>
    have ⟨hx, hxs⟩ := forall_mem_cons.mp h
    forall_mem_append.mpr ⟨putWrites_valid containerHeaderLenMask_le hx (by simp), appendWrites_valid hxs⟩

theorem pathEffects_appendWrites {i : UInt32} (q : Path) : ∀ {xs : List JSON} {n : Nat} {old : Option Value},
    (∀ x ∈ xs, x.WF) → n + xs.length ≤ 2 ^ 32 → (n ≤ i.toNat → old = none) →
    pathEffects (appendWrites codec n xs) (.arrayIndex i :: q) old =
      if n ≤ i.toNat then (xs[i.toNat - n]?).bind fun x => valueAt codec x q else old
  | [], n, old, _, _, hold => by
    split
    · rename_i hni
      exact hold hni
    · rfl
  | x :: xs, n, old, hwf, hlen, hold => by
    have ⟨hx, hxs⟩ := forall_mem_cons.mp hwf
    simp only [length_cons] at hlen
    have hi : [arrayIndex (UInt32.ofNat n)] <+: .arrayIndex i :: q ↔ i.toNat = n := by
      have : UInt32.ofNat n = i ↔ i.toNat = n := by
        rw [← UInt32.toNat_inj, UInt32.toNat_ofNat', Nat.mod_eq_of_lt (by omega)]
        exact eq_comm
      simpa using this
    rw [appendWrites, pathEffects_append, pathEffects_putWrites codec containerHeaderLenMask_le hx]
    by_cases hin : i.toNat = n
    · rw [if_pos (hi.mpr hin), pathEffects_appendWrites q hxs (by omega) (fun h => by omega),
        if_neg (by omega), if_pos (by omega), hin, Nat.sub_self, hold (by omega)]
      simp [valueAt]
    rw [if_neg fun h => hin (hi.mp h), pathEffects_appendWrites q hxs (by omega) (fun h => hold (by omega))]
    by_cases hle : n ≤ i.toNat
    · rw [if_pos (by omega), if_pos hle, show i.toNat - n = i.toNat - (n + 1) + 1 by omega, getElem?_cons_succ]
    · rw [if_neg (by omega), if_neg hle]

theorem pathEffects_appendWrites_other (hr : ∀ i q, r ≠ .arrayIndex i :: q) (old : Option Value) :
    ∀ {xs : List JSON} {n : Nat}, (∀ x ∈ xs, x.WF) → pathEffects (appendWrites codec n xs) r old = old
  | [], _, _ => rfl
  | x :: xs, n, hwf => by
    rw [appendWrites, pathEffects_append, pathEffects_putWrites codec containerHeaderLenMask_le
      (hwf x mem_cons_self), if_neg]
    · exact pathEffects_appendWrites_other hr old (forall_mem_cons.mp hwf).2
    · rintro ⟨q, rfl⟩
      exact hr _ q rfl

theorem arrayAppend_edits {left right : List JSON} (hleft : (array left).WF)
    (hright : (array right).WF) (batch : Batch) :
    Edits codec pk colID batch (.array left) (.array (left ++ right))
      (applyLocalRootArrayAppend codec (makeFamilyKey pk.bytes 0) colID batch left.length right) := by
  have hll : left.length ≤ containerHeaderLenMask := hleft.len_le
  have hrl : right.length ≤ containerHeaderLenMask := hright.len_le
  simp only [containerHeaderLenMask] at hll hrl
  have hwf : ∀ x ∈ right, x.WF := fun x hx => bounded_elem hright hx
  have hlen : (left.length : Int) + right.length = ((left ++ right).length : Nat) := by simp
  refine ⟨appendWrites codec left.length right ++ [.put [] (nodeValueOf codec (.array (left ++ right)))],
    ?_, ?_, fun r hr => ?_⟩
  · rw [applyLocalRootArrayAppend, foldl_append_eq, hlen, putHeader_array codec _ [] (left ++ right)]
    simp
  · exact forall_mem_append.mpr ⟨appendWrites_valid hwf, forall_mem_singleton.mpr not_mem_nil⟩
  rw [pathEffects_append]
  by_cases hidx : ∃ i q, r = .arrayIndex i :: q
  · obtain ⟨i, q, rfl⟩ := hidx
    have hold : left.length ≤ i.toNat → valueAt codec (.array left) (.arrayIndex i :: q) = none := by
      intro hle
      rw [valueAt, descend_array_index (by omega), getElem?_eq_none hle]
      rfl
    have hput : ∀ old, pathEffects [.put [] (nodeValueOf codec (.array (left ++ right)))]
        (.arrayIndex i :: q) old = old := fun old => by simp [pathEffects, effect]
    rw [hput, pathEffects_appendWrites q hwf (by omega) hold, valueAt, valueAt,
      descend_array_index (by omega), descend_array_index (by simp; omega)]
    by_cases hle : left.length ≤ i.toNat
    · rw [if_pos hle, getElem?_append_right hle]
      cases right[i.toNat - left.length]? <;> rfl
    · rw [if_neg hle, getElem?_append_left (by omega)]
  · have hother : ∀ i q, r ≠ .arrayIndex i :: q := fun i q he => hidx ⟨i, q, he⟩
    rw [pathEffects_appendWrites_other hother _ hwf]
    cases r with
    | nil => simp [pathEffects, effect, valueAt]
    | cons s q =>
      cases s with
      | header => simp at hr
      | arrayIndex i => exact absurd rfl (hother i q)
      | objectKey l => simp [pathEffects, effect, valueAt]

theorem deleteLast_edits (h : Stored codec pk colID st (.array xs)) (batch : Batch) :
    Edits codec pk colID batch (.array xs) (.array xs.dropLast)
      (applyLocalRootArrayDeleteLast (makeFamilyKey pk.bytes 0) colID batch xs.length) := by
  have hxs : xs.length ≤ containerHeaderLenMask := h.wf.len_le
  simp only [containerHeaderLenMask] at hxs
  rw [applyLocalRootArrayDeleteLast]
  by_cases hnil : xs = []
  · subst hnil
    exact Edits.refl batch _
  have hpos := length_pos_of_ne_nil hnil
  have hidx : ((xs.length : Int) - 1).toNat = xs.length - 1 := by omega
  have hlast : (UInt32.ofNat (xs.length - 1)).toNat = xs.length - 1 := by
    rw [UInt32.toNat_ofNat', Nat.mod_eq_of_lt (by omega)]
  obtain ⟨c, hc⟩ : ∃ c, (array xs).descend [.arrayIndex (UInt32.ofNat (xs.length - 1))] = some c := by
    refine ⟨xs[xs.length - 1], ?_⟩
    rw [descend_elem (by omega) (by omega), getElem?_eq_getElem (by omega)]
  have hlen : ((xs.dropLast.length : Nat) : Int) = xs.length - 1 := by
    rw [length_dropLast]
    omega
  refine ⟨[.clear [.header, .arrayIndex (UInt32.ofNat (xs.length - 1))],
    .put [] (nodeValueOf codec (.array xs.dropLast))], ?_, ?_, fun r hr => ?_⟩
  · rw [if_neg (by omega), hidx, deleteExact_eq h batch hc, bind_ok, ← hlen, putHeader_array codec _ [] xs.dropLast]
    simp
  · simp [Valid, HeaderFirst]
  cases r with
  | nil => simp [pathEffects, effect, valueAt]
  | cons s q =>
    cases s with
    | header => simp at hr
    | objectKey l => simp [pathEffects, effect, valueAt]
    | arrayIndex i =>
      have hi : UInt32.ofNat (xs.length - 1) = i ↔ i.toNat = xs.length - 1 := by
        rw [← UInt32.toNat_inj, hlast]
        exact eq_comm
      simp only [pathEffects, effect, foldl_cons, valueAt]
      rw [descend_array_index (by omega), descend_array_index (by omega), getElem?_dropLast]
      by_cases hin : i.toNat = xs.length - 1
      · simp [hi.mpr hin, hin]
      by_cases hlt : i.toNat < xs.length - 1
      · simp [hi, hin, hlt]
      · simp [hi, hin, getElem?_eq_none (show xs.length ≤ i.toNat by omega)]

variable (codec) in
/-- Replacing an element of an array. -/
theorem valueAt_set (hlen : xs.length ≤ 2 ^ 32) {i : UInt32} (hi : i.toNat < xs.length)
    (c : JSON) (hr : r ≠ []) : valueAt codec (.array (xs.set i.toNat c)) r =
      if [.arrayIndex i] <+: r then valueAt codec c (r.drop 1) else valueAt codec (.array xs) r := by
  cases r with
  | nil => exact absurd rfl hr
  | cons s q =>
    cases s with
    | header => simp [valueAt]
    | objectKey l => simp [valueAt]
    | arrayIndex i' =>
      simp only [valueAt]
      rw [descend_array_index (by simpa using hlen), descend_array_index hlen]
      by_cases he : i = i'
      · subst he
        simp [hi]
      · have hne : i.toNat ≠ i'.toNat := fun h => he (UInt32.toNat_inj.mp h)
        rw [getElem?_set_ne hne, if_neg (by simpa using he)]

theorem arrayObjectKeySet_edits (h : Stored codec pk colID st (.array xs)) (batch : Batch)
    {idx : Nat} (hidx : idx < xs.length) (helem : xs[idx]? = some (.object kvs))
    (key : Bytes) (hv : v.WF) (createMissing : Bool) :
    ∃ res, applyLocalRootArrayObjectKeySet codec st (makeFamilyKey pk.bytes 0) colID batch xs.length idx key v
        createMissing = some <$> res ∧
      Edits codec pk colID batch (.array xs) (.array (xs.set idx (.object (setKey key v createMissing kvs)))) res := by
  have hxs : xs.length ≤ containerHeaderLenMask := h.wf.len_le
  simp only [containerHeaderLenMask] at hxs
  have hnat : (UInt32.ofNat idx).toNat = idx := by
    rw [UInt32.toNat_ofNat', Nat.mod_eq_of_lt (by omega)]
  have hd : (array xs).descend [.arrayIndex (UInt32.ofNat idx)] = some (.object kvs) := by
    rw [descend_elem (by omega) hidx, helem]
  have hkvs : kvs.length ≤ containerHeaderLenMask := (h.wf.descend hd).len_le
  simp only [containerHeaderLenMask] at hkvs
  have hdec : decodeSubordinateJSONValueWithCardinality codec (nodeValueOf codec (.object kvs)) =
      .ok (.object, (kvs.length : Int), none) :=
    decode_encodeSubordinateJSONValue codec (show kvs.length < 2 ^ 63 by omega)
  obtain ⟨ws, hres, hval, heff⟩ := setObjectKey_eq h batch (p := [.arrayIndex (UInt32.ofNat idx)]) (by simp)
    hd key hv createMissing
  refine ⟨_, ?_, ws, hres, hval, fun r hr => ?_⟩
  · rw [applyLocalRootArrayObjectKeySet, if_neg (by omega), Int.toNat_natCast]
    simp only [h.getExact_eq (r := [.arrayIndex (UInt32.ofNat idx)]) (by simp), valueAt, hd, Option.map_some]
    rw [hdec]
    rfl
  rw [heff r hr]
  by_cases hnil : r = []
  · subst hnil
    simp [valueAt, nodeValueOf, encodeSubordinateJSONValue]
  have hset := valueAt_set codec (show xs.length ≤ 2 ^ 32 by omega) (i := UInt32.ofNat idx)
    (by rw [hnat]; exact hidx) (.object (setKey key v createMissing kvs)) hnil
  rw [hnat] at hset
  rw [hset]
  rfl

end Steps

end Ratel.Row
