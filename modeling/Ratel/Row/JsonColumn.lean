import Ratel.Row.JsonMutation

/- A stored JSON column seen by path. The subordinate keys of one column of one row
   are the images of the paths below the header, so the column is a function from
   paths to node values, and the requests that the row writers send for it are puts at
   a path and removals of all paths below one. A column holds a document when each
   path has the value of the subtree there and no other key of the column is present,
   which is to say when scanning it gives the document's entries (`holds_iff_scan`). -/
namespace Ratel.Row

open Ratel.Lib Ratel.Lib.Assoc Ratel.Encoding Ratel.Keys Ratel.Rowenc List

theorem containerHeaderLenMask_le : JSON.containerHeaderLenMask ≤ 2 ^ 32 := by decide

section Column
variable (codec : JsonCodec) (pk : Bytes) (colID : UInt32)

/-- The key of the node at path `r` below the column's header. -/
def colKey (r : Path) : Bytes := makeSubordinatePathKey (makeFamilyKey pk 0) colID (.header :: r)

def columnPrefix : Bytes := makeSubordinatePathPrefix (makeFamilyKey pk 0) colID []

def nodeValueOf (c : JSON) : Value := encodeSubordinateJSONValue codec c

variable {pk colID}

variable {r : Path} {j : JSON} {n : Nat}

theorem colKey_inj {r' : Path} (hr : Segment.header ∉ r) (hr' : Segment.header ∉ r')
    (h : colKey pk colID r = colKey pk colID r') : r = r' := by
  by_contra hne
  have hlt : ∀ {p q : Path}, Segment.header ∉ q → p < q → colKey pk colID p ≠ colKey pk colID q :=
    fun hq hpq => (subordinateKey_parts pk (by simp) (show HeaderFirst (.header :: _) from hq)
      (.inr ⟨rfl, cons_lt_cons_iff.mpr (.inr ⟨rfl, hpq⟩)⟩)).ne
  rcases lt_or_gt_of_ne hne with hlt' | hgt
  · exact hlt hr' hlt' h
  · exact hlt hr hgt h.symm

theorem colKey_mem_clear {p : Path} (hp : HeaderFirst p) :
    (makeSubordinatePathPrefix (makeFamilyKey pk 0) colID p ≤ colKey pk colID r ∧
      colKey pk colID r < prefixEnd (makeSubordinatePathPrefix (makeFamilyKey pk 0) colID p)) ↔
      p <+: .header :: r := by
  rw [colKey, mem_prefix_span_subordinate pk hp (by simp)]
  simp

theorem exists_ne_ff (pk : Bytes) (colID : UInt32) (p : Path) :
    ∃ c ∈ makeSubordinatePathPrefix (makeFamilyKey pk 0) colID p, c ≠ 0xff := by
  refine ⟨0x88, ?_, by decide⟩
  rw [makeSubordinatePathPrefix_split]
  simp [show uvarint 0 = [0x88] from rfl]

theorem mem_column_span (pk : Bytes) (colID : UInt32) (k : Bytes) :
    columnPrefix pk colID ≤ k ∧ k < prefixEnd (columnPrefix pk colID) ↔ columnPrefix pk colID <+: k :=
  mem_prefix_span_iff (exists_ne_ff pk colID []) k

theorem columnPrefix_prefix_span (p : Path) :
    columnPrefix pk colID <+: makeSubordinatePathPrefix (makeFamilyKey pk 0) colID p := by
  rw [columnPrefix, makeSubordinatePathPrefix, makeSubordinatePathPrefix, flatMap_nil, append_nil]
  exact prefix_append _ _

theorem columnPrefix_prefix_colKey (r : Path) : columnPrefix pk colID <+: colKey pk colID r := by
  rw [columnPrefix, colKey, prefix_subordinateKey_iff pk (by simp [HeaderFirst]) (by simp)]
  exact ⟨rfl, nil_prefix⟩

/-! Requests by path. -/

/-- A request for the column: put a value at the path `r` below the header, or remove
    everything below the path `p`. -/
inductive PathWrite
  | put (r : Path) (v : Value)
  | clear (p : Path)

namespace PathWrite

variable (pk colID) in
def toWrite : PathWrite → Write Bytes Value
  | put r v => .put (colKey pk colID r) v
  | clear p => .delRange (makeSubordinatePathPrefix (makeFamilyKey pk 0) colID p)
      (prefixEnd (makeSubordinatePathPrefix (makeFamilyKey pk 0) colID p))

/-- Headers stand only in front. -/
def Valid : PathWrite → Prop
  | put r _ => Segment.header ∉ r
  | clear p => HeaderFirst p

/-- What a request makes of the value at `r`. -/
def effect (r : Path) (old : Option Value) : PathWrite → Option Value
  | put r' v => if r = r' then some v else old
  | clear p => if p <+: .header :: r then none else old

theorem effect_toWrite {w : PathWrite} (hw : w.Valid) {r : Path} (hr : Segment.header ∉ r)
    (old : Option Value) : (w.toWrite pk colID).effect (colKey pk colID r) old = w.effect r old := by
  cases w with
  | put r' v =>
    have hiff : colKey pk colID r = colKey pk colID r' ↔ r = r' := ⟨colKey_inj hr hw, fun h => by rw [h]⟩
    simp only [toWrite, Write.effect, effect, hiff]
  | clear p => simp only [toWrite, Write.effect, effect, colKey_mem_clear hw]

/-- Outside the column nothing changes, and inside it no key but a node's appears. -/
theorem effect_toWrite_of_ne {w : PathWrite} (hw : w.Valid) {k : Bytes}
    (hk : ∀ r, Segment.header ∉ r → k ≠ colKey pk colID r) :
    (w.toWrite pk colID).effect k none = none := by
  cases w with
  | put r v => simp only [toWrite, Write.effect, if_neg (hk r hw)]
  | clear p => simp [toWrite, Write.effect]

theorem effect_toWrite_outside (w : PathWrite) {k : Bytes} (hk : ¬ columnPrefix pk colID <+: k)
    (old : Option Value) : (w.toWrite pk colID).effect k old = old := by
  cases w with
  | put r v =>
    have hne : k ≠ colKey pk colID r := by
      rintro rfl
      exact hk (columnPrefix_prefix_colKey r)
    simp only [toWrite, Write.effect, if_neg hne]
  | clear p =>
    refine if_neg fun h => hk ((columnPrefix_prefix_span p).trans ?_)
    exact (mem_prefix_span_iff (exists_ne_ff pk colID p) k).mp h

end PathWrite

/-- What requests make of the value at `r`. -/
def pathEffects (ws : List PathWrite) (r : Path) (old : Option Value) : Option Value :=
  ws.foldl (fun old w => w.effect r old) old

theorem pathEffects_append (ws vs : List PathWrite) (r : Path) (old : Option Value) :
    pathEffects (ws ++ vs) r old = pathEffects vs r (pathEffects ws r old) := foldl_append

theorem effects_map_toWrite (hr : Segment.header ∉ r) : ∀ {ws : List PathWrite},
    (∀ w ∈ ws, w.Valid) → ∀ old : Option Value,
    effects (ws.map (PathWrite.toWrite pk colID)) (colKey pk colID r) old = pathEffects ws r old
  | [], _, old => rfl
  | w :: ws, h, old => by
    rw [map_cons, effects_cons, PathWrite.effect_toWrite (h w mem_cons_self) hr,
      effects_map_toWrite hr (forall_mem_cons.mp h).2]
    rfl

theorem effects_map_toWrite_of_ne {k : Bytes} (hk : ∀ r, Segment.header ∉ r → k ≠ colKey pk colID r) :
    ∀ {ws : List PathWrite}, (∀ w ∈ ws, w.Valid) →
    effects (ws.map (PathWrite.toWrite pk colID)) k none = none
  | [], _ => rfl
  | w :: ws, h => by
    rw [map_cons, effects_cons, PathWrite.effect_toWrite_of_ne (h w mem_cons_self) hk]
    exact effects_map_toWrite_of_ne hk (forall_mem_cons.mp h).2

theorem effects_map_toWrite_outside {k : Bytes} (hk : ¬ columnPrefix pk colID <+: k) (old : Option Value) :
    ∀ ws : List PathWrite, effects (ws.map (PathWrite.toWrite pk colID)) k old = old
  | [] => rfl
  | w :: ws => by
    rw [map_cons, effects_cons, w.effect_toWrite_outside hk]
    exact effects_map_toWrite_outside hk old ws

/-! Columns that hold a document. -/

variable (pk colID) in
/-- The column's keys in `st` are those of `j`, with `j`'s node values. -/
structure Holds (st : KV) (j : JSON) : Prop where
  get_eq : ∀ r, Segment.header ∉ r → st.get (colKey pk colID r) = (j.descend r).map (nodeValueOf codec)
  only : ∀ k, columnPrefix pk colID <+: k → (st.get k).isSome → ∃ r, Segment.header ∉ r ∧ k = colKey pk colID r

variable {codec}

/-- Requests that turn `j`'s values into those of `j'` path by path turn a column that
    holds `j` into one that holds `j'`, and touch nothing else. -/
theorem Holds.apply {st : KV} {j' : JSON} (h : Holds codec pk colID st j) {ws : List PathWrite}
    (hws : ∀ w ∈ ws, w.Valid)
    (heff : ∀ r, Segment.header ∉ r → pathEffects ws r ((j.descend r).map (nodeValueOf codec)) =
      (j'.descend r).map (nodeValueOf codec)) :
    ∃ st', applyBatch st (ws.map (PathWrite.toWrite pk colID)) = some st' ∧ Holds codec pk colID st' j' ∧
      ∀ k, ¬ columnPrefix pk colID <+: k → st'.get k = st.get k := by
  obtain ⟨st', hst'⟩ := applyBatch_isSome (ws.map (PathWrite.toWrite pk colID)) st (by
    intro w hw
    obtain ⟨w', -, rfl⟩ := mem_map.mp hw
    cases w' <;> rfl)
  refine ⟨st', hst', ⟨fun r hr => ?_, fun k hk hsome => ?_⟩, fun k hk => ?_⟩
  · rw [get_applyBatch _ hst', effects_map_toWrite hr hws, h.get_eq r hr, heff r hr]
  · by_contra hne
    push Not at hne
    have hnone : st.get k = none := by
      cases hg : st.get k with
      | none => rfl
      | some v =>
        obtain ⟨r, hr, hkr⟩ := h.only k hk (by simp [hg])
        exact absurd hkr (hne r hr)
    rw [get_applyBatch _ hst', hnone, effects_map_toWrite_of_ne hne hws] at hsome
    simp at hsome
  · rw [get_applyBatch _ hst', effects_map_toWrite_outside hk]

variable (codec pk colID) in
/-- The entries a document writes in the column. -/
def docEntries (j : JSON) : List Entry :=
  encodeJSONSubordinateEntriesAtPath codec [] (makeFamilyKey pk 0) colID [.header] j

theorem docEntries_ascending (hn : n ≤ 2 ^ 32) (hj : j.Bounded n) :
    Ascending (docEntries codec pk colID j) := encodeJSONSubordinateEntries_ascending codec hn hj pk colID

theorem mem_docEntries (hn : n ≤ 2 ^ 32) (hj : j.Bounded n) (e : Entry) :
    e ∈ docEntries codec pk colID j ↔ ∃ r c, j.descend r = some c ∧ e = (colKey pk colID r, nodeValueOf codec c) := by
  rw [docEntries, encodeJSONSubordinateEntriesAtPath_nil, mem_map]
  refine ⟨fun ⟨pc, hpc, he⟩ => ?_, fun ⟨r, c, hd, he⟩ => ⟨(.header :: r, c), ?_, he.symm⟩⟩
  · obtain ⟨r, hr, hd⟩ := (JSON.mem_nodes hn hj _ pc.1 pc.2).mp hpc
    refine ⟨r, pc.2, hd, ?_⟩
    rw [← he, nodeEntry, hr]
    rfl
  · exact (JSON.mem_nodes hn hj _ _ _).mpr ⟨r, rfl, hd⟩

theorem find?_docEntries (hn : n ≤ 2 ^ 32) (hj : j.Bounded n) (hr : Segment.header ∉ r) :
    find? (colKey pk colID r) (docEntries codec pk colID j) = (j.descend r).map (nodeValueOf codec) := by
  apply Option.ext
  intro v
  rw [(docEntries_ascending hn hj).find?_eq_some_iff, mem_docEntries hn hj, Option.map_eq_some_iff]
  refine ⟨fun ⟨r', c, hd, he⟩ => ?_, fun ⟨c, hd, hv⟩ => ⟨r, c, hd, by rw [hv]⟩⟩
  have hrr : r = r' := colKey_inj hr (JSON.header_not_mem_of_descend hd) (Prod.mk.inj he).1
  exact ⟨c, hrr ▸ hd, (Prod.mk.inj he).2.symm⟩

/-- A column holds a document exactly when scanning it gives the document's entries. -/
theorem holds_iff_scan (hn : n ≤ 2 ^ 32) (hj : j.Bounded n) (st : KV) :
    Holds codec pk colID st j ↔
      st.scan (columnPrefix pk colID) (prefixEnd (columnPrefix pk colID)) = docEntries codec pk colID j := by
  rw [st.scan_eq_iff _ _ (docEntries_ascending hn hj) (fun e he => ?_)]
  · refine ⟨fun h k hlo hhi => ?_, fun h => ⟨fun r hr => ?_, fun k hk hsome => ?_⟩⟩
    · have hk : columnPrefix pk colID <+: k := (mem_column_span pk colID k).mp ⟨hlo, hhi⟩
      cases hg : st.get k with
      | some v =>
        obtain ⟨r, hr, rfl⟩ := h.only k hk (by simp [hg])
        rw [← hg, h.get_eq r hr]
        exact (find?_docEntries hn hj hr).symm
      | none =>
        symm
        rw [(docEntries_ascending hn hj).find?_eq_none_iff]
        intro w hw
        obtain ⟨r, c, hd, he⟩ := (mem_docEntries hn hj _).mp hw
        have hr := JSON.header_not_mem_of_descend hd
        rw [(Prod.mk.inj he).1, h.get_eq r hr, hd] at hg
        cases hg
    · have hin := (mem_column_span pk colID (colKey pk colID r)).mpr (columnPrefix_prefix_colKey r)
      rw [h _ hin.1 hin.2]
      exact find?_docEntries hn hj hr
    · have hin := (mem_column_span pk colID _).mpr hk
      rw [h k hin.1 hin.2] at hsome
      obtain ⟨v, hv⟩ := Option.isSome_iff_exists.mp hsome
      obtain ⟨r, c, hd, he⟩ := (mem_docEntries hn hj _).mp (find?_mem hv)
      exact ⟨r, JSON.header_not_mem_of_descend hd, (Prod.mk.inj he).1⟩
  · obtain ⟨r, c, -, rfl⟩ := (mem_docEntries hn hj _).mp he
    exact (mem_column_span pk colID _).mpr (columnPrefix_prefix_colKey r)

end Column

end Ratel.Row
