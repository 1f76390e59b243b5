import Ratel.Row.RowStore

/- Runs of row operations. The row's value is meant to be what was last written to it
   (`logicalStep`); what is read is what `NextRowDecoded` makes of the store, or `NextRow`,
   which may leave a NULL unset (`readRow`). The two agree along every run whose steps are
   `Allowed`: a blind overwrite leaves none of the old row's subordinate keys behind,
   `ClearSubordinateJSONColumn` is used on a column that is NULL already, and every document
   written has subordinate keys that decode.

   The invariant (`Represents`) ties the three places a value is in together: the subordinate
   keys hold the row's value, and the tuple was made from values that show the row's value
   wherever there are no subordinate keys. -/
namespace Ratel.Row

open Ratel.Lib Ratel.Encoding Ratel.Keys Ratel.Rowenc List Function

/-- An operation on one row. `update` takes as old values the row as it is read. -/
inductive RowOp
  | insert (values : Values) (overwrite : Bool)
  | update (updates : List (UInt32 × Datum))
  | delete
  | updateJSON (colID : UInt32) (op : MutationOp)
  | clearJSON (colID : UInt32)

/-- Fetched values by column id. -/
def rowOf (table : Table) (values : List Datum) : Values := fun id =>
  ((table.columns.zip values).find? fun cv => cv.1.id = id).elim .null Prod.snd

/-- Apply a batch; one that fails changes nothing. -/
def runBatch (st : KV) (batch : Batch) : KV := (applyBatch st batch).getD st

section Run
variable (codec : JsonCodec) (table : Table) (pk : PrimaryKey)

/-- Execute an operation; one that fails changes nothing. -/
def execute (st : KV) : RowOp → KV
  | .insert values overwrite => runBatch st (insertRow codec table pk.bytes values overwrite)
  | .update updates =>
    match readRowDecoded codec table pk.bytes st with
    | .ok (some values) => runBatch st (updateRow codec table pk.bytes (rowOf table values) updates)
    | _ => st
  | .delete => runBatch st (deleteRow pk.bytes)
  | .updateJSON colID op =>
    match updateSubordinateJSONRow codec st [] pk.bytes colID op with
    | .ok batch => runBatch st batch
    | .error _ => st
  | .clearJSON colID => runBatch st (clearSubordinateJSONColumn [] pk.bytes colID)

/-- The value a direct update gives a column. A NULL has no document to change. -/
def mutated (op : MutationOp) : Datum → Datum
  | .json j =>
    match applyGeneric j op with
    | .ok j' => .json j'
    | .error _ => .json j
  | d => d

/-- What an operation makes of the row. Inserting a row that exists fails unless it
    overwrites. -/
def logicalStep (row : Option Values) : RowOp → Option Values
  | .insert values true => some values
  | .insert values false => some (row.getD values)
  | .update updates => row.map fun row => applyUpdates row updates
  | .delete => none
  | .updateJSON colID op => row.map fun row => update row colID (mutated op (row colID))
  | .clearJSON colID => row.map fun row => update row colID .null

/-- Values of the columns' types, not NULL where the column must not be, whose
    subordinate keys decode. -/
def ValidRow (values : Values) : Prop :=
  StorableRow table values ∧ ∀ col ∈ table.columns, col.nonNullable = true → values col.id ≠ .null

/-- An operation that keeps what is read in step with what was written. -/
def Allowed (row : Option Values) : RowOp → Prop
  | .insert values overwrite => ValidRow table values ∧
      (overwrite = true → ∀ old ∈ row, ∀ e ∈ encodeSubordinateKeys codec table pk.bytes old,
        e.1 ∈ (encodeSubordinateKeys codec table pk.bytes values).map Prod.fst)
  | .update updates => ∀ old ∈ row, ValidRow table (applyUpdates old updates)
  | .delete => True
  | .updateJSON colID op => op.WF ∧ ∃ col ∈ table.columns, col.id = colID ∧ col.typ = .json ∧
      ∀ old ∈ row, Storable col (mutated op (old colID))
  | .clearJSON colID => ∃ col ∈ table.columns, col.id = colID ∧ col.typ = .json ∧ ∀ old ∈ row, old colID = .null

/-- The tuple shows the column's value where it has no subordinate keys, and has a copy
    of any document, though maybe an old one. -/
def InStep (col : Column) (inline datum : Datum) : Prop :=
  shown col inline datum = datum ∧ inTuple col inline = inTuple col datum

/-- The store holds the row, or the absence of one. -/
def Represents (st : KV) : Option Values → Prop
  | none => RowAbsent pk st
  | some row => ValidRow table row ∧ ∃ inline, RowStored codec table pk st inline row ∧
      ∀ col ∈ table.columns, InStep col (inline col.id) (row col.id)

end Run

section Steps
variable {codec : JsonCodec} {table : Table} {pk : PrimaryKey} {st : KV}

variable {row : Option Values} {col : Column} {values : Values}

theorem RowStored.readRow_inStep {row inline : Values} (h : RowStored codec table pk st inline row)
    (hvalid : ValidRow table row) (hstep : ∀ col ∈ table.columns, InStep col (inline col.id) (row col.id)) :
    ∃ values, readRow codec table pk.bytes st = .ok (some values) ∧
      values.map (·.getD .null) = (table.columns.map fun col => row col.id) ∧
      ((∀ value ∈ values, value.isSome) ↔ table.AllSet row row) := by
  obtain ⟨values, hread, hvalues, hall⟩ := h.readRow_spec fun col hcol hn => by
    rw [(hstep col hcol).1]
    exact hvalid.2 col hcol hn
  refine ⟨values, hread, hvalues.trans (map_congr_left fun col hcol => (hstep col hcol).1), hall.trans ?_⟩
  have hcongr : ∀ f : Bool → Column → Bool, table.columns.countP (fun col => f (inTuple col (inline col.id)) col) =
      table.columns.countP fun col => f (inTuple col (row col.id)) col :=
    fun f => countP_congr fun col hcol => by rw [(hstep col hcol).2]
  simp only [Table.AllSet, hcongr fun b col => b && hasEntries col (row col.id),
    hcongr fun b col => !b && !hasEntries col (row col.id)]

theorem Represents.readRowDecoded_eq (h : Represents codec table pk st row) :
    readRowDecoded codec table pk.bytes st = .ok (row.map fun row => table.columns.map fun col => row col.id) := by
  cases row with
  | none => rw [readRowDecoded, RowAbsent.readRow_eq h]; rfl
  | some row =>
    obtain ⟨hvalid, inline, hstored, hstep⟩ := h
    obtain ⟨values, hread, hvalues, -⟩ := hstored.readRow_inStep hvalid hstep
    rw [readRowDecoded, hread, Option.map_some, ← hvalues]
    rfl

/-- Values written in full are in step with themselves. -/
theorem inStep_self {datum : Datum} (h : Storable col datum) : InStep col datum datum := by
  cases datum with
  | null | scalar _ => simp [InStep, shown, hasEntries, inTuple]
  | array elems =>
    obtain ⟨htyp, -⟩ := h
    by_cases hnil : elems = [] <;> simp [InStep, shown, hasEntries, inTuple, htyp]
  | json j => simp [InStep, shown, hasEntries, inTuple, h.1]

theorem runBatch_eq {st' : KV} {batch : Batch} (h : applyBatch st batch = some st') : runBatch st batch = st' := by
  rw [runBatch, h]
  rfl

/-- A row whose sentinel and subordinate keys are those of `values` represents it. -/
theorem represents_written (hvalid : ValidRow table values)
    (hsentinel : st.get (makeFamilyKey pk.bytes 0) = some (.tuple (rowTuple table values)))
    (hentries : ∀ k v, makeFamilyKey pk.bytes 0 < k → k < makeFamilyKey pk.bytes 1 →
      (st.get k = some v ↔ (k, v) ∈ encodeSubordinateKeys codec table pk.bytes values)) :
    Represents codec table pk st (some values) :=
  ⟨hvalid, values, ⟨hvalid.1, hsentinel, hentries⟩, fun col hcol => inStep_self (hvalid.1 col hcol)⟩

/-! `InsertRow`. -/

theorem sentinel_not_mem (hst : StorableRow table values) :
    makeFamilyKey pk.bytes 0 ∉ (encodeSubordinateKeys codec table pk.bytes values).map Prod.fst := by
  intro hmem
  obtain ⟨e, he, hk⟩ := mem_map.mp hmem
  exact absurd (hk ▸ (entry_mem_range hst he).1) (lt_irrefl _)

theorem putFn_sets (overwrite : Bool) (e : Entry) : (putFn overwrite e).Sets e := by
  cases overwrite with
  | true => exact .inl rfl
  | false => exact .inr rfl

/-- What inserting a row leaves at the sentinel and between it and the row's end. -/
theorem get_insertRow (hst : StorableRow table values) {overwrite : Bool} {st' : KV}
    (h : applyBatch st (insertRow codec table pk.bytes values overwrite) = some st') :
    st'.get (makeFamilyKey pk.bytes 0) = some (.tuple (rowTuple table values)) ∧ ∀ k v, makeFamilyKey pk.bytes 0 < k →
        (st'.get k = some v ↔ (k, v) ∈ encodeSubordinateKeys codec table pk.bytes values ∨
          (k ∉ (encodeSubordinateKeys codec table pk.bytes values).map Prod.fst ∧ st.get k = some v)) := by
  have hnodup : ((encodeSubordinateKeys codec table pk.bytes values).map Prod.fst).Nodup :=
    encodeSubordinateKeys_nodup hst
  refine ⟨?_, fun k v hk => ?_⟩
  · rw [get_applyBatch _ h, insertRow, effects_cons, (putFn_sets _ _).effect_eq, if_pos rfl,
      effects_sets (putFn_sets overwrite) _ _ hnodup]
    exact .inr ⟨sentinel_not_mem hst, rfl⟩
  · rw [get_applyBatch _ h, insertRow, effects_cons, (putFn_sets _ _).effect_eq, if_neg (ne_of_gt hk),
      effects_sets (putFn_sets overwrite) _ _ hnodup]

theorem insert_absent (hvalid : ValidRow table values) (habs : RowAbsent pk st) (overwrite : Bool) :
    Represents codec table pk (runBatch st (insertRow codec table pk.bytes values overwrite)) (some values) := by
  have hnodup : ((encodeSubordinateKeys codec table pk.bytes values).map Prod.fst).Nodup :=
    encodeSubordinateKeys_nodup hvalid.1
  -- all keys are new, so conditional puts apply as well
  obtain ⟨st', hst'⟩ : ∃ st', applyBatch st (insertRow codec table pk.bytes values overwrite) = some st' := by
    cases overwrite with
    | true => exact applyBatch_isSome _ st (forall_mem_cons.mpr ⟨rfl, forall_mem_map.mpr fun _ _ => rfl⟩)
    | false =>
      refine applyBatch_cput ((makeFamilyKey pk.bytes 0, .tuple (rowTuple table values)) ::
        encodeSubordinateKeys codec table pk.bytes values) ?_ (forall_mem_cons.mpr ⟨?_, fun e he => ?_⟩)
      · exact nodup_cons.mpr ⟨sentinel_not_mem hvalid.1, hnodup⟩
      · exact habs _ (le_refl _) (sentinel_lt_end _)
      · obtain ⟨hlo, hhi, -⟩ := entry_mem_range hvalid.1 he
        exact habs _ (le_of_lt hlo) hhi
  obtain ⟨hsent, hget⟩ := get_insertRow hvalid.1 hst'
  rw [runBatch_eq hst']
  refine represents_written hvalid hsent fun k v hlo hhi => ?_
  rw [hget k v hlo, habs k (le_of_lt hlo) hhi]
  simp

/-- A conditional insert of a row that is there fails at the sentinel. -/
theorem insert_present {inline stored : Values} (h : RowStored codec table pk st inline stored) (values : Values) :
    runBatch st (insertRow codec table pk.bytes values false) = st := by
  have hfail : applyBatch st (insertRow codec table pk.bytes values false) = none := by
    rw [insertRow, applyBatch, foldlM_cons, putFn, if_neg (by simp), Write.apply, h.sentinel]
    rfl
  rw [runBatch, hfail]
  rfl

/-- An overwrite that leaves none of the old keys behind. -/
theorem insert_overwrite {inline stored : Values} (hvalid : ValidRow table values)
    (h : RowStored codec table pk st inline stored)
    (hkeys : ∀ e ∈ encodeSubordinateKeys codec table pk.bytes stored,
      e.1 ∈ (encodeSubordinateKeys codec table pk.bytes values).map Prod.fst) :
    Represents codec table pk (runBatch st (insertRow codec table pk.bytes values true)) (some values) := by
  obtain ⟨st', hst'⟩ := applyBatch_isSome (insertRow codec table pk.bytes values true) st
    (forall_mem_cons.mpr ⟨rfl, forall_mem_map.mpr fun _ _ => rfl⟩)
  obtain ⟨hsent, hget⟩ := get_insertRow hvalid.1 hst'
  rw [runBatch_eq hst']
  refine represents_written hvalid hsent fun k v hlo hhi => ?_
  rw [hget k v hlo, h.entries k v hlo hhi, or_iff_left]
  exact fun ⟨hnew, hold⟩ => hnew (hkeys _ hold)

/-! `UpdateRow`. -/

theorem rowOf_map (row : Values) (hcol : col ∈ table.columns) :
    rowOf table (table.columns.map fun col => row col.id) col.id = row col.id := by
  have hzip : table.columns.zip (table.columns.map fun col => row col.id) =
      table.columns.map fun c => (c, row c.id) := by
    conv_lhs => rw [← map_id table.columns, map_map, zip_map']
    rfl
  have hfind : (table.columns.map fun c => (c, row c.id)).find? (fun cv => cv.1.id = col.id) =
      some (col, row col.id) := by
    rw [find?_map]
    exact congrArg _ (column?_eq hcol)
  rw [rowOf, hzip, hfind]
  rfl

theorem applyUpdates_congr {a b : Values} {id : UInt32} : ∀ (updates : List (UInt32 × Datum)), a id = b id →
    applyUpdates a updates id = applyUpdates b updates id := by
  intro updates
  induction updates generalizing a b with
  | nil => exact fun h => h
  | cons cd updates ih =>
    intro h
    refine ih ?_
    show update a cd.1 cd.2 id = update b cd.1 cd.2 id
    by_cases hid : id = cd.1
    · rw [hid, update_self, update_self]
    · rw [update_of_ne hid, update_of_ne hid, h]

theorem applyUpdates_of_not_mem {row : Values} {id : UInt32} : ∀ {updates : List (UInt32 × Datum)},
    id ∉ updates.map Prod.fst → applyUpdates row updates id = row id := by
  intro updates
  induction updates generalizing row with
  | nil => exact fun _ => rfl
  | cons cd updates ih =>
    intro h
    rw [map_cons, mem_cons, not_or] at h
    exact (ih h.2).trans (update_of_ne h.1 _ _)

/-- Of the keys that are not among the new, the old ones are deleted. -/
theorem effects_deleteOldEntries {k : Bytes} {v : Value} : ∀ {olds news : List Entry} {old : Option Value},
    k ∉ news.map Prod.fst →
    (effects (deleteOldEntries olds news) k old = some v ↔ k ∉ olds.map Prod.fst ∧ old = some v)
  | [], _, old, _ => by simp [deleteOldEntries]
  | e :: olds, [], old, h => by
    rw [deleteOldEntries, effects_cons, effects_deleteOldEntries h, map_cons]
    by_cases hk : k = e.1 <;> simp [Write.effect, hk]
  | e :: olds, n :: news, old, h => by
    rw [map_cons, mem_cons, not_or] at h
    rw [deleteOldEntries, map_cons, mem_cons]
    split
    · rename_i hsame
      have hk : k ≠ e.1 := fun hk => h.1 (hk.trans hsame)
      rw [effects_deleteOldEntries h.2, not_or]
      simp only [hk, not_false_eq_true, true_and]
    · rw [effects_cons, effects_deleteOldEntries h.2]
      by_cases hk : k = e.1 <;> simp [Write.effect, hk]

theorem deleteOldEntries_mem : ∀ {olds news : List Entry} {w : Write Bytes Value},
    w ∈ deleteOldEntries olds news → ∃ e ∈ olds, w = .del e.1
  | [], _, w, h => by simp [deleteOldEntries] at h
  | e :: olds, [], w, h => (exists_mem_cons_iff _ _ _).mpr ((mem_cons.mp h).imp_right deleteOldEntries_mem)
  | e :: olds, n :: news, w, h => by
    rw [deleteOldEntries] at h
    split at h
    · exact (exists_mem_cons_iff _ _ _).mpr (.inr (deleteOldEntries_mem h))
    · exact (exists_mem_cons_iff _ _ _).mpr ((mem_cons.mp h).imp_right deleteOldEntries_mem)

/-- Deleting old entries and putting new ones leaves the new ones, and the sentinel. -/
theorem replace_entries {old new : Values} (hold : StorableRow table old) (hnew : StorableRow table new)
    (hst : ∀ k v, makeFamilyKey pk.bytes 0 < k → k < makeFamilyKey pk.bytes 1 →
      (st.get k = some v ↔ (k, v) ∈ encodeSubordinateKeys codec table pk.bytes old)) :
    ∃ st', applyBatch st (deleteOldEntries (encodeSubordinateKeys codec table pk.bytes old)
        (encodeSubordinateKeys codec table pk.bytes new) ++
        (encodeSubordinateKeys codec table pk.bytes new).map fun e => .put e.1 e.2) = some st' ∧
      st'.get (makeFamilyKey pk.bytes 0) = st.get (makeFamilyKey pk.bytes 0) ∧
      ∀ k v, makeFamilyKey pk.bytes 0 < k → k < makeFamilyKey pk.bytes 1 →
        (st'.get k = some v ↔ (k, v) ∈ encodeSubordinateKeys codec table pk.bytes new) := by
  refine (applyBatch_isSome _ st (forall_mem_append.mpr ⟨fun w hw => ?_, forall_mem_map.mpr fun _ _ => rfl⟩)).imp
    fun st' hst' => ⟨hst', ?_⟩
  · obtain ⟨e, -, rfl⟩ := deleteOldEntries_mem hw
    rfl
  have hget : ∀ k v, st'.get k = some v ↔ (k, v) ∈ encodeSubordinateKeys codec table pk.bytes new ∨
      (k ∉ (encodeSubordinateKeys codec table pk.bytes new).map Prod.fst ∧
        k ∉ (encodeSubordinateKeys codec table pk.bytes old).map Prod.fst ∧ st.get k = some v) := by
    intro k v
    rw [get_applyBatch k hst', effects_append, effects_sets (fun e => .inl rfl) k v (encodeSubordinateKeys_nodup hnew)]
    refine or_congr_right (and_congr_right fun hk => ?_)
    exact effects_deleteOldEntries hk
  refine ⟨?_, fun k v hlo hhi => ?_⟩
  · apply Option.ext
    intro v
    rw [hget, or_iff_right fun hmem => sentinel_not_mem hnew (mem_map_of_mem hmem)]
    simp only [sentinel_not_mem hnew, sentinel_not_mem hold, not_false_eq_true, true_and]
  · rw [hget, or_iff_left]
    rintro ⟨-, hout, hval⟩
    exact hout (mem_map.mpr ⟨(k, v), (hst k v hlo hhi).mp hval, rfl⟩)

/-- Whether or not the sentinel is rewritten, the updated row is in the store. -/
theorem update_row {row : Values} (h : Represents codec table pk st (some row)) {updates : List (UInt32 × Datum)}
    (hvalid : ValidRow table (applyUpdates row updates)) {oldValues : Values}
    (hold : ∀ col ∈ table.columns, oldValues col.id = row col.id) :
    Represents codec table pk (runBatch st (updateRow codec table pk.bytes oldValues updates))
      (some (applyUpdates row updates)) := by
  obtain ⟨-, inline, hstored, hshown⟩ := h
  have hnew : ∀ col ∈ table.columns, applyUpdates oldValues updates col.id = applyUpdates row updates col.id :=
    fun col hcol => applyUpdates_congr updates (hold col hcol)
  simp only [updateRow]
  rw [encodeSubordinateKeys_congr hnew, encodeSubordinateKeys_congr hold, rowTuple_congr hnew, append_assoc]
  split
  · -- the sentinel first, which is below all subordinate keys
    have hst : ∀ k v, makeFamilyKey pk.bytes 0 < k → k < makeFamilyKey pk.bytes 1 →
        ((st.put (makeFamilyKey pk.bytes 0) (.tuple (rowTuple table (applyUpdates row updates)))).get k =
          some v ↔ (k, v) ∈ encodeSubordinateKeys codec table pk.bytes row) := by
      intro k v hlo hhi
      rw [Store.get_put, if_neg (ne_of_gt hlo)]
      exact hstored.entries k v hlo hhi
    obtain ⟨st', hst', hsent, hentries⟩ := replace_entries hstored.storable hvalid.1 hst
    have hrun : ∀ ws, applyBatch (st.put (makeFamilyKey pk.bytes 0) (.tuple (rowTuple table
        (applyUpdates row updates)))) ws = some st' → runBatch st ([.put (makeFamilyKey pk.bytes 0)
          (.tuple (rowTuple table (applyUpdates row updates)))] ++ ws) = st' :=
      fun ws hws => runBatch_eq (by exact hws)
    rw [hrun _ hst']
    refine represents_written hvalid ?_ hentries
    rw [hsent, Store.get_put, if_pos rfl]
  · -- no column of the row was named
    rename_i hupd
    obtain ⟨st', hst', hsent, hentries⟩ := replace_entries hstored.storable hvalid.1 hstored.entries
    rw [nil_append, runBatch_eq hst']
    refine ⟨hvalid, inline, ⟨hvalid.1, hsent.trans hstored.sentinel, hentries⟩, fun col hcol => ?_⟩
    rw [applyUpdates_of_not_mem fun hmem => hupd (.inl (any_eq_true.mpr ⟨col, hcol, by simpa using hmem⟩))]
    exact hshown col hcol

/-! `DeleteRow`. -/

theorem delete_row (h : Represents codec table pk st row) :
    RowAbsent pk (runBatch st (deleteRow pk.bytes)) := by
  obtain ⟨st', hst'⟩ := applyBatch_isSome (deleteRow pk.bytes) st (by
    intro w hw
    simp only [deleteRow, mem_cons, not_mem_nil, or_false] at hw
    rcases hw with rfl | rfl <;> rfl)
  rw [runBatch_eq hst']
  intro k hlo hhi
  rw [get_applyBatch k hst', deleteRow, effects_cons, effects_cons]
  by_cases hk : k = makeFamilyKey pk.bytes 0
  · exact if_pos hk
  have hgt : makeFamilyKey pk.bytes 0 < k := lt_of_le_of_ne hlo (Ne.symm hk)
  simp only [Write.effect, if_neg hk]
  split
  · rfl
  rename_i hrange
  cases row with
  | none => exact h k hlo hhi
  | some row =>
    obtain ⟨-, inline, hstored, -⟩ := h
    cases hget : st.get k with
    | none => rfl
    | some v =>
      have he := (hstored.entries k v hgt hhi).mp hget
      exact absurd ⟨(entry_mem_range hstored.storable he).2.2, hhi⟩ hrange

/-! Direct updates of a JSON column. -/

theorem Represents.column_empty (h : Represents codec table pk st row)
    (hcol : col ∈ table.columns) (hnull : ∀ old ∈ row, old col.id = .null) {k : Bytes}
    (hk : columnPrefix pk.bytes col.id <+: k) : st.get k = none := by
  cases row with
  | none =>
    obtain ⟨hlo, hhi⟩ := columnPrefix_mem_range hk
    exact h k (le_of_lt hlo) hhi
  | some row =>
    obtain ⟨-, inline, hstored, -⟩ := h
    refine hstored.column_empty hcol ?_ hk
    rw [hnull row rfl]
    rfl

/-- A column without keys has no document to update. -/
theorem update_empty {colID : UInt32} (h : ∀ k, columnPrefix pk.bytes colID <+: k → st.get k = none)
    (batch : Batch) (op : MutationOp) :
    updateSubordinateJSONRow codec st batch pk.bytes colID op = errorf "missing subordinate JSON node value" := by
  have hlocal : tryApplyLocal codec st (makeFamilyKey pk.bytes 0) colID batch op = .ok none := by
    have hget : getExact st (makeFamilyKey pk.bytes 0) colID [.header] = none :=
      h _ (columnPrefix_prefix_colKey [])
    rw [tryApplyLocal, hget]
    rfl
  have hscan : st.scan (columnPrefix pk.bytes colID) (prefixEnd (columnPrefix pk.bytes colID)) = [] := by
    refine eq_nil_iff_forall_not_mem.mpr fun e he => ?_
    obtain ⟨hin, hget⟩ := (st.mem_scan _ _ e).mp he
    rw [h e.1 ((mem_column_span pk.bytes colID e.1).mp hin)] at hget
    cases hget
  rw [columnPrefix] at hscan
  simp only [updateSubordinateJSONRow, hlocal, readSubordinateJSONValue, hscan]
  rfl

section Document
variable {row : Values} (h : Represents codec table pk st (some row)) (hcol : col ∈ table.columns) (htyp : col.typ = .json)

include h hcol htyp

/-- Giving a JSON column another document, in its keys alone, gives the row that value. -/
theorem update_document {j j' : JSON} (hj : row col.id = .json j) (hj' : Storable col (.json j')) {batch : Batch}
    (hed : Edits codec pk col.id [] j j' (.ok batch)) :
    Represents codec table pk (runBatch st batch) (some (update row col.id (.json j'))) := by
  obtain ⟨⟨-, hnull⟩, inline, hstored, hshown⟩ := h
  obtain ⟨ws, hbatch, hval, heff⟩ := hed
  obtain ⟨st', happly, hholds, hframe⟩ := (hstored.holds hcol hj).holds.apply hval heff
  rw [nil_append] at hbatch
  cases hbatch
  rw [runBatch_eq happly]
  have hstored' := hstored.update_json hcol hj' hholds hframe
  refine ⟨⟨hstored'.storable, fun c hc hn => ?_⟩, inline, hstored', fun c hc => ?_⟩
  · by_cases hid : c.id = col.id
    · rw [hid]
      simp
    · rw [update_of_ne hid]
      exact hnull c hc hn
  by_cases hid : c.id = col.id
  · have hcc := eq_of_id hc hcol hid
    subst hcc
    refine ⟨by simp [shown, hasEntries, htyp], ?_⟩
    rw [(hshown c hc).2, hj, update_self]
    rfl
  · rw [update_of_ne hid]
    exact hshown c hc

/-- A direct update of a row's document fails as the operation does, or gives the row
    the operation's result. -/
theorem update_row_json {j : JSON} (hj : row col.id = .json j) {op : MutationOp} (hop : op.WF)
    (hnew : Storable col (mutated op (.json j))) :
    match applyGeneric j op with
    | .error e => updateSubordinateJSONRow codec st [] pk.bytes col.id op = .error e
    | .ok j' => ∃ batch, updateSubordinateJSONRow codec st [] pk.bytes col.id op = .ok batch ∧
        Represents codec table pk (runBatch st batch) (some (update row col.id (.json j'))) := by
  obtain ⟨-, inline, hstored, -⟩ := id h
  have hspec := updateSubordinateJSONRow_spec (hstored.holds hcol hj) [] hop
  cases hgen : applyGeneric j op with
  | error e => simpa only [hgen] using hspec
  | ok j' =>
    simp only [hgen, mutated] at hspec hnew ⊢
    have hed := hspec
    obtain ⟨ws, hbatch, -, -⟩ := hspec
    rw [hbatch] at hed
    exact ⟨_, hbatch, update_document h hcol htyp hj hnew hed⟩

theorem json_column : row col.id = .null ∨ ∃ j, row col.id = .json j := by
  have hst := h.1.1 col hcol
  cases hrow : row col.id with
  | null => exact .inl rfl
  | json j => exact .inr ⟨j, rfl⟩
  | scalar p =>
    rw [hrow] at hst
    cases htyp.symm.trans hst
  | array elems =>
    rw [hrow] at hst
    cases htyp.symm.trans hst.1

end Document

theorem update_json (h : Represents codec table pk st row)
    (hcol : col ∈ table.columns) (htyp : col.typ = .json) {op : MutationOp} (hop : op.WF)
    (hnew : ∀ old ∈ row, Storable col (mutated op (old col.id))) :
    Represents codec table pk (execute codec table pk st (.updateJSON col.id op))
      (row.map fun row => update row col.id (mutated op (row col.id))) := by
  -- no document: the update fails, and the value stays NULL
  have hempty : (∀ old ∈ row, old col.id = .null) →
      Represents codec table pk (execute codec table pk st (.updateJSON col.id op))
        (row.map fun row => update row col.id (mutated op (row col.id))) := by
    intro hnull
    have hsame : (row.map fun row => update row col.id (mutated op (row col.id))) = row := by
      cases row with
      | none => rfl
      | some row =>
        have hrow := hnull row rfl
        simp [hrow, mutated]
    have hfail : updateSubordinateJSONRow codec st [] pk.bytes col.id op = _ :=
      update_empty (fun k hk => h.column_empty hcol hnull hk) [] op
    rw [hsame]
    simp only [execute, hfail]
    exact h
  cases row with
  | none => exact hempty (by simp)
  | some row =>
    rcases json_column h hcol htyp with hrow | ⟨j, hrow⟩
    · refine hempty fun old hold => ?_
      cases hold
      exact hrow
    have hnew' := hnew row rfl
    rw [hrow] at hnew'
    have hspec := update_row_json h hcol htyp hrow hop hnew'
    simp only [Option.map_some, hrow, execute, mutated]
    cases hgen : applyGeneric j op with
    | error e =>
      simp only [hgen] at hspec
      rw [hspec]
      simp only [← hrow, update_eq_self]
      exact h
    | ok j' =>
      simp only [hgen] at hspec
      obtain ⟨batch, hbatch, hrep⟩ := hspec
      rw [hbatch]
      exact hrep

theorem clear_json (h : Represents codec table pk st row)
    (hcol : col ∈ table.columns) (hnull : ∀ old ∈ row, old col.id = .null) :
    Represents codec table pk (execute codec table pk st (.clearJSON col.id))
      (row.map fun row => update row col.id .null) := by
  have hsame : (row.map fun row => update row col.id .null) = row := by
    cases row with
    | none => rfl
    | some row =>
      have hrow := hnull row rfl
      simp [hrow]
  have hst : execute codec table pk st (.clearJSON col.id) = st := by
    have happly : applyBatch st (clearSubordinateJSONColumn [] pk.bytes col.id) =
        some (st.delRange (columnPrefix pk.bytes col.id) (prefixEnd (columnPrefix pk.bytes col.id))) := rfl
    rw [execute, runBatch_eq happly]
    refine Store.ext_get fun k => ?_
    rw [Store.get_delRange]
    split
    · rename_i hin
      exact (h.column_empty hcol hnull ((mem_column_span pk.bytes col.id k).mp hin)).symm
    · rfl
  rw [hsame, hst]
  exact h

/-! Runs. -/

theorem Represents.step (h : Represents codec table pk st row) (op : RowOp) (hop : Allowed codec table pk row op) :
    Represents codec table pk (execute codec table pk st op) (logicalStep row op) := by
  cases op with
  | insert values overwrite =>
    cases row with
    | none =>
      have hins : Represents codec table pk _ (some values) := insert_absent hop.1 h overwrite
      cases overwrite <;> exact hins
    | some row =>
      obtain ⟨-, inline, hstored, -⟩ := id h
      cases overwrite with
      | true => exact insert_overwrite hop.1 hstored fun e he => hop.2 rfl row rfl e he
      | false =>
        show Represents codec table pk (runBatch st _) (some row)
        rw [insert_present hstored]
        exact h
  | update updates =>
    rw [execute, h.readRowDecoded_eq]
    cases row with
    | none => exact h
    | some row => exact update_row h (hop row rfl) fun col hcol => rowOf_map row hcol
  | delete => exact delete_row h
  | updateJSON colID op =>
    obtain ⟨hwf, col, hcol, rfl, htyp, hnew⟩ := hop
    exact update_json h hcol htyp hwf hnew
  | clearJSON colID =>
    obtain ⟨col, hcol, rfl, -, hnull⟩ := hop
    exact clear_json h hcol hnull

end Steps

end Ratel.Row
