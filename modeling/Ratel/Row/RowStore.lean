import Ratel.Row.FetcherSpec
import Ratel.Row.JsonMutationSpec

/- A row in the store: its sentinel was written from one list of values, and its
   subordinate keys hold the entries of another. Reading it shows the second over the
   first (`readRow_spec`). -/
namespace Ratel.Row

open Ratel.Lib Ratel.Encoding Ratel.Keys Ratel.Rowenc List

/-! Where a row's keys lie. -/

theorem sentinel_lt_end (pk : Bytes) : makeFamilyKey pk 0 < makeFamilyKey pk 1 := by
  rw [makeFamilyKey_one]
  have hparts := (uvarint_parts (v := 0) (w := 1) (by decide) (by decide)).append [] (uvarint 1)
  exact (hparts.append_left pk).lt

section Row
variable {codec : JsonCodec} {table : Table} {pk : PrimaryKey}

/-- A row of values of the columns' types that subordinate keys can hold. -/
def StorableRow (table : Table) (values : Values) : Prop := ∀ col ∈ table.columns, Storable col (values col.id)

variable {values inline stored : Values} {st : KV} {col : Column}

theorem entry_mem_range (hst : StorableRow table values) {e : Entry}
    (he : e ∈ encodeSubordinateKeys codec table pk.bytes values) :
    makeFamilyKey pk.bytes 0 < e.1 ∧ e.1 < makeFamilyKey pk.bytes 1 ∧
      makeSubordinateKey (makeFamilyKey pk.bytes 0) 0 0 ≤ e.1 := by
  obtain ⟨col, hcol, he'⟩ := mem_encodeSubordinateKeys.mp he
  obtain ⟨path, hne, hfirst, -, hkey⟩ := mem_columnEntries pk.bytes (hst col hcol) he'
  have hpos : (0 : UInt32) < col.id := by
    have h0 : col.id.toNat ≠ 0 := fun h => table.id_pos col hcol (UInt32.toNat_inj.mp h)
    exact UInt32.lt_iff_toNat_lt.mpr (Nat.pos_of_ne_zero h0)
  rw [hkey]
  refine ⟨sentinel_lt_subordinateKey _ _ _, (subordinateKey_mem_rowRange _ _ _).2, le_of_lt ?_⟩
  exact (subordinateKey_parts pk.bytes (by simp) hfirst (.inl hpos)).lt

/-- The keys of a row's entries are distinct. -/
theorem encodeSubordinateKeys_nodup (hst : StorableRow table values) :
    ((encodeSubordinateKeys codec table pk.bytes values).map Prod.fst).Nodup := by
  rw [encodeSubordinateKeys, map_flatMap, nodup_flatMap]
  refine ⟨fun col hcol => ?_, ?_⟩
  · refine pairwise_map.mpr ((columnEntries_ascending pk.bytes (hst col hcol)).imp ?_)
    exact fun hlt => ne_of_lt hlt
  have hpair : table.columns.Pairwise fun a b => a.id ≠ b.id := pairwise_map.mp table.nodup
  refine hpair.imp_of_mem fun {a b} ha hb hab => ?_
  intro k hka hkb
  obtain ⟨e, he, rfl⟩ := mem_map.mp hka
  obtain ⟨e', he', hk⟩ := mem_map.mp hkb
  have h1 := entryColumn_of_mem (hst a ha) he
  have h2 := entryColumn_of_mem (hst b hb) he'
  rw [entryColumn, hk] at h2
  exact hab (Option.some.inj (h1.symm.trans h2))

/-- Rows with the same values in the table's columns are written alike. -/
theorem encodeSubordinateKeys_congr {a b : Values} (h : ∀ col ∈ table.columns, a col.id = b col.id) :
    encodeSubordinateKeys codec table pk.bytes a = encodeSubordinateKeys codec table pk.bytes b :=
  flatMap_congr fun col hcol => by rw [h col hcol]

theorem rowTuple_congr {a b : Values} (h : ∀ col ∈ table.columns, a col.id = b col.id) :
    rowTuple table a = rowTuple table b := by
  refine filterMap_congr fun col hcol => ?_
  rw [h col ((perm_insertionSort _ _).mem_iff.mp hcol)]

/-- The row is in the store: the sentinel's tuple from `inline`, the subordinate keys
    of `stored`. -/
structure RowStored (codec : JsonCodec) (table : Table) (pk : PrimaryKey) (st : KV) (inline stored : Values) :
    Prop where
  storable : StorableRow table stored
  sentinel : st.get (makeFamilyKey pk.bytes 0) = some (.tuple (rowTuple table inline))
  entries : ∀ k v, makeFamilyKey pk.bytes 0 < k → k < makeFamilyKey pk.bytes 1 →
    (st.get k = some v ↔ (k, v) ∈ encodeSubordinateKeys codec table pk.bytes stored)

def RowAbsent (pk : PrimaryKey) (st : KV) : Prop :=
  ∀ k, makeFamilyKey pk.bytes 0 ≤ k → k < makeFamilyKey pk.bytes 1 → st.get k = none

theorem RowStored.readRow_spec (h : RowStored codec table pk st inline stored)
    (hnull : ∀ col ∈ table.columns, col.nonNullable = true → shown col (inline col.id) (stored col.id) ≠ .null) :
    ∃ values, readRow codec table pk.bytes st = .ok (some values) ∧
      values.map (·.getD .null) = (table.columns.map fun col => shown col (inline col.id) (stored col.id)) ∧
      ((∀ value ∈ values, value.isSome) ↔ table.AllSet inline stored) := by
  obtain ⟨es, hscan, hasc, hes⟩ := st.scan_of_get (sentinel_lt_end pk.bytes) h.sentinel
  rw [readRow, hscan]
  refine nextRow_spec h.storable hasc (fun e => ?_) hnull
  rw [hes]
  refine ⟨fun ⟨⟨hlo, hhi⟩, hget⟩ => (h.entries e.1 e.2 hlo hhi).mp hget, fun he => ?_⟩
  obtain ⟨hlo, hhi, -⟩ := entry_mem_range h.storable he
  exact ⟨⟨hlo, hhi⟩, (h.entries e.1 e.2 hlo hhi).mpr he⟩

theorem RowStored.readRowDecoded_eq (h : RowStored codec table pk st inline stored)
    (hnull : ∀ col ∈ table.columns, col.nonNullable = true → shown col (inline col.id) (stored col.id) ≠ .null) :
    readRowDecoded codec table pk.bytes st =
      .ok (some (table.columns.map fun col => shown col (inline col.id) (stored col.id))) := by
  obtain ⟨values, hread, hvalues, -⟩ := h.readRow_spec hnull
  rw [readRowDecoded, hread, ← hvalues]
  rfl

theorem RowAbsent.readRow_eq (h : RowAbsent pk st) : readRow codec table pk.bytes st = .ok none := by
  have hscan : st.scan (makeFamilyKey pk.bytes 0) (makeFamilyKey pk.bytes 1) = [] := by
    refine eq_nil_iff_forall_not_mem.mpr fun e he => ?_
    obtain ⟨⟨hlo, hhi⟩, hget⟩ := (st.mem_scan _ _ e).mp he
    rw [h e.1 hlo hhi] at hget
    cases hget
  rw [readRow, hscan]
  rfl

/-! A row's JSON columns. -/

variable (codec pk) in
/-- The key of a JSON column's prefix belongs to that column. -/
theorem mem_columnEntries_of_columnPrefix (hst : StorableRow table values)
    (hcol : col ∈ table.columns) {e : Entry} (he : e ∈ encodeSubordinateKeys codec table pk.bytes values) :
    columnPrefix pk.bytes col.id <+: e.1 ↔ e ∈ columnEntries codec pk.bytes col (values col.id) := by
  obtain ⟨c, hc, he'⟩ := mem_encodeSubordinateKeys.mp he
  obtain ⟨path, hne, -, -, hkey⟩ := mem_columnEntries pk.bytes (hst c hc) he'
  have hiff : columnPrefix pk.bytes col.id <+: e.1 ↔ col.id = c.id := by
    rw [hkey, columnPrefix, prefix_subordinateKey_iff pk.bytes (by simp [HeaderFirst]) hne]
    exact and_iff_left nil_prefix
  rw [hiff]
  refine ⟨fun hid => ?_, fun hmem => ?_⟩
  · rw [eq_of_id hcol hc hid]
    exact he'
  have h1 := entryColumn_of_mem (hst c hc) he'
  rw [entryColumn_of_mem (hst col hcol) hmem] at h1
  exact Option.some.inj h1

/-- Everything below a column's prefix lies between the row's sentinel and its end. -/
theorem columnPrefix_mem_range {colID : UInt32} {k : Bytes} (h : columnPrefix pk.bytes colID <+: k) :
    makeFamilyKey pk.bytes 0 < k ∧ k < makeFamilyKey pk.bytes 1 := by
  obtain ⟨t, rfl⟩ := h
  obtain ⟨c, u, hu, -⟩ := uvarint_head colID.toNat
  have hpre : columnPrefix pk.bytes colID = pk.bytes ++ (uvarint 0 ++ uvarint colID.toNat) := by
    rw [columnPrefix, makeSubordinatePathPrefix_split, flatMap_nil, append_nil]
  rw [hpre, append_assoc, append_assoc]
  refine ⟨?_, ?_⟩
  · rw [makeFamilyKey_zero, ← append_assoc pk.bytes, hu]
    exact lt_append_cons _ _ _
  · rw [makeFamilyKey_one]
    exact (((uvarint_parts (by decide) (by decide)).append _ _).append_left _).lt

variable (h : RowStored codec table pk st inline stored) (hcol : col ∈ table.columns)

include h hcol

theorem RowStored.holds {j : JSON} (hj : stored col.id = .json j) :
    Stored codec pk col.id st j := by
  obtain ⟨htyp, hwf, hfit⟩ : Storable col (.json j) := hj ▸ h.storable col hcol
  have hentries : columnEntries codec pk.bytes col (stored col.id) = docEntries codec pk.bytes col.id j := by
    simp [columnEntries, htyp, hj, docEntries]
  -- below the column's prefix, the store has the document's entries
  have hget : ∀ k v, columnPrefix pk.bytes col.id <+: k →
      (st.get k = some v ↔ (k, v) ∈ docEntries codec pk.bytes col.id j) := by
    intro k v hk
    obtain ⟨hlo, hhi⟩ := columnPrefix_mem_range hk
    rw [h.entries k v hlo hhi, ← hentries]
    refine ⟨fun he => (mem_columnEntries_of_columnPrefix codec pk h.storable hcol he).mp hk, fun he => ?_⟩
    exact mem_encodeSubordinateKeys.mpr ⟨col, hcol, he⟩
  refine ⟨hwf, hfit, ⟨fun r hr => ?_, fun k hk hsome => ?_⟩⟩
  · rw [← find?_docEntries containerHeaderLenMask_le hwf hr]
    apply Option.ext
    intro v
    rw [hget _ v (columnPrefix_prefix_colKey r), (docEntries_ascending containerHeaderLenMask_le hwf).find?_eq_some_iff]
  · obtain ⟨v, hv⟩ := Option.isSome_iff_exists.mp hsome
    obtain ⟨r, c, hd, he⟩ := (mem_docEntries containerHeaderLenMask_le hwf _).mp ((hget k v hk).mp hv)
    exact ⟨r, JSON.header_not_mem_of_descend hd, (Prod.mk.inj he).1⟩

/-- A column without entries has no keys. -/
theorem RowStored.column_empty (hnone : hasEntries col (stored col.id) = false) {k : Bytes}
    (hk : columnPrefix pk.bytes col.id <+: k) : st.get k = none := by
  obtain ⟨hlo, hhi⟩ := columnPrefix_mem_range hk
  cases hget : st.get k with
  | none => rfl
  | some v =>
    have he := (mem_columnEntries_of_columnPrefix codec pk h.storable hcol ((h.entries k v hlo hhi).mp hget)).mp hk
    rw [(columnEntries_eq_nil_iff codec pk.bytes col _).mpr hnone] at he
    cases he

/-- Writing a column's keys by themselves changes that column of the stored row. -/
theorem RowStored.update_column {st' : KV} {datum : Datum} (hd : Storable col datum)
    (hcolumn : ∀ k v, columnPrefix pk.bytes col.id <+: k →
      (st'.get k = some v ↔ (k, v) ∈ columnEntries codec pk.bytes col datum))
    (hframe : ∀ k, ¬ columnPrefix pk.bytes col.id <+: k → st'.get k = st.get k) :
    RowStored codec table pk st' inline (Function.update stored col.id datum) := by
  have hst : StorableRow table (Function.update stored col.id datum) := by
    intro c hc
    by_cases hid : c.id = col.id
    · have hcc := eq_of_id hc hcol hid
      subst hcc
      rw [Function.update_self]
      exact hd
    · rw [Function.update_of_ne hid]
      exact h.storable c hc
  refine ⟨hst, ?_, fun k v hlo hhi => ?_⟩
  · rw [hframe, h.sentinel]
    intro hk
    exact absurd (columnPrefix_mem_range hk).1 (lt_irrefl _)
  by_cases hk : columnPrefix pk.bytes col.id <+: k
  · have hown := fun he => mem_columnEntries_of_columnPrefix codec pk (e := (k, v)) hst hcol he
    rw [Function.update_self] at hown
    rw [hcolumn k v hk]
    refine ⟨fun he => mem_encodeSubordinateKeys.mpr ⟨col, hcol, ?_⟩, fun he => (hown he).mp hk⟩
    rw [Function.update_self]
    exact he
  rw [hframe k hk, h.entries k v hlo hhi, mem_encodeSubordinateKeys, mem_encodeSubordinateKeys]
  -- the pair is of another column, whose value is as before
  have hother : ∀ {values : Values}, StorableRow table values → ∀ c ∈ table.columns,
      (k, v) ∈ columnEntries codec pk.bytes c (values c.id) → c.id ≠ col.id := by
    intro values hvalues c hc he hid
    have hcc := eq_of_id hc hcol hid
    subst hcc
    exact hk ((mem_columnEntries_of_columnPrefix codec pk hvalues hcol
      (mem_encodeSubordinateKeys.mpr ⟨c, hc, he⟩)).mpr he)
  refine ⟨fun ⟨c, hc, he⟩ => ⟨c, hc, ?_⟩, fun ⟨c, hc, he⟩ => ⟨c, hc, ?_⟩⟩
  · rw [Function.update_of_ne (hother h.storable c hc he)]
    exact he
  · rw [Function.update_of_ne (hother hst c hc he)] at he
    exact he

/-- Giving a column the entries of another document. -/
theorem RowStored.update_json {st' : KV} {j' : JSON} (hj' : Storable col (.json j'))
    (hholds : Holds codec pk.bytes col.id st' j')
    (hframe : ∀ k, ¬ columnPrefix pk.bytes col.id <+: k → st'.get k = st.get k) :
    RowStored codec table pk st' inline (Function.update stored col.id (.json j')) := by
  refine h.update_column hcol hj' (fun k v hk => ?_) hframe
  have hown : columnEntries codec pk.bytes col (.json j') = docEntries codec pk.bytes col.id j' := by
    simp [columnEntries, hj'.1, docEntries]
  have hin := (mem_column_span pk.bytes col.id k).mpr hk
  rw [hown, ← (holds_iff_scan containerHeaderLenMask_le hj'.2.1 st').mp hholds, st'.mem_scan]
  exact (and_iff_right hin).symm

end Row

end Ratel.Row
