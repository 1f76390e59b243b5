import Ratel.Row.Fetcher

/- What the fetcher makes of a row's key-value pairs: a column with subordinate
   entries has the value they encode, another one its value in the tuple, or NULL. A NULL
   may be left unset: a document is counted in the tuple and again with its entries, and
   the filling in of NULLs ends at the number of columns. It reaches every column exactly
   when there are no documents or fewer NULLs than documents (`AllSet`).

   The pairs of different columns may come interleaved; each column's own pairs come
   in the order in which they were encoded. -/
namespace Ratel.Row

open Ratel.Lib Ratel.Lib.Assoc Ratel.Encoding Ratel.Keys Ratel.Rowenc List Function

/-- A value of the column's type that its subordinate keys can hold. -/
def Storable (col : Column) : Datum → Prop
  | .null => True
  | .scalar _ => col.typ = .scalar
  | .array elems => col.typ = .array ∧ elems.length ≤ 2 ^ 32
  | .json j => col.typ = .json ∧ j.WF ∧ SuffixesFit col.id j

/-! The entries of a column. -/

theorem suffixLen_element (colID i : UInt32) : suffixLen colID [.arrayIndex i] ≤ 109 := by
  have hc := (uvarint_length_bounds colID.toNat).2
  have hi := (uvarint_length_bounds i.toNat).2
  have hs : suffixLen colID [.arrayIndex i] = 3 + (uvarint colID.toNat).length + (uvarint i.toNat).length := by
    simp [suffixLen, subordinateSuffix, Segment.bytes, Segment.kind, show uvarint 0 = [0x88] from rfl,
      show uvarint 1 = [0x89] from rfl]
    omega
  omega

section Column
variable {codec : JsonCodec} {col : Column} {datum : Datum}

/-- The key of a column's entry has a path that decodes. -/
theorem mem_columnEntries (pk : Bytes) (h : Storable col datum) {e : Entry}
    (he : e ∈ columnEntries codec pk col datum) :
    ∃ path, path ≠ [] ∧ HeaderFirst path ∧ suffixLen col.id path ≤ 109 ∧
      e.1 = makeSubordinatePathKey (makeFamilyKey pk 0) col.id path := by
  unfold columnEntries at he
  split at he
  · obtain ⟨ei, -, rfl⟩ := mem_map.mp he
    exact ⟨[.arrayIndex (UInt32.ofNat ei.2)], by simp, by simp [HeaderFirst], suffixLen_element _ _, rfl⟩
  · obtain ⟨-, hwf, hfit⟩ := h
    obtain ⟨pc, hpc, rfl⟩ := mem_map.mp he
    have hp := headerFirst_of_mem_nodes containerHeaderLenMask_le hwf hpc
    exact ⟨pc.1, hp.1, hp.2, hfit pc hpc, rfl⟩
  · simp at he

theorem columnEntries_ascending (pk : Bytes) (h : Storable col datum) :
    Ascending (columnEntries codec pk col datum) := by
  unfold columnEntries
  split
  · obtain ⟨-, hlen⟩ := h
    refine pairwise_map.mpr ?_
    rw [pairwise_iff_getElem]
    intro a b ha hb hab
    simp only [length_zipIdx] at ha hb
    simp only [getElem_zipIdx, Nat.zero_add]
    refine (subordinateKey_parts pk (by simp) (by simp [HeaderFirst]) (.inr ⟨rfl, ?_⟩)).lt
    exact cons_lt_cons_iff.mpr (.inl (JSON.arrayIndex_lt_arrayIndex hab (by omega)))
  · exact docEntries_ascending containerHeaderLenMask_le h.2.1
  · simp [Ascending]

/-! Building a column's value from its entries. -/

def foldBuilder (codec : JsonCodec) (col : Column) (b : Option ColumnBuilder) (es : List Entry) :
    Except Err (Option ColumnBuilder) :=
  es.foldlM (fun b e => do
    let (_, _, path) ← decodeSubordinatePathKey e.1
    let b ← columnStep codec col b path e.2
    return some b) b

theorem foldBuilder_cons (b : Option ColumnBuilder) (e : Entry) (es : List Entry) {rowPrefix : Bytes}
    {colID : UInt32} {path : Path} (hd : decodeSubordinatePathKey e.1 = .ok (rowPrefix, colID, path)) :
    foldBuilder codec col b (e :: es) =
      columnStep codec col b path e.2 >>= fun b => foldBuilder codec col (some b) es := by
  rw [foldBuilder, foldlM_cons, hd]
  simp only [bind_ok]
  cases columnStep codec col b path e.2 <;> rfl

theorem foldBuilder_json (hcol : col.typ = .json) : ∀ (es : List Entry) (b : NodeBuilder),
    foldBuilder codec col (some (.json b)) es = (fun b => some (.json b)) <$> es.foldlM (setEntry codec) b
  | [], b => rfl
  | e :: es, b => by
    rw [foldlM_cons, setEntry]
    cases hd : decodeSubordinatePathKey e.1 with
    | error err =>
      rw [foldBuilder, foldlM_cons, hd]
      rfl
    | ok rcp =>
      rw [foldBuilder_cons _ e es hd]
      simp only [columnStep, hcol]
      cases hv : decodeSubordinateJSONValueWithCardinality codec e.2 with
      | error err => rfl
      | ok kcs => exact foldBuilder_json hcol es _

theorem foldBuilder_json_none (hcol : col.typ = .json) {es : List Entry} (hes : es ≠ []) :
    foldBuilder codec col none es = foldBuilder codec col (some (.json NodeBuilder.empty)) es := by
  obtain ⟨e, es, rfl⟩ := exists_cons_of_ne_nil hes
  rw [foldBuilder, foldBuilder, foldlM_cons, foldlM_cons]
  simp only [columnStep, hcol, nodeBuilder]

theorem ArrayBuilder.set_length (arr : ArrayBuilder) (elem : Option Bytes) :
    ArrayBuilder.set arr arr.length elem = arr ++ [some elem] := by
  rw [ArrayBuilder.set]
  simp

theorem ArrayBuilder.materializeFrom_map (elems : List (Option Bytes)) : ∀ i : Nat,
    materializeFrom i (elems.map some) = .ok elems := by
  induction elems with
  | nil => exact fun i => rfl
  | cons elem elems ih =>
    intro i
    rw [map_cons, materializeFrom, ih]
    rfl

theorem foldBuilder_array (pk : PrimaryKey) (hcol : col.typ = .array) : ∀ (elems : List (Option Bytes))
    (arr : ArrayBuilder) (b : Option ColumnBuilder), (b = some (.array arr) ∨ b = none ∧ arr = []) →
    arr.length + elems.length ≤ 2 ^ 32 → elems ≠ [] →
    foldBuilder codec col b ((elems.zipIdx arr.length).map fun ei =>
      (makeSubordinateKey (makeFamilyKey pk.bytes 0) col.id (UInt32.ofNat ei.2), elementValue ei.1)) =
        .ok (some (.array (arr ++ elems.map some)))
  | [], _, _, _, _, hne => absurd rfl hne
  | elem :: elems, arr, b, hb, hlen, _ => by
    have hidx : (UInt32.ofNat arr.length).toNat = arr.length := by
      rw [UInt32.toNat_ofNat']
      simp only [length_cons] at hlen
      omega
    have helem : elementOfValue (elementValue elem) = .ok elem := by cases elem <;> rfl
    have hstep : columnStep codec col b [.arrayIndex (UInt32.ofNat arr.length)] (elementValue elem) =
        .ok (.array (arr ++ [some elem])) := by
      have hbuilder : arrayBuilder b = arr := by rcases hb with rfl | ⟨rfl, rfl⟩ <;> rfl
      simp only [columnStep, hcol, helem, hidx, hbuilder, ArrayBuilder.set_length]
      rfl
    rw [zipIdx_cons, map_cons, foldBuilder_cons _ _ _ (decodeSubordinatePathKey_short pk col.id
      [.arrayIndex (UInt32.ofNat arr.length)] (suffixLen_element _ _)), hstep, bind_ok]
    by_cases hnil : elems = []
    · subst hnil
      rfl
    have ih := foldBuilder_array pk hcol elems (arr ++ [some elem]) (some (.array (arr ++ [some elem])))
      (.inl rfl) (by simp only [length_append, length_cons, length_nil] at hlen ⊢; omega) hnil
    simp only [length_append, length_singleton] at ih
    rw [ih]
    simp

variable (codec) in
theorem foldBuilder_columnEntries (pk : PrimaryKey) (h : Storable col datum)
    (hne : columnEntries codec pk.bytes col datum ≠ []) :
    ∃ b, foldBuilder codec col none (columnEntries codec pk.bytes col datum) = .ok (some b) ∧
      b.materialize = .ok datum := by
  unfold columnEntries at hne ⊢
  split at hne
  · rename_i elems hcol
    obtain ⟨-, hlen⟩ := h
    refine ⟨_, foldBuilder_array pk hcol elems [] none (.inr ⟨rfl, rfl⟩) (by simpa using hlen) ?_, ?_⟩
    · rintro rfl
      exact hne rfl
    · rw [nil_append, ColumnBuilder.materialize, ArrayBuilder.materialize, ArrayBuilder.materializeFrom_map]
      rfl
  · rename_i j hcol
    obtain ⟨-, hwf, hfit⟩ := h
    have hbuild := buildFrom_perm codec containerHeaderLenMask_le hwf pk hfit (List.Perm.refl _)
    rw [buildFrom] at hbuild
    rw [encodeJSONSubordinateEntriesAtPath_nil] at hne ⊢
    obtain ⟨b, hb, hbuild⟩ := exists_of_bind_ok hbuild
    refine ⟨.json b, ?_, ?_⟩
    · rw [foldBuilder_json_none hcol hne, foldBuilder_json hcol, hb]
      rfl
    · rw [ColumnBuilder.materialize, hbuild]
      rfl
  · exact absurd rfl hne

end Column

/-! The pairs of a row. -/

section Row
variable {codec : JsonCodec} {table : Table} {pk : PrimaryKey}

variable {col : Column} {e : Entry} {values stored : Values} {es : List Entry}

theorem eq_of_id {c d : Column} (hc : c ∈ table.columns) (hd : d ∈ table.columns) (h : c.id = d.id) : c = d :=
  inj_on_of_nodup_map table.nodup hc hd h

theorem column?_eq (h : col ∈ table.columns) : table.column? col.id = some col := by
  have hsome : (table.columns.find? fun c => c.id = col.id).isSome := find?_isSome.mpr ⟨col, h, decide_eq_true rfl⟩
  obtain ⟨c, hc⟩ := Option.isSome_iff_exists.mp hsome
  have hid : c.id = col.id := by simpa using find?_some hc
  exact hc.trans (congrArg some (eq_of_id (mem_of_find?_eq_some hc) h hid))

theorem processKV_sentinel (s : FetchState) (columns : List (UInt32 × Datum)) :
    processKV codec table pk.bytes s (makeFamilyKey pk.bytes 0, .tuple columns) =
      .ok (processValueBytes table columns s) := by
  have hdrop : (makeFamilyKey pk.bytes 0).drop pk.bytes.length = uvarint 0 := by
    rw [makeFamilyKey_zero, drop_left]
  simp only [processKV, hdrop, show decodeUvarintAscending (uvarint 0) = .ok ([], 0) from rfl]

theorem processKV_subordinate (s : FetchState) (hcol : col ∈ table.columns) {path : Path}
    (hfit : suffixLen col.id path ≤ 109)
    (he : e.1 = makeSubordinatePathKey (makeFamilyKey pk.bytes 0) col.id path) :
    processKV codec table pk.bytes s e = columnStep codec col (s.builders col.id) path e.2 >>= fun b =>
      .ok { s with builders := update s.builders col.id (some b) } := by
  obtain ⟨c, rest, hrest⟩ : ∃ c rest, uvarint col.id.toNat ++ (path.flatMap Segment.bytes ++
      (uvarint 0 ++ uvarint (suffixLen col.id path))) = c :: rest := by
    obtain ⟨c, t, ht, -⟩ := uvarint_head col.id.toNat
    exact ⟨c, _, by rw [ht, cons_append]⟩
  have hdrop : e.1.drop pk.bytes.length = uvarint 0 ++ (c :: rest) := by
    rw [he, makeSubordinatePathKey_split, drop_left, hrest]
  have hkey : decodeSubordinatePathKey e.1 = .ok (pk.bytes, col.id, path) := by
    rw [he]
    exact decodeSubordinatePathKey_short pk col.id path hfit
  simp only [processKV, hdrop, processSubordinateKV, decodeSubordinate, hkey, bind_ok, column?_eq hcol]
  rfl

def entryColumn (e : Entry) : Option UInt32 :=
  match decodeSubordinatePathKey e.1 with
  | .ok (_, colID, _) => some colID
  | .error _ => none

def Belongs (table : Table) (pk : PrimaryKey) (e : Entry) : Prop :=
  ∃ col ∈ table.columns, ∃ path, suffixLen col.id path ≤ 109 ∧
    e.1 = makeSubordinatePathKey (makeFamilyKey pk.bytes 0) col.id path

variable (codec table pk) in
/-- The pairs of each column reach that column's builder, and no other. -/
theorem foldlM_processKV : ∀ (es : List Entry) (s : FetchState), (∀ e ∈ es, Belongs table pk e) →
    (∀ col ∈ table.columns, ∃ b, foldBuilder codec col (s.builders col.id)
      (es.filter fun e => entryColumn e = some col.id) = .ok b) →
    ∃ builders, es.foldlM (processKV codec table pk.bytes) s = .ok { s with builders := builders } ∧
      ∀ col ∈ table.columns, foldBuilder codec col (s.builders col.id)
        (es.filter fun e => entryColumn e = some col.id) = .ok (builders col.id)
  | [], s, _, _ => ⟨s.builders, rfl, fun col _ => rfl⟩
  | e :: es, s, hes, hfold => by
    obtain ⟨col, hcol, path, hfit, he⟩ := hes e mem_cons_self
    have hkey : decodeSubordinatePathKey e.1 = .ok (pk.bytes, col.id, path) := by
      rw [he]
      exact decodeSubordinatePathKey_short pk col.id path hfit
    have hentry : entryColumn e = some col.id := by simp [entryColumn, hkey]
    -- the pair is the next one of its own column
    have hown : ∀ b, foldBuilder codec col b ((e :: es).filter fun e => entryColumn e = some col.id) =
        columnStep codec col b path e.2 >>= fun b => foldBuilder codec col (some b)
          (es.filter fun e => entryColumn e = some col.id) := by
      intro b
      rw [filter_cons_of_pos (by simpa using hentry), foldBuilder_cons _ _ _ hkey]
    obtain ⟨bf, hbf⟩ := hfold col hcol
    rw [hown] at hbf
    obtain ⟨b, hstep, -⟩ := exists_of_bind_ok hbf
    have hsame : ∀ c ∈ table.columns, foldBuilder codec c (s.builders c.id)
        ((e :: es).filter fun e => entryColumn e = some c.id) =
        foldBuilder codec c (update s.builders col.id (some b) c.id) (es.filter fun e => entryColumn e = some c.id) := by
      intro c hc
      by_cases hid : c.id = col.id
      · have hcc : c = col := eq_of_id hc hcol hid
        subst hcc
        rw [hown, hstep, update_self]
        rfl
      · rw [update_of_ne hid, filter_cons_of_neg]
        simpa [hentry] using Ne.symm hid
    obtain ⟨builders, hrun, hbuilders⟩ := foldlM_processKV es { s with builders := update s.builders col.id (some b) }
      (forall_mem_cons.mp hes).2 (fun c hc => by
        rw [← hsame c hc]
        exact hfold c hc)
    refine ⟨builders, ?_, fun c hc => ?_⟩
    · rw [foldlM_cons, processKV_subordinate s hcol hfit he, hstep]
      exact hrun
    · rw [hsame c hc]
      exact hbuilders c hc

/-! The tuple. -/

variable (table) in
/-- All of a tuple's columns reach the row when the table has them. -/
theorem processValueBytes_spec : ∀ {columns : List (UInt32 × Datum)} (s : FetchState),
    (columns.map Prod.fst).Nodup → (∀ cd ∈ columns, ∃ col ∈ table.columns, col.id = cd.1) →
    s.valueColsFound + columns.length ≤ table.neededValueCols →
    ∃ row, processValueBytes table columns s =
        { s with row := row, valueColsFound := s.valueColsFound + columns.length } ∧
      (∀ cd ∈ columns, row cd.1 = some cd.2) ∧ ∀ id, id ∉ columns.map Prod.fst → row id = s.row id
  | [], s, _, _, _ => ⟨s.row, rfl, by simp, fun _ _ => rfl⟩
  | (id, d) :: columns, s, hnodup, hcols, hlen => by
    rw [map_cons, nodup_cons] at hnodup
    rw [length_cons] at hlen
    obtain ⟨col, hcol, hid⟩ := hcols (id, d) mem_cons_self
    simp only at hid
    obtain ⟨row, heq, hin, hout⟩ := processValueBytes_spec
      { s with row := update s.row col.id (some d), valueColsFound := s.valueColsFound + 1 }
      hnodup.2 (forall_mem_cons.mp hcols).2 (by simp only; omega)
    refine ⟨row, ?_, forall_mem_cons.mpr ⟨?_, hin⟩, ?_⟩
    · rw [processValueBytes, if_pos (by omega), ← hid, column?_eq hcol]
      simpa [Nat.add_assoc, Nat.add_comm 1] using heq
    · rw [hout id hnodup.1, hid]
      exact update_self _ _ _
    intro id' hid'
    rw [map_cons, mem_cons, not_or] at hid'
    rw [hout id' hid'.2]
    simp only
    rw [update_of_ne (by rw [hid]; exact hid'.1)]

theorem mem_rowTuple {cd : UInt32 × Datum} :
    cd ∈ rowTuple table values ↔ ∃ col ∈ table.columns, inTuple col (values col.id) = true ∧
      cd = (col.id, values col.id) := by
  rw [rowTuple, mem_filterMap]
  have hmem : ∀ col, col ∈ sortedColumns table ↔ col ∈ table.columns :=
    fun col => (perm_insertionSort _ _).mem_iff
  simp only [hmem, Option.ite_none_right_eq_some, Option.some.injEq, @eq_comm _ cd]

theorem rowTuple_nodup (values : Values) : ((rowTuple table values).map Prod.fst).Nodup := by
  have hids : ((sortedColumns table).map Column.id).Nodup :=
    ((perm_insertionSort _ _).map _).nodup_iff.mpr table.nodup
  refine hids.sublist ?_
  rw [rowTuple]
  induction sortedColumns table with
  | nil => simp
  | cons col cols ih =>
    rw [filterMap_cons]
    split
    · exact ih.cons _
    rename_i cd hcd
    split at hcd
    · cases hcd
      exact ih.cons_cons _
    · cases hcd

theorem rowTuple_length (values : Values) :
    (rowTuple table values).length = table.columns.countP fun col => inTuple col (values col.id) := by
  rw [rowTuple, length_filterMap_eq_countP, sortedColumns, (perm_insertionSort _ _).countP_eq]
  refine countP_congr fun col _ => ?_
  split <;> simp_all

/-! The end of a row. -/

theorem foldlM_finalizeColumn : ∀ (cols : List Column) (s : FetchState), (cols.map Column.id).Nodup →
    (∀ col ∈ cols, ∀ b, s.builders col.id = some b → ∃ d, b.materialize = .ok d) →
    ∃ s', cols.foldlM finalizeColumn s = .ok s' ∧
      s'.valueColsFound = s.valueColsFound + cols.countP (fun col => (s.builders col.id).isSome) ∧
      (∀ id, id ∉ cols.map Column.id → s'.row id = s.row id) ∧
      ∀ col ∈ cols, (s.builders col.id = none → s'.row col.id = s.row col.id) ∧
        ∀ b d, s.builders col.id = some b → b.materialize = .ok d → s'.row col.id = some d
  | [], s, _, _ => ⟨s, rfl, rfl, fun _ _ => rfl, by simp⟩
  | col :: cols, s, hnodup, hmat => by
    rw [map_cons, nodup_cons] at hnodup
    -- one column, which leaves the builders and the other columns alone
    obtain ⟨s₁, hs₁, hbuilders, hfound, hother, hnone, hsome⟩ : ∃ s₁, finalizeColumn s col = .ok s₁ ∧
        s₁.builders = s.builders ∧
        s₁.valueColsFound = s.valueColsFound + (if (s.builders col.id).isSome then 1 else 0) ∧
        (∀ id, id ≠ col.id → s₁.row id = s.row id) ∧
        (s.builders col.id = none → s₁.row col.id = s.row col.id) ∧
        ∀ b d, s.builders col.id = some b → b.materialize = .ok d → s₁.row col.id = some d := by
      cases hb : s.builders col.id with
      | none => exact ⟨s, by simp [finalizeColumn, hb], rfl, rfl, fun _ _ => rfl, fun _ => rfl, by simp⟩
      | some b =>
        obtain ⟨d, hd⟩ := hmat col mem_cons_self b hb
        refine ⟨{ s with row := update s.row col.id (some d), valueColsFound := s.valueColsFound + 1 },
          by simp only [finalizeColumn, hb, hd]; rfl, rfl, rfl, fun id hid => update_of_ne hid _ _,
          by simp, fun b' d' hb' hd' => ?_⟩
        cases hb'
        rw [hd] at hd'
        cases hd'
        exact update_self _ _ _
    obtain ⟨s', hs', hfound', hout, hin⟩ := foldlM_finalizeColumn cols s₁ hnodup.2 (by
      rw [hbuilders]
      exact (forall_mem_cons.mp hmat).2)
    refine ⟨s', by rw [foldlM_cons, hs₁, bind_ok, hs'], ?_, fun id hid => ?_, fun c hc => ?_⟩
    · rw [hfound', hfound, hbuilders, countP_cons]
      omega
    · rw [map_cons, mem_cons, not_or] at hid
      rw [hout id hid.2, hother id hid.1]
    rcases mem_cons.mp hc with rfl | hc
    · rw [hout c.id hnodup.1]
      exact ⟨hnone, hsome⟩
    have hne : c.id ≠ col.id := fun he => hnodup.1 (he ▸ mem_map_of_mem hc)
    have hc' := hin c hc
    rw [hbuilders, hother c.id hne] at hc'
    exact hc'

variable (table) in
/-- Filling in NULLs sets unset columns only, and all of them exactly when the count of
    columns found is past the needed ones, where it does not stop, or leaves room. -/
theorem fillNulls_spec : ∀ (cols : List Column) (s : FetchState), (cols.map Column.id).Nodup →
    (∀ col ∈ cols, col.nonNullable = true → (s.row col.id).isSome) →
    ∃ s', fillNulls table cols s = .ok s' ∧ (∀ id, s'.row id = s.row id ∨ s.row id = none ∧ s'.row id = some .null) ∧
      ((∀ col ∈ cols, (s'.row col.id).isSome) ↔ table.neededValueCols < s.valueColsFound ∨
        s.valueColsFound + cols.countP (fun col => (s.row col.id).isNone) ≤ table.neededValueCols)
  | [], s, _, _ => ⟨s, rfl, fun _ => .inl rfl, by simpa using Nat.lt_or_ge _ _⟩
  | col :: cols, s, hnodup, h => by
    rw [map_cons, nodup_cons] at hnodup
    rw [fillNulls]
    by_cases hfound : s.valueColsFound = table.neededValueCols
    · refine ⟨s, if_pos hfound, fun _ => .inl rfl, ?_⟩
      have hzero : (∀ c ∈ col :: cols, (s.row c.id).isSome) ↔
          (col :: cols).countP (fun c => (s.row c.id).isNone) = 0 := by
        rw [countP_eq_zero]
        simp [← Option.ne_none_iff_isSome]
      rw [hzero, hfound]
      omega
    rw [if_neg hfound]
    cases hrow : s.row col.id with
    | some d =>
      rw [if_neg (by simp)]
      obtain ⟨s', hs', hset, hall⟩ := fillNulls_spec cols s hnodup.2 (forall_mem_cons.mp h).2
      have hcol : (s'.row col.id).isSome := by
        rcases hset col.id with heq | ⟨hnone, -⟩
        · simp [heq, hrow]
        · cases hrow.symm.trans hnone
      refine ⟨s', hs', hset, ?_⟩
      rw [forall_mem_cons, and_iff_right hcol, hall, countP_cons_of_neg (by simp [hrow])]
    | none =>
      have hnullable : ¬ col.nonNullable = true := fun hn => by
        have := h col mem_cons_self hn
        rw [hrow] at this
        simp at this
      rw [if_pos (by simp), if_neg hnullable]
      have hne : ∀ c ∈ cols, c.id ≠ col.id := fun c hc heq => hnodup.1 (heq ▸ mem_map_of_mem hc)
      obtain ⟨s', hs', hset, hall⟩ := fillNulls_spec cols
        { s with row := update s.row col.id (some .null), valueColsFound := s.valueColsFound + 1 } hnodup.2
        (fun c hc hn => by
          simp only [update_of_ne (hne c hc)]
          exact h c (mem_cons_of_mem _ hc) hn)
      have hcol : s'.row col.id = some .null := by simpa using hset col.id
      have hunset : cols.countP (fun c => (update s.row col.id (some .null) c.id).isNone) =
          cols.countP fun c => (s.row c.id).isNone :=
        countP_congr fun c hc => by rw [update_of_ne (hne c hc)]
      refine ⟨s', hs', fun id => ?_, ?_⟩
      · by_cases hid : id = col.id
        · exact .inr ⟨hid ▸ hrow, hid ▸ hcol⟩
        · simpa only [update_of_ne hid] using hset id
      rw [forall_mem_cons, and_iff_right (by simp [hcol]), hall, hunset, countP_cons_of_pos (by simp [hrow])]
      simp only
      omega

/-! The whole row. -/

/-- Whether a value of the column has subordinate keys. -/
def hasEntries (col : Column) : Datum → Bool
  | .array elems => col.typ = .array ∧ elems ≠ []
  | .json _ => col.typ = .json
  | _ => false

/-- What is read of a column whose subordinate keys hold `stored` and whose place in
    the tuple was made from `inline`. -/
def shown (col : Column) (inline stored : Datum) : Datum :=
  if hasEntries col stored then stored else if inTuple col inline then inline else .null

/-- No column of the row is left unset: none is counted twice, in the tuple and with its
    entries, or more are than have no value. -/
def Table.AllSet (table : Table) (inline stored : Values) : Prop :=
  let twice := table.columns.countP fun col => inTuple col (inline col.id) && hasEntries col (stored col.id)
  twice = 0 ∨ table.columns.countP (fun col => !inTuple col (inline col.id) && !hasEntries col (stored col.id)) < twice

theorem countP_add_countP {α : Type} (p q : α → Bool) (l : List α) :
    l.countP p + l.countP q + l.countP (fun a => !p a && !q a) = l.length + l.countP fun a => p a && q a := by
  induction l with
  | nil => rfl
  | cons a l ih =>
    simp only [countP_cons, length_cons]
    cases p a <;> cases q a <;> simp <;> omega

theorem columnEntries_eq_nil_iff (codec : JsonCodec) (pk : Bytes) (col : Column) (datum : Datum) :
    columnEntries codec pk col datum = [] ↔ hasEntries col datum = false := by
  cases htyp : col.typ <;> cases datum <;>
    simp [columnEntries, hasEntries, htyp, arrayEntries, encodeJSONSubordinateEntriesAtPath, JSON.nodes_ne_nil]

theorem mem_encodeSubordinateKeys :
    e ∈ encodeSubordinateKeys codec table pk.bytes values ↔
      ∃ col ∈ table.columns, e ∈ columnEntries codec pk.bytes col (values col.id) := mem_flatMap

theorem entryColumn_of_mem {datum : Datum} (h : Storable col datum)
    (he : e ∈ columnEntries codec pk.bytes col datum) : entryColumn e = some col.id := by
  obtain ⟨path, -, -, hfit, hkey⟩ := mem_columnEntries pk.bytes h he
  rw [entryColumn, hkey, decodeSubordinatePathKey_short pk col.id path hfit]

/-- In an ascending list of a row's pairs, those of a column are the column's own. -/
theorem filter_entryColumn (hst : ∀ col ∈ table.columns, Storable col (values col.id)) (hasc : Ascending es)
    (hes : ∀ e, e ∈ es ↔ e ∈ encodeSubordinateKeys codec table pk.bytes values)
    (hcol : col ∈ table.columns) :
    es.filter (fun e => entryColumn e = some col.id) = columnEntries codec pk.bytes col (values col.id) := by
  have hasc' : Ascending (columnEntries codec pk.bytes col (values col.id)) :=
    columnEntries_ascending pk.bytes (hst col hcol)
  refine (hasc.filter _).ext hasc' fun k => ?_
  apply Option.ext
  intro v
  rw [(hasc.filter _).find?_eq_some_iff, hasc'.find?_eq_some_iff, mem_filter, hes, mem_encodeSubordinateKeys]
  refine ⟨fun ⟨⟨c, hc, he⟩, hid⟩ => ?_, fun he => ⟨⟨col, hcol, he⟩, ?_⟩⟩
  · rw [entryColumn_of_mem (hst c hc) he] at hid
    have hcc : c = col := eq_of_id hc hcol (by simpa using hid)
    exact hcc ▸ he
  · simpa using entryColumn_of_mem (hst col hcol) he

variable (table) in
theorem processValueBytes_rowTuple (inline : Values) : ∃ row,
    processValueBytes table (rowTuple table inline) FetchState.init = { FetchState.init with
        row := row, valueColsFound := table.columns.countP fun col => inTuple col (inline col.id) } ∧
    ∀ col ∈ table.columns, row col.id =
      if inTuple col (inline col.id) then some (inline col.id) else none := by
  obtain ⟨row, htuple, hin, hout⟩ := processValueBytes_spec table FetchState.init
    (rowTuple_nodup inline) (fun cd hcd => by
      obtain ⟨col, hcol, -, rfl⟩ := mem_rowTuple.mp hcd
      exact ⟨col, hcol, rfl⟩) (by
        rw [rowTuple_length]
        exact (Nat.zero_add _).trans_le countP_le_length)
  rw [rowTuple_length, FetchState.init, Nat.zero_add] at htuple
  refine ⟨row, htuple, fun col hcol => ?_⟩
  split
  · rename_i htup
    exact hin (col.id, inline col.id) (mem_rowTuple.mpr ⟨col, hcol, htup, rfl⟩)
  rename_i htup
  refine hout col.id fun hmem => htup ?_
  obtain ⟨cd, hcd, hid⟩ := mem_map.mp hmem
  obtain ⟨c, hc, hc', rfl⟩ := mem_rowTuple.mp hcd
  rw [← eq_of_id hc hcol hid]
  exact hc'

def Built (stored : Values) (builders : UInt32 → Option ColumnBuilder) (col : Column) : Prop :=
  (hasEntries col (stored col.id) = false → builders col.id = none) ∧
  (hasEntries col (stored col.id) = true → ∃ c, builders col.id = some c ∧ c.materialize = .ok (stored col.id))

/-- What the builders hold after all pairs of the row. -/
theorem foldlM_processKV_entries (hst : ∀ col ∈ table.columns, Storable col (stored col.id)) (hasc : Ascending es)
    (hes : ∀ e, e ∈ es ↔ e ∈ encodeSubordinateKeys codec table pk.bytes stored) {s : FetchState}
    (hs : s.builders = fun _ => none) :
    ∃ builders, es.foldlM (processKV codec table pk.bytes) s = .ok { s with builders := builders } ∧
      ∀ col ∈ table.columns, Built stored builders col := by
  have hbuilt : ∀ col ∈ table.columns, ∃ b, foldBuilder codec col (s.builders col.id)
      (es.filter fun e => entryColumn e = some col.id) = .ok b ∧
      (hasEntries col (stored col.id) = false → b = none) ∧
      (hasEntries col (stored col.id) = true → ∃ c, b = some c ∧ c.materialize = .ok (stored col.id)) := by
    intro col hcol
    rw [filter_entryColumn hst hasc hes hcol, hs]
    cases hhas : hasEntries col (stored col.id) with
    | false =>
      rw [(columnEntries_eq_nil_iff codec pk.bytes col _).mpr hhas]
      exact ⟨none, rfl, fun _ => rfl, by simp⟩
    | true =>
      obtain ⟨c, hc, hmat⟩ := foldBuilder_columnEntries codec pk (hst col hcol) (by
        rw [ne_eq, columnEntries_eq_nil_iff, hhas]
        simp)
      exact ⟨some c, hc, by simp, fun _ => ⟨c, rfl, hmat⟩⟩
  obtain ⟨builders, hrun, hbuilders⟩ := foldlM_processKV codec table pk es s (fun e he => by
      obtain ⟨col, hcol, he'⟩ := mem_encodeSubordinateKeys.mp ((hes e).mp he)
      obtain ⟨path, -, -, hfit, hkey⟩ := mem_columnEntries pk.bytes (hst col hcol) he'
      exact ⟨col, hcol, path, hfit, hkey⟩)
    (fun col hcol => by
      obtain ⟨b, hb, -⟩ := hbuilt col hcol
      exact ⟨b, hb⟩)
  refine ⟨builders, hrun, fun col hcol => ?_⟩
  obtain ⟨b, hb, hnone, hsome⟩ := hbuilt col hcol
  have hbc : builders col.id = b := Except.ok.inj ((hbuilders col hcol).symm.trans hb)
  rw [Built, hbc]
  exact ⟨hnone, hsome⟩

/-- What is read once the builders' values are put over the tuple's. -/
theorem finalizeRow_spec {inline : Values} {s : FetchState}
    (hfound : s.valueColsFound = table.columns.countP fun col => inTuple col (inline col.id))
    (hrow : ∀ col ∈ table.columns, s.row col.id =
      if inTuple col (inline col.id) then some (inline col.id) else none)
    (hbuilt : ∀ col ∈ table.columns, Built stored s.builders col)
    (hnull : ∀ col ∈ table.columns, col.nonNullable = true → shown col (inline col.id) (stored col.id) ≠ .null) :
    ∃ s', finalizeRow table s = .ok s' ∧
      (∀ col ∈ table.columns, (s'.row col.id).getD .null = shown col (inline col.id) (stored col.id)) ∧
      ((∀ col ∈ table.columns, (s'.row col.id).isSome) ↔ table.AllSet inline stored) := by
  obtain ⟨s', hfinal, hcount, -, hvalues⟩ := foldlM_finalizeColumn table.columns s table.nodup (fun col hcol b hb => by
      cases hhas : hasEntries col (stored col.id) with
      | false => cases ((hbuilt col hcol).1 hhas).symm.trans hb
      | true =>
        obtain ⟨c, hc, hmat⟩ := (hbuilt col hcol).2 hhas
        cases hc.symm.trans hb
        exact ⟨_, hmat⟩)
  -- the row's value of each column, unset where NULL is shown
  have hshown : ∀ col ∈ table.columns, s'.row col.id = if hasEntries col (stored col.id) then
      some (stored col.id) else if inTuple col (inline col.id) then some (inline col.id) else none := by
    intro col hcol
    cases hhas : hasEntries col (stored col.id) with
    | false =>
      rw [(hvalues col hcol).1 ((hbuilt col hcol).1 hhas)]
      simpa using hrow col hcol
    | true =>
      obtain ⟨c, hc, hmat⟩ := (hbuilt col hcol).2 hhas
      simpa using (hvalues col hcol).2 c _ hc hmat
  obtain ⟨s'', hfill, hset, hall⟩ := fillNulls_spec table table.columns s' table.nodup (fun col hcol hn => by
      have hne := hnull col hcol hn
      rw [shown] at hne
      rw [hshown col hcol]
      by_cases hhas : hasEntries col (stored col.id) = true
      · simp [hhas]
      by_cases hin : inTuple col (inline col.id) = true
      · simp [hhas, hin]
      · simp [hhas, hin] at hne)
  refine ⟨s'', by simp only [finalizeRow, hfinal, bind_ok, hfill], fun col hcol => ?_, hall.trans ?_⟩
  · have hread : (s''.row col.id).getD .null = (s'.row col.id).getD .null := by
      rcases hset col.id with heq | ⟨hnone, hnull⟩
      · rw [heq]
      · rw [hnone, hnull]
        rfl
    rw [hread, hshown col hcol, shown]
    split
    · rfl
    · split <;> rfl
  have hbuilders : table.columns.countP (fun col => (s.builders col.id).isSome) =
      table.columns.countP fun col => hasEntries col (stored col.id) := by
    refine countP_congr fun col hcol => ?_
    cases hhas : hasEntries col (stored col.id) with
    | false => simp [(hbuilt col hcol).1 hhas]
    | true =>
      obtain ⟨c, hc, -⟩ := (hbuilt col hcol).2 hhas
      simp [hc]
  have hunset : table.columns.countP (fun col => (s'.row col.id).isNone) = table.columns.countP fun col =>
      !inTuple col (inline col.id) && !hasEntries col (stored col.id) := by
    refine countP_congr fun col hcol => ?_
    rw [hshown col hcol]
    cases hasEntries col (stored col.id) <;> cases inTuple col (inline col.id) <;> simp
  have hsum := countP_add_countP (fun col => inTuple col (inline col.id))
    (fun col => hasEntries col (stored col.id)) table.columns
  rw [hcount, hfound, hbuilders, hunset, Table.AllSet, Table.neededValueCols]
  omega

/-- A row's sentinel and subordinate pairs in key order are read as the values that
    the pairs encode, over those of the tuple. -/
theorem nextRow_spec {inline : Values} (hst : ∀ col ∈ table.columns, Storable col (stored col.id)) (hasc : Ascending es)
    (hes : ∀ e, e ∈ es ↔ e ∈ encodeSubordinateKeys codec table pk.bytes stored)
    (hnull : ∀ col ∈ table.columns, col.nonNullable = true → shown col (inline col.id) (stored col.id) ≠ .null) :
    ∃ values, nextRow codec table pk.bytes ((makeFamilyKey pk.bytes 0, .tuple (rowTuple table inline)) :: es) =
        .ok (some values) ∧
      values.map (·.getD .null) = (table.columns.map fun col => shown col (inline col.id) (stored col.id)) ∧
      ((∀ value ∈ values, value.isSome) ↔ table.AllSet inline stored) := by
  obtain ⟨row, htuple, hrow⟩ := processValueBytes_rowTuple table inline
  obtain ⟨builders, hrun, hbuilt⟩ := foldlM_processKV_entries hst hasc hes (s := { FetchState.init with
    row := row, valueColsFound := table.columns.countP fun col => inTuple col (inline col.id) }) rfl
  obtain ⟨s', hfinal, hread, hall⟩ := finalizeRow_spec (s := ⟨row, table.columns.countP fun col =>
    inTuple col (inline col.id), builders⟩) rfl hrow hbuilt hnull
  refine ⟨table.columns.map fun col => s'.row col.id, ?_, ?_, ?_⟩
  · simp only [nextRow, foldlM_cons, processKV_sentinel, bind_ok, htuple, hrun, hfinal]
    rfl
  · rw [map_map]
    exact map_congr_left hread
  · rw [forall_mem_map]
    exact hall

end Row

end Ratel.Row
