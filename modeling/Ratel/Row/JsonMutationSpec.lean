import Ratel.Row.JsonMutationRefine

/- `UpdateSubordinateJSONRow` against the operation on the document in memory: each
   local path is an edit of the column that makes it hold what
   `applyGenericSubordinateJSONMutation` returns, the generic path rewrites the column
   with it, and both fail exactly when it does. -/
namespace Ratel.Row

open Ratel.Lib Ratel.Lib.Assoc Ratel.Encoding Ratel.Keys Ratel.Rowenc List JSON

/-- The operation's value is a document the source can build. -/
def MutationOp.WF : MutationOp → Prop
  | .concat value => value.WF
  | .setPath _ value _ => value.WF
  | _ => True

/-! The result in memory. -/

theorem concat_bounded {j v j' : JSON} (hj : j.WF) (hv : v.WF) (h : j.concat v = .ok j') :
    j'.Bounded (2 * containerHeaderLenMask) := by
  have hj' : j.Bounded (2 * containerHeaderLenMask) := hj.mono (by decide)
  have hv' : v.Bounded (2 * containerHeaderLenMask) := hv.mono (by decide)
  have hpair : (array [j, v]).Bounded (2 * containerHeaderLenMask) :=
    .array (by simp [containerHeaderLenMask]) (by simpa using ⟨hj', hv'⟩)
  -- a scalar or object in front of an array
  have hfront : ∀ {xs}, v = .array xs → (array (j :: xs)).Bounded (2 * containerHeaderLenMask) := by
    intro xs he
    subst he
    have hlen : xs.length ≤ containerHeaderLenMask := hv.len_le
    simp only [containerHeaderLenMask] at hlen
    refine .array (by simp [containerHeaderLenMask]; omega) (forall_mem_cons.mpr ⟨hj', fun x hx => ?_⟩)
    exact bounded_elem hv' hx
  -- something behind an array
  have hback : ∀ {xs ys}, j = .array xs → ys.length ≤ containerHeaderLenMask →
      (∀ y ∈ ys, y.Bounded (2 * containerHeaderLenMask)) →
      (array (xs ++ ys)).Bounded (2 * containerHeaderLenMask) := by
    intro xs ys he hys hy
    subst he
    have hlen : xs.length ≤ containerHeaderLenMask := hj.len_le
    exact .array (by rw [length_append]; omega) (forall_mem_append.mpr ⟨fun x hx => bounded_elem hj' hx, hy⟩)
  cases j with
  | scalar s =>
    cases v with
    | scalar t => cases h; exact hpair
    | array ys => cases h; exact hfront rfl
    | object kvs => cases h
  | array xs =>
    cases v with
    | scalar t => cases h; exact hback rfl (by simp [containerHeaderLenMask]) (by simpa using hv')
    | array ys => cases h; exact hback rfl hv.len_le fun y hy => bounded_elem hv' hy
    | object kvs => cases h; exact hback rfl (by simp [containerHeaderLenMask]) (by simpa using hv')
  | object left =>
    cases v with
    | scalar t => cases h
    | array ys => cases h; exact hfront rfl
    | object right => cases h; exact bounded_merge hj hv

theorem applyGeneric_bounded {j j' : JSON} {op : MutationOp} (hj : j.WF) (hop : op.WF)
    (h : applyGeneric j op = .ok j') : j'.Bounded (2 * containerHeaderLenMask) := by
  cases op with
  | concat v => exact concat_bounded hj hop h
  | deleteKey key =>
    cases j with
    | scalar s => cases h
    | array xs =>
      cases h
      refine JSON.Bounded.mono (m := containerHeaderLenMask) (by decide)
        (.array ((length_filter_le _ _).trans hj.len_le) fun x hx => ?_)
      exact bounded_elem hj (mem_filter.mp hx).1
    | object kvs =>
      cases h
      exact (bounded_erase hj key).mono (by decide)
  | deleteLastArrayElement =>
    cases j with
    | scalar s => cases h
    | object kvs => cases h
    | array xs =>
      simp only [applyGeneric, removeIndex] at h
      split at h
      · cases h
        exact hj.mono (by decide)
      cases h
      have hsub := eraseIdx_sublist xs (fromEnd xs.length ((xs.length : Int) - 1)).toNat
      exact JSON.Bounded.mono (m := containerHeaderLenMask) (by decide)
        (.array (hsub.length_le.trans hj.len_le) fun x hx => bounded_elem hj (hsub.subset hx))
  | setPath path v createMissing =>
    simp only [applyGeneric, deepSet] at h
    split at h
    · cases h
    · exact bounded_deepSetLoop (hop.mono (by decide)) (by decide) hj h

theorem applyGeneric_deleteLast (xs : List JSON) :
    applyGeneric (.array xs) .deleteLastArrayElement = .ok (.array xs.dropLast) := by
  by_cases hnil : xs = []
  · subst hnil
    rfl
  have hpos := length_pos_of_ne_nil hnil
  have hidx : (xs.length : Int) - 1 = (xs.length - 1 : Nat) := by omega
  simp only [applyGeneric, removeIndex, hidx, fromEnd_natCast]
  rw [if_neg (by omega), Int.toNat_natCast, eraseIdx_length_sub_one]

/-- `jsonb_set` of a member of an array's element. -/
theorem deepSet_element (xs : List JSON) (key : Bytes) {elem : Bytes} {idx : Nat}
    (hidx : Strconv.atoi elem = .ok (idx : Int)) (v : JSON) (createMissing : Bool) :
    (array xs).deepSet [elem, key] v createMissing =
      match xs[idx]? with
      | some c => (fun c' => array (xs.set idx c')) <$> c.setValKeyOrIdx key v createMissing
      | none => .ok (.array xs) := by
  rw [deepSet, deepSetLoop]
  · have hfetch : (array xs).fetchValKeyOrIdx elem = xs[idx]? := by
      simp [fetchValKeyOrIdx, hidx, fetchValIdx, elemAt?]
    rw [hfetch]
    cases hc : xs[idx]? with
    | none => rfl
    | some c =>
      have hlt : idx < xs.length := (List.getElem?_eq_some_iff.mp hc).1
      have hset : ∀ c', (array xs).setValKeyOrIdx elem c' createMissing = .ok (.array (xs.set idx c')) := by
        intro c'
        simp only [setValKeyOrIdx, hidx, bind_ok, fromEnd_natCast]
        rw [if_neg (by omega), if_neg (by omega), if_neg (by omega)]
        rfl
      simp only [deepSetLoop, hset]
      cases c.setValKeyOrIdx key v createMissing <;> rfl
  · simp

/-! The local paths. -/

section Update
variable {codec : JsonCodec} {pk : PrimaryKey} {colID : UInt32} {st : KV} {j : JSON}

/-- The requests that rewrite the column with `j'`. -/
theorem rewrite_edits (codec : JsonCodec) (pk : PrimaryKey) (colID : UInt32) (batch : Batch) (j : JSON)
    {n : Nat} (hn : n ≤ 2 ^ 32) {j' : JSON} (hj' : j'.Bounded n) :
    Edits codec pk colID batch j j' (.ok (putSubordinateJSONSubtree codec (makeFamilyKey pk.bytes 0) colID
      (deleteSubordinatePrefix batch (columnPrefix pk.bytes colID)) [.header] j')) := by
  refine ⟨.clear [] :: putWrites codec [] j', ?_, ?_, fun r hr => ?_⟩
  · rw [putSubordinateJSONSubtree_eq, deleteSubordinatePrefix, append_assoc]
    rfl
  · exact forall_mem_cons.mpr ⟨fun h => by simp at h, putWrites_valid hn hj' (by simp)⟩
  have hput := pathEffects_putWrites codec hn hj' [] r none
  simp only [pathEffects, foldl_cons, PathWrite.effect, nil_prefix, if_true] at hput ⊢
  rw [hput]
  cases hd : j'.descend r <;> simp [valueAt]

/-- The local path for a member of an array's element: an index past the end changes
    nothing, an element that is not an object is left to the generic path. -/
theorem arrayObjectKeySet_spec {xs : List JSON} (h : Stored codec pk colID st (.array xs)) (batch : Batch)
    {elem key : Bytes} {idx : Nat} (hidx : Strconv.atoi elem = .ok (idx : Int)) {v : JSON} (hv : v.WF)
    (createMissing : Bool) :
    applyLocalRootArrayObjectKeySet codec st (makeFamilyKey pk.bytes 0) colID batch xs.length idx key v
        createMissing = .ok none ∨
      ∃ j' res, applyGeneric (.array xs) (.setPath [elem, key] v createMissing) = .ok j' ∧
        Edits codec pk colID batch (.array xs) j' res ∧
        applyLocalRootArrayObjectKeySet codec st (makeFamilyKey pk.bytes 0) colID batch xs.length idx key v
          createMissing = some <$> res := by
  have hset := deepSet_element xs key hidx v createMissing
  cases hc : xs[idx]? with
  | none =>
    have hle : xs.length ≤ idx := getElem?_eq_none_iff.mp hc
    rw [hc] at hset
    refine .inr ⟨_, _, hset, Edits.refl batch _, ?_⟩
    rw [applyLocalRootArrayObjectKeySet, if_pos (by omega)]
    rfl
  | some c =>
    have hlt : idx < xs.length := (List.getElem?_eq_some_iff.mp hc).1
    rw [hc] at hset
    -- an element that is no object is read, and left alone
    have hother : nodeKind c ≠ .object → applyLocalRootArrayObjectKeySet codec st (makeFamilyKey pk.bytes 0)
        colID batch xs.length idx key v createMissing = .ok none := by
      intro hkind
      have hget := h.getExact_eq (r := [.arrayIndex (UInt32.ofNat idx)]) (by simp)
      rw [valueAt, descend_elem (h.wf.len_le.trans containerHeaderLenMask_le) hlt, hc, Option.map_some] at hget
      rw [applyLocalRootArrayObjectKeySet, if_neg (by omega), Int.toNat_natCast]
      have hlen : c.len ≤ containerHeaderLenMask :=
        (bounded_elem h.wf (mem_of_getElem? hc)).len_le
      have hdec := decode_encodeSubordinateJSONValue codec (lt_of_le_of_lt hlen (by decide) : c.len < 2 ^ 63)
      simp only [hget, nodeValueOf, hdec, bind_ok]
      rw [if_pos hkind]
      rfl
    cases c with
    | scalar _ | array _ => exact .inl (hother (by simp [nodeKind]))
    | object kvs =>
      obtain ⟨res, hres, hed⟩ := arrayObjectKeySet_edits h batch hlt hc key hv createMissing
      exact .inr ⟨_, _, hset, hed, hres⟩

/-- When a local path applies, the operation succeeds in memory and the requests are an
    edit of the column to its result. -/
theorem tryApplyLocal_spec (h : Stored codec pk colID st j) (batch : Batch) {op : MutationOp} (hop : op.WF) :
    tryApplyLocal codec st (makeFamilyKey pk.bytes 0) colID batch op = .ok none ∨
      ∃ j' res, applyGeneric j op = .ok j' ∧ Edits codec pk colID batch j j' res ∧
        tryApplyLocal codec st (makeFamilyKey pk.bytes 0) colID batch op = some <$> res := by
  have hlen : j.len ≤ containerHeaderLenMask := h.wf.len_le
  have hget : getExact st (makeFamilyKey pk.bytes 0) colID [.header] = some (nodeValueOf codec j) := by
    rw [h.getExact_eq (r := []) (by simp)]
    rfl
  have hdec : decodeSubordinateJSONValueWithCardinality codec (nodeValueOf codec j) =
      .ok (nodeKind j, (j.len : Int), nodeScalar j) :=
    decode_encodeSubordinateJSONValue codec (lt_of_le_of_lt hlen (by decide))
  rw [tryApplyLocal, hget]
  simp only [hdec]
  cases op with
  | concat v =>
    cases v with
    | scalar s => exact .inl rfl
    | object right =>
      cases j with
      | object left => exact .inr ⟨_, _, rfl, objectConcat_edits h hop batch, rfl⟩
      | array xs => exact .inl rfl
      | scalar s => exact .inl rfl
    | array right =>
      cases j with
      | array left => exact .inr ⟨_, _, rfl, arrayAppend_edits h.wf hop batch, rfl⟩
      | object kvs => exact .inl rfl
      | scalar s => exact .inl rfl
  | deleteKey key =>
    cases j with
    | object kvs => exact .inr ⟨_, _, rfl, deleteKey_edits h batch key, rfl⟩
    | array xs => exact .inl rfl
    | scalar s => exact .inl rfl
  | deleteLastArrayElement =>
    cases j with
    | array xs => exact .inr ⟨_, _, applyGeneric_deleteLast xs, deleteLast_edits h batch, rfl⟩
    | object kvs => exact .inl rfl
    | scalar s => exact .inl rfl
  | setPath path v createMissing =>
    match path with
    | [] => exact .inl rfl
    | [key] =>
      cases j with
      | object kvs => exact .inr ⟨_, _, rfl, setRootKey_edits h batch key hop createMissing, rfl⟩
      | array xs => exact .inl rfl
      | scalar s => exact .inl rfl
    | [elem, key] =>
      cases j with
      | object kvs => exact .inl rfl
      | scalar s => exact .inl rfl
      | array xs =>
        simp only [nodeKind]
        cases hi : Strconv.atoi elem with
        | error e => exact .inl rfl
        | ok idx =>
          by_cases hneg : idx < 0
          · exact .inl (if_pos hneg)
          · obtain ⟨n, rfl⟩ := Int.eq_ofNat_of_zero_le (not_lt.mp hneg)
            exact arrayObjectKeySet_spec h batch hi hop createMissing
    | _ :: _ :: _ :: _ => exact .inl rfl

/-- The generic path reads back the document. -/
theorem readSubordinateJSONValue_eq (h : Stored codec pk colID st j) :
    readSubordinateJSONValue codec st (columnPrefix pk.bytes colID) = .ok j := by
  rw [readSubordinateJSONValue, (holds_iff_scan containerHeaderLenMask_le h.wf st).mp h.holds]
  exact buildFrom_perm codec containerHeaderLenMask_le h.wf pk h.fits (List.Perm.refl _)

/-- An update edits the column to the operation's result, or fails as it does. -/
theorem updateSubordinateJSONRow_spec (h : Stored codec pk colID st j) (batch : Batch) {op : MutationOp} (hop : op.WF) :
    match applyGeneric j op with
    | .error e => updateSubordinateJSONRow codec st batch pk.bytes colID op = .error e
    | .ok j' => Edits codec pk colID batch j j' (updateSubordinateJSONRow codec st batch pk.bytes colID op) := by
  have hread := readSubordinateJSONValue_eq h
  rw [columnPrefix] at hread
  rcases tryApplyLocal_spec h batch hop with hlocal | ⟨j', res, hgen, hed, hlocal⟩
  · rw [updateSubordinateJSONRow, hlocal]
    simp only [bind_ok, hread]
    cases hgen : applyGeneric j op with
    | error e => rfl
    | ok j' => exact rewrite_edits codec pk colID batch j (by decide) (applyGeneric_bounded h.wf hop hgen)
  · rw [hgen, updateSubordinateJSONRow, hlocal]
    obtain ⟨ws, rfl, hval, heff⟩ := hed
    exact ⟨ws, rfl, hval, heff⟩

end Update

/-- A direct update of a column that holds `j` fails exactly when the operation on `j`
    does; otherwise its requests leave the column with the entries of the operation's
    result and every key outside the column as it was. -/
theorem update_subordinate_json_row_refines (codec : JsonCodec) (pk : PrimaryKey) (colID : UInt32) (st : KV)
    (batch : Batch) (j : JSON) (op : MutationOp) (hj : j.WF) (hop : op.WF) (hfit : SuffixesFit colID j)
    (hst : st.scan (columnPrefix pk.bytes colID) (prefixEnd (columnPrefix pk.bytes colID)) =
      docEntries codec pk.bytes colID j) :
    match applyGeneric j op with
    | .error e => updateSubordinateJSONRow codec st batch pk.bytes colID op = .error e
    | .ok j' => ∃ requests st', updateSubordinateJSONRow codec st batch pk.bytes colID op = .ok (batch ++ requests) ∧
        applyBatch st requests = some st' ∧
        st'.scan (columnPrefix pk.bytes colID) (prefixEnd (columnPrefix pk.bytes colID)) =
          docEntries codec pk.bytes colID j' ∧
        ∀ k, ¬ columnPrefix pk.bytes colID <+: k → st'.get k = st.get k := by
  have hholds : Holds codec pk.bytes colID st j := (holds_iff_scan containerHeaderLenMask_le hj st).mpr hst
  have hspec := updateSubordinateJSONRow_spec ⟨hj, hfit, hholds⟩ batch hop
  cases hgen : applyGeneric j op with
  | error e => simpa only [hgen] using hspec
  | ok j' =>
    simp only [hgen] at hspec
    obtain ⟨ws, hres, hval, heff⟩ := hspec
    obtain ⟨st', happly, hholds', hframe⟩ := hholds.apply hval heff
    exact ⟨_, st', hres, happly, (holds_iff_scan (by decide) (applyGeneric_bounded hj hop hgen) st').mp hholds', hframe⟩

/-- A store with the entries of the sample document and nothing else. -/
def sampleStore : KV :=
  ⟨docEntries plainCodec samplePrimaryKey.bytes 2 sampleDoc,
    docEntries_ascending containerHeaderLenMask_le sampleDoc_wf⟩

theorem update_subordinate_json_row_refines_concat : ∃ requests st',
    updateSubordinateJSONRow plainCodec sampleStore [] samplePrimaryKey.bytes 2
      (.concat (.object [([98], .scalar .null)])) = .ok ([] ++ requests) ∧
    applyBatch sampleStore requests = some st' ∧
    st'.scan (columnPrefix samplePrimaryKey.bytes 2) (prefixEnd (columnPrefix samplePrimaryKey.bytes 2)) =
      docEntries plainCodec samplePrimaryKey.bytes 2
        (.object [([97], .array [.scalar .null, .object []]), ([98], .scalar .null)]) ∧
    ∀ k, ¬ columnPrefix samplePrimaryKey.bytes 2 <+: k → st'.get k = sampleStore.get k :=
  update_subordinate_json_row_refines plainCodec samplePrimaryKey 2 sampleStore [] sampleDoc
    (.concat (.object [([98], .scalar .null)])) sampleDoc_wf
    (.object (by decide) (by decide) fun kv hkv => by rw [mem_singleton.mp hkv]; exact .scalar _)
    (by decide) (by decide)

end Ratel.Row
