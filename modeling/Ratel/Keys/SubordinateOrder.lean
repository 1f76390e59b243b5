import Ratel.Keys.Subordinate

/- The byte order of subordinate keys. Range deletes, subtree scans and the
   streaming matchers rely on it being the pre-order of the stored documents:
   by column, then segment by segment, an ancestor before its descendants.

   Segments are an ordered code, so two paths that part have keys that part. A path
   and its extension are told apart by the end marker, the byte of 0, against the
   extension's next segment, whose kind is larger: it cannot be a header, since a
   header stands only first in a path. That leaves the empty path, which no column
   writes, as the one path whose key does not sort before those below it. -/
namespace Ratel.Keys

open Ratel.Lib Ratel.Encoding List

theorem Segment.bytes_orderedCode : OrderedCode Segment.bytes := by
  intro s t h
  have hk : rank s < rank t := h
  have kinds : ∀ {m n : Nat} (u v : Bytes), m < n → n < 2 ^ 64 → Parts (uvarint m ++ u) (uvarint n ++ v) :=
    fun u v hmn hn => (uvarint_parts hmn hn).append u v
  cases s with
  | header =>
    cases t with
    | header => exact absurd hk (lt_irrefl _)
    | arrayIndex _ | objectKey _ => exact kinds _ _ (by simp [kind]) (by simp [kind])
  | arrayIndex i =>
    cases t with
    | header => simp [rank, Prod.Lex.toLex_lt_toLex] at hk
    | arrayIndex j =>
      have hij : i.toNat < j.toNat := by simpa [rank, Prod.Lex.toLex_lt_toLex] using hk
      exact (uvarint_parts hij (uint32_toNat_lt_64 j)).append_left _
    | objectKey l => exact kinds _ _ (by simp [kind]) (by simp [kind])
  | objectKey k =>
    cases t with
    | header | arrayIndex _ => simp [rank, Prod.Lex.toLex_lt_toLex] at hk
    | objectKey l =>
      have hkl : k < l := by simpa [rank, Prod.Lex.toLex_lt_toLex] using hk
      exact (bytesAscending_orderedCode k l hkl).append_left _

/-- A header segment stands only in first position. -/
def HeaderFirst (path : Path) : Prop := Segment.header ∉ path.tail

instance (path : Path) : Decidable (HeaderFirst path) := inferInstanceAs (Decidable (_ ∉ _))

variable {p q : Path} {c d : UInt32}

theorem HeaderFirst.ne_header {r : Path} {s : Segment} (h : HeaderFirst (p ++ s :: r)) (hp : p ≠ []) :
    s ≠ .header := by
  rintro rfl
  cases p with
  | nil => exact hp rfl
  | cons a p => exact h (by simp)

/-- The end marker parts from any segment but a header. -/
theorem endMarker_parts {s : Segment} (hs : s ≠ .header) (u v : Bytes) :
    Parts (uvarint 0 ++ u) (s.bytes ++ v) := by
  have hk : 0 < s.kind ∧ s.kind < 2 ^ 64 := by cases s <;> simp_all [Segment.kind]
  unfold Segment.bytes
  rw [append_assoc]
  exact (uvarint_parts hk.1 hk.2).append u _

theorem pathKey_parts (hp : p ≠ []) (hq : HeaderFirst q) (h : p < q) (u v : Bytes) :
    Parts (p.flatMap Segment.bytes ++ (uvarint 0 ++ u)) (q.flatMap Segment.bytes ++ (uvarint 0 ++ v)) := by
  rcases prefix_or_parts_of_lt h with ⟨s, r, rfl⟩ | hparts
  · rw [flatMap_append, flatMap_cons, append_assoc, append_assoc]
    exact (endMarker_parts (hq.ne_header hp) u _).append_left _
  · exact (Parts.flatMap Segment.bytes_orderedCode hparts).append _ _

/-- The subordinate key of `pk`'s row at `col` and `path`, with the row's part and the
    column split off. -/
theorem makeSubordinatePathKey_split (pk : Bytes) (col : UInt32) (path : Path) :
    makeSubordinatePathKey (makeFamilyKey pk 0) col path = pk ++ (uvarint 0 ++ (uvarint col.toNat ++
      (path.flatMap Segment.bytes ++ (uvarint 0 ++ uvarint (suffixLen col path))))) := by
  rw [makeSubordinatePathKey_eq]
  simp [subordinateSuffix]

theorem makeSubordinatePathPrefix_split (pk : Bytes) (col : UInt32) (path : Path) :
    makeSubordinatePathPrefix (makeFamilyKey pk 0) col path =
      pk ++ (uvarint 0 ++ (uvarint col.toNat ++ path.flatMap Segment.bytes)) := by
  simp [makeSubordinatePathPrefix, makeFamilyKey_zero, encodeUvarintAscending]

/-- Subordinate keys of a row part in the order of their columns, then paths. -/
theorem subordinateKey_parts (pk : Bytes) (hp : p ≠ []) (hq : HeaderFirst q) (h : c < d ∨ c = d ∧ p < q) :
    Parts (makeSubordinatePathKey (makeFamilyKey pk 0) c p) (makeSubordinatePathKey (makeFamilyKey pk 0) d q) := by
  rw [makeSubordinatePathKey_split, makeSubordinatePathKey_split]
  apply Parts.append_left
  apply Parts.append_left
  rcases h with hcd | ⟨rfl, hpq⟩
  · exact (uvarint_parts (UInt32.lt_iff_toNat_lt.mp hcd) (uint32_toNat_lt_64 d)).append _ _
  · exact (pathKey_parts hp hq hpq _ _).append_left _

theorem subordinateKey_lt_iff (pk : Bytes) (hp : p ≠ []) (hq : q ≠ []) (hp' : HeaderFirst p) (hq' : HeaderFirst q) :
    makeSubordinatePathKey (makeFamilyKey pk 0) c p < makeSubordinatePathKey (makeFamilyKey pk 0) d q ↔
      c < d ∨ c = d ∧ p < q := by
  refine ⟨fun hlt => ?_, fun h => (subordinateKey_parts pk hp hq' h).lt⟩
  by_contra hn
  -- otherwise the pairs are equal or the other way round
  have hback : (d < c ∨ d = c ∧ q < p) ∨ (c = d ∧ p = q) := by
    rcases Nat.lt_trichotomy c.toNat d.toNat with hcd | hcd | hcd
    · exact absurd (.inl (UInt32.lt_iff_toNat_lt.mpr hcd)) hn
    · have hcd := UInt32.toNat_inj.mp hcd
      rcases lt_trichotomy p q with hpq | hpq | hpq
      · exact absurd (.inr ⟨hcd, hpq⟩) hn
      · exact .inr ⟨hcd, hpq⟩
      · exact .inl (.inr ⟨hcd.symm, hpq⟩)
    · exact .inl (.inl (UInt32.lt_iff_toNat_lt.mpr hcd))
  rcases hback with hback | ⟨rfl, rfl⟩
  · exact lt_asymm hlt (subordinateKey_parts pk hq hp' hback).lt
  · exact lt_irrefl _ hlt

/-- A path prefix starts exactly the keys of the paths below it. -/
theorem prefix_subordinateKey_iff (pk : Bytes) (hp : HeaderFirst p) (hq : q ≠ []) :
    makeSubordinatePathPrefix (makeFamilyKey pk 0) c p <+: makeSubordinatePathKey (makeFamilyKey pk 0) d q ↔
      c = d ∧ p <+: q := by
  rw [makeSubordinatePathPrefix_split, makeSubordinatePathKey_split, prefix_append_right_inj, prefix_append_right_inj]
  refine ⟨fun h => ?_, fun ⟨hcd, r, hr⟩ => ?_⟩
  · obtain ⟨t, ht⟩ := h
    rw [append_assoc] at ht
    obtain ⟨hcd, ht⟩ := uvarint_append_inj (uint32_toNat_lt_64 c) (uint32_toNat_lt_64 d) ht
    refine ⟨UInt32.toNat_inj.mp hcd, ?_⟩
    rcases Segment.bytes_orderedCode.flatMap_prefix ⟨t, ht⟩ with hpq | ⟨s, u, rfl, hs⟩
    · exact hpq
    -- a longer path would go on with a header, where the key has its end marker
    obtain ⟨t', ht'⟩ := hs
    rw [flatMap_cons, append_assoc] at ht'
    exact absurd ht'.symm (endMarker_parts (hp.ne_header hq) _ _).ne
  · subst hcd hr
    rw [prefix_append_right_inj, flatMap_append, append_assoc]
    exact prefix_append _ _

theorem mem_prefix_span_subordinate (pk : Bytes) (hp : HeaderFirst p) (hq : q ≠ []) :
    (makeSubordinatePathPrefix (makeFamilyKey pk 0) c p ≤ makeSubordinatePathKey (makeFamilyKey pk 0) d q ∧
      makeSubordinatePathKey (makeFamilyKey pk 0) d q <
        prefixEnd (makeSubordinatePathPrefix (makeFamilyKey pk 0) c p)) ↔ c = d ∧ p <+: q := by
  rw [mem_prefix_span_iff, prefix_subordinateKey_iff pk hp hq]
  -- the sentinel's byte is not 0xff
  refine ⟨0x88, ?_, by decide⟩
  rw [makeSubordinatePathPrefix_split]
  simp [show uvarint 0 = [0x88] from rfl]

theorem sentinel_lt_subordinateKey (pk : Bytes) (c : UInt32) (p : Path) :
    makeFamilyKey pk 0 < makeSubordinatePathKey (makeFamilyKey pk 0) c p := by
  obtain ⟨h, t, ht, -⟩ := uvarint_head c.toNat
  rw [makeSubordinatePathKey_split, makeFamilyKey_zero, ← append_assoc pk, ht]
  exact lt_append_cons _ _ _

theorem subordinateKey_mem_rowRange (pk : Bytes) (c : UInt32) (p : Path) :
    (subordinateRowRange pk).1 ≤ makeSubordinatePathKey (makeFamilyKey pk 0) c p ∧
      makeSubordinatePathKey (makeFamilyKey pk 0) c p < (subordinateRowRange pk).2 := by
  rw [makeSubordinatePathKey_split]
  refine ⟨?_, ?_⟩
  · have hstart : (subordinateRowRange pk).1 = pk ++ (uvarint 0 ++ uvarint 0) := by
      simp [subordinateRowRange, makeFamilyKey_zero, encodeUvarintAscending]
    rw [hstart]
    rcases Nat.eq_zero_or_pos c.toNat with h0 | hpos
    · apply prefix_le
      rw [h0, prefix_append_right_inj]
      exact prefix_append _ _
    have hparts := (uvarint_parts hpos (uint32_toNat_lt_64 c)).append []
      (p.flatMap Segment.bytes ++ (uvarint 0 ++ uvarint (suffixLen c p)))
    exact le_of_lt ((hparts.append_left _).append_left _).lt
  · rw [show (subordinateRowRange pk).2 = _ from makeFamilyKey_one pk]
    exact (((uvarint_parts (by decide) (by decide)).append _ _).append_left _).lt

theorem subordinateKey_lt_later_row {pk pk' : Bytes} (hlt : pk < pk') (hext : ¬ pk <+: pk') (c : UInt32)
    (p : Path) : makeSubordinatePathKey (makeFamilyKey pk 0) c p < makeFamilyKey pk' 0 := by
  rcases prefix_or_parts_of_lt hlt with ⟨a, s, rfl⟩ | hparts
  · exact absurd (prefix_append _ _) hext
  · rw [makeSubordinatePathKey_split]
    exact (hparts.append _ _).lt

/-- Byte order on a row's subordinate keys is document pre-order; the span of a path
    prefix holds exactly the keys of the paths below it; and a row's subordinate keys
    lie after its sentinel, in its subordinate range, and before the sentinel of every
    later row that does not extend it. -/
theorem subordinate_key_order (pk : Bytes) (c d : UInt32) (p q : Path) (hp : p ≠ []) (hq : q ≠ [])
    (hp' : HeaderFirst p) (hq' : HeaderFirst q) :
    let key := makeSubordinatePathKey (makeFamilyKey pk 0)
    (key c p < key d q ↔ c < d ∨ c = d ∧ p < q) ∧
    (p <+: q → p ≠ q → key c p < key c q) ∧
    (∀ (e : UInt32) (r : Path), HeaderFirst r →
      let pre := makeSubordinatePathPrefix (makeFamilyKey pk 0) e r
      (pre ≤ key c p ∧ key c p < prefixEnd pre ↔ e = c ∧ r <+: p)) ∧
    makeFamilyKey pk 0 < key c p ∧
    ((subordinateRowRange pk).1 ≤ key c p ∧ key c p < (subordinateRowRange pk).2) ∧
    (∀ pk' : Bytes, pk < pk' → ¬ pk <+: pk' → key c p < makeFamilyKey pk' 0) := by
  refine ⟨subordinateKey_lt_iff pk hp hq hp' hq', fun hpre hne => ?_,
    fun e r hr => mem_prefix_span_subordinate pk hr hp, sentinel_lt_subordinateKey pk c p,
    subordinateKey_mem_rowRange pk c p, fun pk' hlt hext => subordinateKey_lt_later_row hlt hext c p⟩
  have hlt : p < q := lt_of_le_of_ne (prefix_le hpre) hne
  exact (subordinateKey_parts pk hp hq' (.inr ⟨rfl, hlt⟩)).lt

theorem subordinate_key_order_root_before_member :
    makeSubordinatePathKey (makeFamilyKey [0x89] 0) 2 [.header] <
      makeSubordinatePathKey (makeFamilyKey [0x89] 0) 2 [.header, .objectKey [97]] :=
  (subordinate_key_order [0x89] 2 2 [.header] [.header, .objectKey [97]] (by decide) (by decide)
    (by decide) (by decide)).2.1 (by decide) (by decide)

/-- The empty path is an ancestor of the root header, yet its key sorts after the
    header's and lies in the header's prefix span; and a row whose key extends
    another's can have its sentinel below the other's subordinate keys. -/
theorem subordinate_key_order_empty_path :
    let key := makeSubordinatePathKey (makeFamilyKey [0x89] 0) 2
    let pre := makeSubordinatePathPrefix (makeFamilyKey [0x89] 0) 2 [.header]
    (([] : Path) <+: [.header] ∧ key [.header] < key []) ∧
    ((pre ≤ key [] ∧ key [] < prefixEnd pre) ∧ ¬ ([.header] : Path) <+: []) ∧
    (([0x89] : Bytes) < [0x89, 0x12] ∧ makeFamilyKey [0x89, 0x12] 0 < key [.header]) := by
  decide +kernel

end Ratel.Keys
