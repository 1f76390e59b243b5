import Mathlib.Data.Finset.Basic
import Mathlib.Data.Option.Basic

/- Relations with NULLs and duplicates. A relation is a family of rows, so that two rows may hold the
   same values; a row gives each column a value or NULL. Two notions of equality are in use: NULL
   equals NULL when two rows are compared, and a row with a NULL is equal to no other when only rows
   without NULLs count. Functional dependencies and keys come in both kinds. -/
namespace Ratel.Lib

structure Relation (γ V : Type) where
  cols : Finset γ
  Idx : Type
  row : Idx → γ → Option V

variable {γ V : Type}

/-- The rows are equal on the columns, NULL being equal to NULL. -/
def AgreeOn (s : Finset γ) (r r' : γ → Option V) : Prop := ∀ c ∈ s, r c = r' c

/-- The row has no NULL on the columns. -/
def NonNull (s : Finset γ) (r : γ → Option V) : Prop := ∀ c ∈ s, r c ≠ none

variable {s t : Finset γ} {r r' : γ → Option V}

theorem AgreeOn.mono (h : AgreeOn s r r') (hts : t ⊆ s) : AgreeOn t r r' :=
  fun c hc => h c (hts hc)

theorem NonNull.mono (h : NonNull s r) (hts : t ⊆ s) : NonNull t r :=
  fun c hc => h c (hts hc)

theorem agreeOn_union [DecidableEq γ] :
    AgreeOn (s ∪ t) r r' ↔ AgreeOn s r r' ∧ AgreeOn t r r' := by
  constructor
  · intro h
    exact ⟨h.mono Finset.subset_union_left, h.mono Finset.subset_union_right⟩
  intro ⟨hs, ht⟩ c hc
  rcases Finset.mem_union.mp hc with hc | hc
  · exact hs c hc
  · exact ht c hc

theorem AgreeOn.symm (h : AgreeOn s r r') : AgreeOn s r' r :=
  fun c hc => (h c hc).symm

theorem NonNull.of_agreeOn (hn : NonNull s r) (h : AgreeOn s r r') :
    NonNull s r' := fun c hc => h c hc ▸ hn c hc

namespace Relation

variable (R : Relation γ V)

/-- The strict dependency: rows equal on `s` are equal on `t`. -/
def Determines (s t : Finset γ) : Prop := ∀ i j, AgreeOn s (R.row i) (R.row j) → AgreeOn t (R.row i) (R.row j)

/-- The lax dependency: the same for rows without a NULL on `s`. -/
def LaxDetermines (s t : Finset γ) : Prop :=
  ∀ i j, NonNull s (R.row i) → AgreeOn s (R.row i) (R.row j) → AgreeOn t (R.row i) (R.row j)

/-- No two rows are equal on the columns. -/
def StrictKey (k : Finset γ) : Prop := ∀ i j, AgreeOn k (R.row i) (R.row j) → i = j

/-- No two rows without a NULL on the columns are equal on them. -/
def LaxKey (k : Finset γ) : Prop := ∀ i j, NonNull k (R.row i) → AgreeOn k (R.row i) (R.row j) → i = j

/-- In each row, the columns of `s` are equal to those of `t`, or NULL with them. -/
def Equated (s t : Finset γ) : Prop := ∀ i, ∀ a ∈ s, ∀ b ∈ t, R.row i a = R.row i b

def NotNull (s : Finset γ) : Prop := ∀ i, NonNull s (R.row i)

variable {R} {s t u k : Finset γ}

theorem Determines.mono (h : R.Determines s t) (hs : s ⊆ u) : R.Determines u t :=
  fun i j hu => h i j (hu.mono hs)

theorem Determines.subset (h : R.Determines s t) (ht : u ⊆ t) : R.Determines s u :=
  fun i j hs => (h i j hs).mono ht

theorem LaxDetermines.subset (h : R.LaxDetermines s t) (ht : u ⊆ t) : R.LaxDetermines s u :=
  fun i j hn hs => (h i j hn hs).mono ht

theorem determines_of_subset (h : t ⊆ s) : R.Determines s t := fun _ _ hs => hs.mono h

theorem determines_refl (s : Finset γ) : R.Determines s s := fun _ _ hs => hs

theorem Determines.trans (h : R.Determines s t) (h' : R.Determines t u) : R.Determines s u :=
  fun i j hs => h' i j (h i j hs)

theorem LaxDetermines.trans (h : R.LaxDetermines s t) (h' : R.Determines t u) : R.LaxDetermines s u :=
  fun i j hn hs => h' i j (h i j hn hs)

theorem Determines.lax (h : R.Determines s t) : R.LaxDetermines s t := fun i j _ hs => h i j hs

theorem LaxDetermines.strict (h : R.LaxDetermines s t) (hn : R.NotNull s) : R.Determines s t :=
  fun i j hs => h i j (hn i) hs

theorem Determines.union [DecidableEq γ] (h : R.Determines s t) (h' : R.Determines s u) : R.Determines s (t ∪ u) :=
  fun i j hs => agreeOn_union.mpr ⟨h i j hs, h' i j hs⟩

theorem LaxDetermines.union [DecidableEq γ] (h : R.LaxDetermines s t) (h' : R.LaxDetermines s u) :
    R.LaxDetermines s (t ∪ u) := fun i j hn hs => agreeOn_union.mpr ⟨h i j hn hs, h' i j hn hs⟩

theorem StrictKey.determines (h : R.StrictKey k) : R.Determines k t := fun i j hk => h i j hk ▸ fun _ _ => rfl

theorem LaxKey.laxDetermines (h : R.LaxKey k) : R.LaxDetermines k t := fun i j hn hk => h i j hn hk ▸ fun _ _ => rfl

theorem StrictKey.lax (h : R.StrictKey k) : R.LaxKey k := fun i j _ hk => h i j hk

theorem StrictKey.of_determines (h : R.StrictKey k) (hs : R.Determines s k) : R.StrictKey s :=
  fun i j hij => h i j (hs i j hij)

theorem StrictKey.of_laxDetermines (h : R.StrictKey k) (hs : R.LaxDetermines s k) : R.LaxKey s :=
  fun i j hn hij => h i j (hs i j hn hij)

theorem LaxKey.strict (h : R.LaxKey k) (hn : R.NotNull k) : R.StrictKey k := fun i j hk => h i j (hn i) hk

theorem Equated.determines (h : R.Equated s t) (hs : s.Nonempty) : R.Determines s t := by
  intro i j hij b hb
  obtain ⟨a, ha⟩ := hs
  rw [← h i a ha b hb, ← h j a ha b hb]
  exact hij a ha

/-! Operators. -/

/-- The rows cut down to some columns, all of them kept. -/
def project [DecidableEq γ] (R : Relation γ V) (cols : Finset γ) : Relation γ V where
  cols := cols
  Idx := R.Idx
  row i c := if c ∈ cols then R.row i c else none

/-- The row of the columns `cols` from one row and of all others from another. -/
def combine [DecidableEq γ] (cols : Finset γ) (l r : γ → Option V) (c : γ) : Option V := if c ∈ cols then l c else r c

def product [DecidableEq γ] (L R : Relation γ V) : Relation γ V where
  cols := L.cols ∪ R.cols
  Idx := L.Idx × R.Idx
  row p := combine L.cols (L.row p.1) (R.row p.2)

/-- The rows for which a condition holds. -/
def filter (R : Relation γ V) (p : R.Idx → Prop) : Relation γ V where
  cols := R.cols
  Idx := {i // p i}
  row i := R.row i

def nulls (V : Type) (cols : Finset γ) : Relation γ V where
  cols := cols
  Idx := Unit
  row _ _ := none

/-! Rows read from another relation. -/

/-- On the columns `A`, the rows of `R'` are rows of `R`. -/
def Reads (R' R : Relation γ V) (A : Finset γ) (φ : R'.Idx → R.Idx) : Prop :=
  ∀ i, ∀ c ∈ A, R'.row i c = R.row (φ i) c

namespace Reads

variable {R' : Relation γ V} {A : Finset γ} {φ : R'.Idx → R.Idx} (h : Reads R' R A φ)
include h

theorem agreeOn {i j : R'.Idx} (hs : s ⊆ A) :
    AgreeOn s (R'.row i) (R'.row j) ↔ AgreeOn s (R.row (φ i)) (R.row (φ j)) := by
  refine forall₂_congr fun c hc => ?_
  rw [h i c (hs hc), h j c (hs hc)]

theorem nonNull {i : R'.Idx} (hs : s ⊆ A) : NonNull s (R'.row i) ↔ NonNull s (R.row (φ i)) := by
  refine forall₂_congr fun c hc => ?_
  rw [h i c (hs hc)]

theorem determines (hd : R.Determines s t) (hs : s ⊆ A) (ht : t ⊆ A) : R'.Determines s t :=
  fun _ _ hij => (h.agreeOn ht).mpr (hd _ _ ((h.agreeOn hs).mp hij))

theorem laxDetermines (hd : R.LaxDetermines s t) (hs : s ⊆ A) (ht : t ⊆ A) :
    R'.LaxDetermines s t :=
  fun _ _ hn hij => (h.agreeOn ht).mpr (hd _ _ ((h.nonNull hs).mp hn) ((h.agreeOn hs).mp hij))

theorem equated (he : R.Equated s t) (hs : s ⊆ A) (ht : t ⊆ A) : R'.Equated s t := by
  intro i a ha b hb
  rw [h i a (hs ha), h i b (ht hb)]
  exact he _ a ha b hb

theorem strictKey (hφ : φ.Injective) (hk : R.StrictKey k) (hs : k ⊆ A) : R'.StrictKey k :=
  fun _ _ hij => hφ (hk _ _ ((h.agreeOn hs).mp hij))

theorem laxKey (hφ : φ.Injective) (hk : R.LaxKey k) (hs : k ⊆ A) : R'.LaxKey k :=
  fun _ _ hn hij => hφ (hk _ _ ((h.nonNull hs).mp hn) ((h.agreeOn hs).mp hij))

theorem notNull (hn : R.NotNull s) (hs : s ⊆ A) : R'.NotNull s :=
  fun i => (h.nonNull hs).mpr (hn (φ i))

end Reads

theorem reads_filter (R : Relation γ V) (p : R.Idx → Prop) (A : Finset γ) : Reads (R.filter p) R A Subtype.val :=
  fun _ _ _ => rfl

section Products

variable [DecidableEq γ] {L : Relation γ V} {cols : Finset γ} {l r : γ → Option V}

theorem combine_left {c : γ} (h : c ∈ cols) : combine cols l r c = l c := if_pos h

theorem combine_right {c : γ} (h : c ∉ cols) : combine cols l r c = r c := if_neg h

theorem reads_project (R : Relation γ V) (cols : Finset γ) : Reads (R.project cols) R cols id := fun _ _ hc => if_pos hc

theorem reads_product_left (L R : Relation γ V) : Reads (L.product R) L L.cols Prod.fst := fun _ _ hc => combine_left hc

theorem reads_product_right {A : Finset γ} (L R : Relation γ V) (h : Disjoint L.cols A) :
    Reads (L.product R) R A Prod.snd := fun _ _ hc => combine_right (Finset.disjoint_right.mp h hc)

/-- A relation is the left part of its product with one row of NULLs. -/
theorem reads_nulls (L : Relation γ V) (cols : Finset γ) : Reads L (L.product (nulls V cols)) L.cols fun i => (i, ()) :=
  fun _ _ hc => (combine_left hc).symm

theorem reads_nulls_right {A : Finset γ} (R : Relation γ V) (h : Disjoint cols A) :
    Reads R ((nulls V cols).product R) A fun j => ((), j) :=
  fun _ _ hc => (combine_right (Finset.disjoint_right.mp h hc)).symm

theorem product_strictKey {k' : Finset γ} (hL : L.StrictKey k) (hR : R.StrictKey k') (hk : k ⊆ L.cols)
    (hk' : Disjoint L.cols k') : (L.product R).StrictKey (k ∪ k') := by
  intro p q hpq
  obtain ⟨hleft, hright⟩ := agreeOn_union.mp hpq
  exact Prod.ext (hL _ _ (((reads_product_left L R).agreeOn hk).mp hleft))
    (hR _ _ (((reads_product_right L R hk').agreeOn (Finset.Subset.refl _)).mp hright))

theorem product_laxKey {k' : Finset γ} (hL : L.LaxKey k) (hR : R.LaxKey k') (hk : k ⊆ L.cols)
    (hk' : Disjoint L.cols k') : (L.product R).LaxKey (k ∪ k') := by
  intro p q hn hpq
  obtain ⟨hleft, hright⟩ := agreeOn_union.mp hpq
  have hnl := ((reads_product_left L R).nonNull hk).mp (hn.mono Finset.subset_union_left)
  have hnr := ((reads_product_right L R hk').nonNull (Finset.Subset.refl _)).mp (hn.mono Finset.subset_union_right)
  exact Prod.ext (hL _ _ hnl (((reads_product_left L R).agreeOn hk).mp hleft))
    (hR _ _ hnr (((reads_product_right L R hk').agreeOn (Finset.Subset.refl _)).mp hright))

end Products

/-! Outer joins. -/

section OuterJoins

variable [DecidableEq γ] (L R : Relation γ V) (cond : L.Idx → R.Idx → Prop)

/-- The pairs that meet the condition, and the left rows that meet it with no right row, with NULLs
    for the right columns. -/
def leftOuter : Relation γ V where
  cols := L.cols ∪ R.cols
  Idx := {p : L.Idx × R.Idx // cond p.1 p.2} ⊕ {i : L.Idx // ∀ j, ¬ cond i j}
  row
    | .inl p => combine L.cols (L.row p.1.1) (R.row p.1.2)
    | .inr i => combine L.cols (L.row i.1) fun _ => none

/-- The left outer join, and the right rows that meet the condition with no left row. -/
def fullOuter : Relation γ V where
  cols := L.cols ∪ R.cols
  Idx := (L.leftOuter R cond).Idx ⊕ {j : R.Idx // ∀ i, ¬ cond i j}
  row
    | .inl i => (L.leftOuter R cond).row i
    | .inr j => combine L.cols (fun _ => none) (R.row j.1)

variable {L R cond} {A B nn C : Finset γ}

/-- On the columns `B`, a row is one of `R` or has only NULLs. -/
def ReadsOrNull (J R : Relation γ V) (B : Finset γ) (ψ : J.Idx → Option R.Idx) : Prop :=
  ∀ i, ∀ c ∈ B, J.row i c = (ψ i).elim none fun j => R.row j c

namespace ReadsOrNull

variable {J : Relation γ V} {ψ : J.Idx → Option R.Idx}

omit [DecidableEq γ] in
theorem of_nonNull {i : J.Idx} (h : ReadsOrNull J R B ψ) (hs : s ⊆ B) {c : γ} (hc : c ∈ s)
    (hn : J.row i c ≠ none) : ∃ j, ψ i = some j := by
  cases hj : ψ i with
  | some j => exact ⟨j, rfl⟩
  | none =>
    rw [h i c (hs hc), hj] at hn
    exact absurd rfl hn

omit [DecidableEq γ] in
theorem agreeOn {i i' : J.Idx} {j j' : R.Idx} (h : ReadsOrNull J R B ψ) (hi : ψ i = some j) (hi' : ψ i' = some j')
    (hs : s ⊆ B) : AgreeOn s (J.row i) (J.row i') ↔ AgreeOn s (R.row j) (R.row j') := by
  refine forall₂_congr fun c hc => ?_
  rw [h i c (hs hc), h i' c (hs hc), hi, hi']
  rfl

omit [DecidableEq γ] in
/-- A lax dependency survives: rows with NULLs for all columns have one in the determinant. -/
theorem laxDetermines (h : ReadsOrNull J R B ψ) (hd : R.LaxDetermines s t) (hne : s.Nonempty) (hs : s ⊆ B)
    (ht : t ⊆ B) : J.LaxDetermines s t := by
  intro i i' hn hij
  obtain ⟨c, hc⟩ := hne
  obtain ⟨j, hj⟩ := h.of_nonNull hs hc (hn c hc)
  obtain ⟨j', hj'⟩ := h.of_nonNull hs hc (hij c hc ▸ hn c hc)
  refine (h.agreeOn hj hj' ht).mpr (hd j j' (fun a ha => ?_) ((h.agreeOn hj hj' hs).mp hij))
  have hna := hn a ha
  rwa [h i a (hs ha), hj] at hna

omit [DecidableEq γ] in
/-- A strict dependency survives if a column of the determinant is not NULL in `R`. -/
theorem determines (h : ReadsOrNull J R B ψ) (hd : R.Determines s t) (hs : s ⊆ B) (ht : t ⊆ B) {c : γ} (hc : c ∈ s)
    (hn : ∀ j, R.row j c ≠ none) : J.Determines s t := by
  intro i i' hij
  have hcol := hij c hc
  rw [h i c (hs hc), h i' c (hs hc)] at hcol
  cases hi : ψ i with
  | none =>
    cases hi' : ψ i' with
    | none =>
      intro a ha
      rw [h i a (ht ha), h i' a (ht ha), hi, hi']
    | some j' =>
      rw [hi, hi'] at hcol
      exact absurd hcol.symm (hn j')
  | some j =>
    cases hi' : ψ i' with
    | none =>
      rw [hi, hi'] at hcol
      exact absurd hcol (hn j)
    | some j' => exact (h.agreeOn hi hi' ht).mpr (hd j j' ((h.agreeOn hi hi' hs).mp hij))

omit [DecidableEq γ] in
theorem equated (h : ReadsOrNull J R B ψ) (he : R.Equated s t) (hs : s ⊆ B) (ht : t ⊆ B) : J.Equated s t := by
  intro i a ha b hb
  rw [h i a (hs ha), h i b (ht hb)]
  cases ψ i with
  | none => rfl
  | some j => exact he j a ha b hb

end ReadsOrNull

/-- The left row of a row of the left outer join. -/
def leftOf : (L.leftOuter R cond).Idx → L.Idx
  | .inl p => p.1.1
  | .inr i => i.1

theorem reads_leftOuter : Reads (L.leftOuter R cond) L L.cols leftOf := by
  intro i c hc
  cases i <;> exact if_pos hc

/-- The right rows of the outer joins, where there is one. -/
def rightOf : (L.leftOuter R cond).Idx → Option R.Idx
  | .inl p => some p.1.2
  | .inr _ => none

theorem readsOrNull_leftOuter (hdisj : Disjoint L.cols B) : ReadsOrNull (L.leftOuter R cond) R B rightOf := by
  intro i c hc
  have hc' := Finset.disjoint_right.mp hdisj hc
  cases i <;> exact if_neg hc'

def fullLeftOf : (L.fullOuter R cond).Idx → Option L.Idx
  | .inl i => some (leftOf i)
  | .inr _ => none

theorem readsOrNull_fullOuter_left : ReadsOrNull (L.fullOuter R cond) L L.cols fullLeftOf := by
  intro i c hc
  rcases i with i | j
  · exact reads_leftOuter i c hc
  · exact if_pos hc

def fullRightOf : (L.fullOuter R cond).Idx → Option R.Idx
  | .inl i => rightOf i
  | .inr j => some j.1

theorem readsOrNull_fullOuter_right (hdisj : Disjoint L.cols B) :
    ReadsOrNull (L.fullOuter R cond) R B fullRightOf := by
  intro i c hc
  rcases i with i | j
  · exact readsOrNull_leftOuter hdisj i c hc
  · exact if_neg (Finset.disjoint_right.mp hdisj hc)

/-! Keys of outer joins. A key of the product is one of each side, with NULLs in the place of the
    other. -/

/-- Rows that agree do so with NULLs for the right columns. -/
theorem agreeOn_nulls_right {l l' r r' : γ → Option V} (h : AgreeOn k (combine A l r) (combine A l' r')) :
    AgreeOn k (combine A l fun _ => none) (combine A l' fun _ => none) := by
  intro c hc
  have hcol := h c hc
  unfold combine at hcol ⊢
  split
  · next hA => rwa [if_pos hA, if_pos hA] at hcol
  · rfl

theorem agreeOn_nulls_left {l l' r r' : γ → Option V} (h : AgreeOn k (combine A l r) (combine A l' r')) :
    AgreeOn k (combine A (fun _ => none) r) (combine A (fun _ => none) r') := by
  intro c hc
  have hcol := h c hc
  unfold combine at hcol ⊢
  split
  · rfl
  · next hA => rwa [if_neg hA, if_neg hA] at hcol

/-- Both kinds of keys at once: `N` is what the rows that count have in common. -/
theorem leftOuter_key {N : (γ → Option V) → Prop} (hN : ∀ {r r'}, N r → AgreeOn k r r' → N r')
    (hP : ∀ p q, N ((L.product R).row p) → AgreeOn k ((L.product R).row p) ((L.product R).row q) → p = q)
    (hL : ∀ {i i' : L.Idx}, N (combine L.cols (L.row i) fun _ => none) →
      AgreeOn k (combine L.cols (L.row i) fun _ => none) (combine L.cols (L.row i') fun _ => none) → i = i')
    (x y : (L.leftOuter R cond).Idx) (hn : N ((L.leftOuter R cond).row x))
    (hxy : AgreeOn k ((L.leftOuter R cond).row x) ((L.leftOuter R cond).row y)) : x = y := by
  rcases x with p | i
  · rcases y with q | i
    · exact congrArg Sum.inl (Subtype.ext (hP p.1 q.1 hn hxy))
    · exact absurd (hL (hN hn hxy) (agreeOn_nulls_right hxy.symm) ▸ p.2) (i.2 _)
  rcases y with q | i'
  · exact absurd (hL hn (agreeOn_nulls_right hxy) ▸ q.2) (i.2 _)
  · exact congrArg Sum.inr (Subtype.ext (hL hn hxy))

theorem leftOuter_strictKey (hP : (L.product R).StrictKey k) (hN : (L.product (nulls V C)).StrictKey k) :
    (L.leftOuter R cond).StrictKey k := fun x y =>
  leftOuter_key (N := fun _ => True) (fun _ _ => trivial) (fun p q _ => hP p q)
    (fun _ h => congrArg Prod.fst (hN (_, ()) (_, ()) h)) x y trivial

theorem leftOuter_laxKey (hP : (L.product R).LaxKey k) (hN : (L.product (nulls V C)).LaxKey k) :
    (L.leftOuter R cond).LaxKey k :=
  leftOuter_key .of_agreeOn hP fun hn h => congrArg Prod.fst (hN (_, ()) (_, ()) hn h)

theorem fullOuter_key {N : (γ → Option V) → Prop} (hN : ∀ {r r'}, N r → AgreeOn k r r' → N r')
    (hL : ∀ x y, N ((L.leftOuter R cond).row x) →
      AgreeOn k ((L.leftOuter R cond).row x) ((L.leftOuter R cond).row y) → x = y)
    (hR : ∀ {j j' : R.Idx}, N (combine L.cols (fun _ => none) (R.row j)) →
      AgreeOn k (combine L.cols (fun _ => none) (R.row j)) (combine L.cols (fun _ => none) (R.row j')) → j = j')
    (hapart : ∀ (i : L.Idx) (j : R.Idx), N (combine L.cols (fun _ => none) (R.row j)) →
      ¬ AgreeOn k (combine L.cols (fun _ => none) (R.row j)) (combine L.cols (L.row i) fun _ => none))
    (x y : (L.fullOuter R cond).Idx) (hn : N ((L.fullOuter R cond).row x))
    (hxy : AgreeOn k ((L.fullOuter R cond).row x) ((L.fullOuter R cond).row y)) : x = y := by
  have hleft : ∀ (x : (L.leftOuter R cond).Idx) (j : {j : R.Idx // ∀ i, ¬ cond i j}),
      N (combine L.cols (fun _ => none) (R.row j.1)) →
      ¬ AgreeOn k (combine L.cols (fun _ => none) (R.row j.1)) ((L.leftOuter R cond).row x) := by
    intro x j hn h
    rcases x with p | i
    · exact j.2 _ (hR hn (agreeOn_nulls_left h) ▸ p.2)
    · exact hapart i.1 j.1 hn h
  rcases x with x | j
  · rcases y with y | j
    · exact congrArg Sum.inl (hL x y hn hxy)
    · exact absurd hxy.symm (hleft x j (hN hn hxy))
  rcases y with y | j'
  · exact absurd hxy (hleft y j hn)
  · exact congrArg Sum.inr (Subtype.ext (hR hn hxy))

theorem fullOuter_strictKey (hP : (L.product R).StrictKey k) (hL : (L.product (nulls V R.cols)).StrictKey k)
    (hR : ((nulls V L.cols).product R).StrictKey k) {c : γ} (hc : c ∈ k)
    (hnL : c ∈ L.cols → ∀ i, L.row i c ≠ none) (hnR : c ∉ L.cols → ∀ j, R.row j c ≠ none) :
    (L.fullOuter R cond).StrictKey k := by
  intro x y
  refine fullOuter_key (N := fun _ => True) (fun _ _ => trivial) (fun x y _ => leftOuter_strictKey hP hL x y)
    (fun _ h => congrArg Prod.snd (hR ((), _) ((), _) h)) (fun i j _ h => ?_) x y trivial
  -- the column that is not NULL in its relation is NULL on the other side
  have hcol := h c hc
  by_cases hcL : c ∈ L.cols
  · exact hnL hcL i (by simpa [combine, hcL] using hcol.symm)
  · exact hnR hcL j (by simpa [combine, hcL] using hcol)

theorem fullOuter_laxKey (hP : (L.product R).LaxKey k) (hL : (L.product (nulls V R.cols)).LaxKey k)
    (hR : ((nulls V L.cols).product R).LaxKey k) (hne : k.Nonempty) : (L.fullOuter R cond).LaxKey k := by
  refine fullOuter_key .of_agreeOn (leftOuter_laxKey hP hL)
    (fun hn h => congrArg Prod.snd (hR ((), _) ((), _) hn h)) fun i j hn h => ?_
  -- a column of the key is NULL on one of the sides
  obtain ⟨c, hc⟩ := hne
  have hcol := h c hc
  by_cases hcL : c ∈ L.cols
  · exact hn c hc (combine_left hcL)
  · exact hn c hc (by simpa [combine, hcL] using hcol)

end OuterJoins

end Relation

end Ratel.Lib
