import Mathlib

/- Association lists kept strictly ascending by key, as a library: the search that
   stops at the first key not below the one sought, ordered insertion, erasure,
   filtering by key and the merge of two lists with the right one taking
   precedence. Every operation keeps the order and is described by what a search in
   its result finds, and two ordered lists in which every search finds the same are
   equal (`Ascending.ext`). -/
namespace Ratel.Lib

open List hiding find?

variable {κ β : Type*} [LinearOrder κ]

/-- Keys strictly ascend. -/
def Ascending (l : List (κ × β)) : Prop := l.Pairwise fun a b => a.1 < b.1

instance (l : List (κ × β)) : Decidable (Ascending l) := inferInstanceAs (Decidable (l.Pairwise _))

namespace Assoc

/-- Scan to the first key not below `key`. -/
def find? (key : κ) : List (κ × β) → Option β
  | [] => none
  | (k, v) :: rest => if k < key then find? key rest else if k = key then some v else none

/-- Put `v` at `key`, replacing what was there. -/
def insert (key : κ) (v : β) : List (κ × β) → List (κ × β)
  | [] => [(key, v)]
  | (k, w) :: rest =>
    if k < key then (k, w) :: insert key v rest
    else if k = key then (key, v) :: rest else (key, v) :: (k, w) :: rest

/-- Remove `key`. -/
def erase (key : κ) : List (κ × β) → List (κ × β)
  | [] => []
  | (k, w) :: rest =>
    if k < key then (k, w) :: erase key rest else if k = key then rest else (k, w) :: rest

/-- Merge two ascending lists; where both have a key, `right`'s value is taken. -/
def merge : List (κ × β) → List (κ × β) → List (κ × β)
  | [], right => right
  | (k, v) :: left, right =>
    right.takeWhile (fun kv => kv.1 < k) ++
      match right.dropWhile fun kv => kv.1 < k with
      | [] => (k, v) :: merge left []
      | (k', v') :: rest =>
        if k' = k then (k', v') :: merge left rest else (k, v) :: merge left ((k', v') :: rest)

theorem find?_mem {key : κ} {v : β} : ∀ {l : List (κ × β)}, find? key l = some v → (key, v) ∈ l
  | [], h => by simp [find?] at h
  | (k, w) :: l, h => by
    rw [find?] at h
    split at h
    · exact mem_cons_of_mem _ (find?_mem h)
    split at h
    · rename_i he
      simp only [Option.some.injEq] at h
      simp [he, h]
    · cases h

end Assoc

namespace Ascending
open Assoc
variable {l m : List (κ × β)} {key : κ} {v : β}

variable {a : κ × β}

theorem tail (h : Ascending (a :: l)) : Ascending l := (pairwise_cons.mp h).2

theorem head_lt {b : κ × β} (h : Ascending (a :: l)) (hb : b ∈ l) : a.1 < b.1 :=
  (pairwise_cons.mp h).1 b hb

/-- In an ascending list a search finds what is there. -/
theorem find?_eq_some_iff : ∀ {l : List (κ × β)}, Ascending l → (find? key l = some v ↔ (key, v) ∈ l)
  | [], _ => by simp [find?]
  | (k, w) :: l, h => by
    rw [find?, mem_cons]
    split
    · rename_i hk
      rw [find?_eq_some_iff h.tail]
      refine ⟨.inr, fun hm => hm.resolve_left ?_⟩
      intro he
      exact absurd hk (by rw [(Prod.mk.inj he).1]; exact lt_irrefl _)
    rename_i hk
    -- past the scan nothing in the tail is at `key`
    have htail : (key, v) ∉ l := fun hm => hk (h.head_lt hm)
    split
    · rename_i he
      subst he
      simp [htail, eq_comm]
    · rename_i hne
      simp [htail, Ne.symm hne]

theorem find?_eq_none_iff (h : Ascending l) : find? key l = none ↔ ∀ w, (key, w) ∉ l := by
  rw [Option.eq_none_iff_forall_ne_some]
  exact forall_congr' fun w => not_congr h.find?_eq_some_iff

theorem find?_tail (h : Ascending (a :: l)) (hkey : ¬ a.1 < key) : find? key l = none :=
  h.tail.find?_eq_none_iff.mpr fun _ hw => hkey (h.head_lt hw)

/-- In an ascending list the scan is a look-up. -/
theorem find?_cons (h : Ascending (a :: l)) : find? key (a :: l) = if key = a.1 then some a.2 else find? key l := by
  obtain ⟨k, w⟩ := a
  rw [find?]
  by_cases hk : key = k
  · simp [hk]
  by_cases hlt : k < key
  · simp [hlt, hk]
  · simp [hk, Ne.symm hk, h.find?_tail hlt]

theorem find?_append (h : Ascending (l ++ m)) : find? key (l ++ m) = (find? key l).or (find? key m) := by
  induction l with
  | nil => rfl
  | cons a l ih =>
    have hl : Ascending (a :: l) := List.Pairwise.sublist (sublist_append_left _ m) h
    rw [cons_append] at h ⊢
    rw [h.find?_cons, hl.find?_cons, ih h.tail]
    split <;> simp

/-- Two ascending lists in which every search finds related values, or nothing in
    either, are related pair by pair. -/
theorem forall₂ {γ : Type*} {R : β → γ → Prop} : ∀ {l : List (κ × β)} {m : List (κ × γ)},
    Ascending l → Ascending m → (∀ k, Option.Rel R (find? k l) (find? k m)) →
    List.Forall₂ (fun a b => a.1 = b.1 ∧ R a.2 b.2) l m
  | [], [], _, _, _ => .nil
  | [], (k, w) :: m, _, _, h => by
    have := h k
    simp only [find?, lt_irrefl, if_false] at this
    cases this
  | (k, v) :: l, [], _, _, h => by
    have := h k
    simp only [find?, lt_irrefl, if_false] at this
    cases this
  | (k, v) :: l, (k', w) :: m, hl, hm, h => by
    -- a smaller head would be found on one side only
    have hkk : k = k' := by
      rcases lt_trichotomy k k' with hlt | heq | hlt
      · have := h k
        simp only [find?, lt_irrefl, if_false, not_lt_of_gt hlt, ne_of_gt hlt] at this
        cases this
      · exact heq
      · have := h k'
        simp only [find?, lt_irrefl, if_false, not_lt_of_gt hlt, ne_of_gt hlt] at this
        cases this
    subst hkk
    have hvw : R v w := by
      have := h k
      simp only [find?, lt_irrefl, if_false] at this
      cases this with
      | some hr => exact hr
    refine .cons ⟨rfl, hvw⟩ (forall₂ hl.tail hm.tail fun key => ?_)
    by_cases hlt : k < key
    · have := h key
      simpa only [find?, if_pos hlt] using this
    -- nothing is at `key` in either tail
    rw [hl.find?_tail hlt, hm.find?_tail hlt]
    exact .none

theorem nodup (h : Ascending l) : l.Nodup := by
  refine h.imp fun {a b} hab he => ?_
  rw [he] at hab
  exact lt_irrefl _ hab

theorem ext (hl : Ascending l) (hm : Ascending m) (h : ∀ k, find? k l = find? k m) : l = m := by
  have hperm : l.Perm m := by
    rw [perm_ext_iff_of_nodup hl.nodup hm.nodup]
    intro a
    rw [← hl.find?_eq_some_iff, ← hm.find?_eq_some_iff, h]
  exact hperm.eq_of_pairwise (fun a b _ _ hab hba => absurd hab (lt_asymm hba)) hl hm

theorem filter (h : Ascending l) (p : κ × β → Bool) : Ascending (l.filter p) :=
  List.Pairwise.filter p h

theorem find?_filter (h : Ascending l) (p : κ → Bool) (k : κ) :
    find? k (l.filter fun kv => p kv.1) = if p k then find? k l else none := by
  apply Option.ext
  intro w
  rw [(h.filter _).find?_eq_some_iff]
  split
  · rename_i hp
    rw [h.find?_eq_some_iff]
    simp [hp]
  · rename_i hp
    simp [hp]

/-- The entry found, between entries of other keys. -/
theorem exists_split {l : List (κ × β)} (h : Ascending l) (hf : find? key l = some v) :
    ∃ l₁ l₂, l = l₁ ++ (key, v) :: l₂ ∧ (∀ a ∈ l₁, a.1 ≠ key) ∧ ∀ a ∈ l₂, a.1 ≠ key := by
  obtain ⟨l₁, l₂, rfl⟩ := append_of_mem (find?_mem hf)
  obtain ⟨-, htail, hbetween⟩ := pairwise_append.mp h
  refine ⟨l₁, l₂, rfl, fun a ha => ne_of_lt (hbetween a ha _ mem_cons_self), fun a ha => ?_⟩
  exact ne_of_gt ((pairwise_cons.mp htail).1 a ha)

/-- Selecting the entries at one key by hand is a search. -/
theorem flatMap_select {γ : Type*} (f : β → List γ) (k : κ) : ∀ {l : List (κ × β)}, Ascending l →
    (l.flatMap fun a => if a.1 = k then f a.2 else []) = ((find? k l).map f).getD []
  | [], _ => by simp [find?]
  | (k', v) :: l, h => by
    rw [flatMap_cons, flatMap_select f k h.tail, h.find?_cons]
    by_cases hk : k = k'
    · subst hk
      simp [h.find?_tail (lt_irrefl _)]
    · simp [hk, Ne.symm hk]

/-! Insertion. -/

theorem mem_insert : ∀ {l : List (κ × β)} {a : κ × β}, a ∈ Assoc.insert key v l → a = (key, v) ∨ a ∈ l
  | [], a, h => by simpa [Assoc.insert] using h
  | (k, w) :: l, a, h => by
    rw [Assoc.insert] at h
    split at h
    · rcases mem_cons.mp h with rfl | hm
      · simp
      rcases mem_insert hm with rfl | hm
      · simp
      · simp [hm]
    split at h
    · rcases mem_cons.mp h with rfl | hm
      · simp
      · simp [hm]
    · simpa using h

theorem insert (h : Ascending l) : Ascending (Assoc.insert key v l) := by
  induction l with
  | nil => simp [Assoc.insert, Ascending]
  | cons a l ih =>
    obtain ⟨k, w⟩ := a
    rw [Assoc.insert]
    split
    · rename_i hk
      refine pairwise_cons.mpr ⟨fun b hb => ?_, ih h.tail⟩
      rcases mem_insert hb with rfl | hb
      · exact hk
      · exact h.head_lt hb
    split
    · rename_i he
      subst he
      exact pairwise_cons.mpr ⟨fun b hb => h.head_lt hb, h.tail⟩
    rename_i hk hne
    have hlt : key < k := lt_of_le_of_ne (not_lt.mp hk) (Ne.symm hne)
    refine pairwise_cons.mpr ⟨fun b hb => ?_, h⟩
    rcases mem_cons.mp hb with rfl | hb
    · exact hlt
    · exact hlt.trans (h.head_lt hb)

theorem find?_insert (k : κ) : ∀ l : List (κ × β),
    find? k (Assoc.insert key v l) = if k = key then some v else find? k l
  | [] => by
    rw [Assoc.insert, find?, find?]
    by_cases hk : k = key
    · simp [hk]
    · simp [hk, Ne.symm hk, find?]
  | (k', w) :: l => by
    have ih := find?_insert k l
    rw [Assoc.insert]
    split
    · rename_i hk'
      rw [find?, find?, ih]
      by_cases hk : k = key
      · simp [hk, hk']
      · simp [hk]
    rename_i hk'
    by_cases hk : k = key
    · subst hk
      split <;> simp [find?]
    split
    · rename_i he
      subst he
      simp [find?, Ne.symm hk]
    rename_i hne
    rw [find?]
    by_cases hlt : key < k
    · rw [if_pos hlt]
    -- both searches stop before `key`
    have hkk : k < k' := lt_of_le_of_lt (not_lt.mp hlt) (lt_of_le_of_ne (not_lt.mp hk') (Ne.symm hne))
    rw [if_neg hlt, if_neg (Ne.symm hk), find?, if_neg (not_lt_of_gt hkk), if_neg (ne_of_gt hkk)]

theorem length_insert : ∀ l : List (κ × β),
    (Assoc.insert key v l).length = if (find? key l).isSome then l.length else l.length + 1
  | [] => by simp [Assoc.insert, find?]
  | (k, w) :: l => by
    rw [Assoc.insert, find?]
    split
    · rw [length_cons, length_insert l]
      split <;> simp
    · split <;> simp

/-! Erasure. -/

theorem erase_eq_filter : ∀ {l : List (κ × β)}, Ascending l → Assoc.erase key l = l.filter fun kv => decide (kv.1 ≠ key)
  | [], _ => rfl
  | (k, w) :: l, h => by
    rw [Assoc.erase]
    split
    · next hk => rw [erase_eq_filter h.tail, filter_cons_of_pos (by simpa using ne_of_lt hk)]
    next hk =>
    -- past the scan every key is another one
    have hrest : (l.filter fun kv => decide (kv.1 ≠ key)) = l := filter_eq_self.mpr fun a ha =>
      decide_eq_true (ne_of_gt ((not_lt.mp hk).trans_lt (h.head_lt ha)))
    split
    · next he => rw [filter_cons_of_neg (by simpa using he), hrest]
    · next hne => rw [filter_cons_of_pos (by simpa using hne), hrest]

theorem erase (h : Ascending l) : Ascending (Assoc.erase key l) := by
  rw [h.erase_eq_filter]
  exact h.filter _

theorem find?_erase (k : κ) (h : Ascending l) : find? k (Assoc.erase key l) = if k = key then none else find? k l := by
  rw [h.erase_eq_filter, h.find?_filter fun k => decide (k ≠ key)]
  by_cases hk : k = key <;> simp [hk]

theorem length_erase : ∀ l : List (κ × β),
    (Assoc.erase key l).length = if (find? key l).isSome then l.length - 1 else l.length
  | [] => by simp [Assoc.erase, find?]
  | (k, w) :: l => by
    rw [Assoc.erase, find?]
    split
    · rw [length_cons, length_erase l]
      split
      · rename_i hs
        have hne : l ≠ [] := by rintro rfl; simp [find?] at hs
        have := length_pos_of_ne_nil hne
        simp only [length_cons]
        omega
      · rfl
    · split <;> simp

/-! Merge. -/

/-- What the scan over `right` leaves at the head is not below `k`. -/
theorem not_lt_of_dropWhile {right rest : List (κ × β)} {k : κ}
    (hd : (right.dropWhile fun kv => kv.1 < k) = a :: rest) : ¬ a.1 < k := by
  have hne : (right.dropWhile fun kv => decide (kv.1 < k)) ≠ [] := by simp [hd]
  have := head_dropWhile_not (fun kv : κ × β => decide (kv.1 < k)) hne
  simpa [hd] using this

theorem mem_merge : ∀ {left right : List (κ × β)} {a : κ × β}, a ∈ Assoc.merge left right → a ∈ left ∨ a ∈ right
  | [], _, _, h => .inr h
  | (k, v) :: left, right, a, h => by
    rw [Assoc.merge, mem_append] at h
    rcases h with h | h
    · exact .inr ((takeWhile_sublist _).subset h)
    have hdrop : (right.dropWhile fun kv => kv.1 < k) ⊆ right := (dropWhile_sublist _).subset
    split at h
    · exact (mem_cons.mp h).elim (fun h => .inl (h ▸ mem_cons_self)) fun h =>
        (mem_merge h).imp (mem_cons_of_mem _) fun h => absurd h not_mem_nil
    next k' v' rest hd =>
    rw [hd] at hdrop
    split at h
    · exact (mem_cons.mp h).elim (fun h => .inr (hdrop (h ▸ mem_cons_self))) fun h =>
        (mem_merge h).imp (mem_cons_of_mem _) fun h => hdrop (mem_cons_of_mem _ h)
    · exact (mem_cons.mp h).elim (fun h => .inl (h ▸ mem_cons_self)) fun h =>
        (mem_merge h).imp (mem_cons_of_mem _) fun h => hdrop h

theorem merge : ∀ {left right : List (κ × β)}, Ascending left → Ascending right → Ascending (Assoc.merge left right)
  | [], right, _, hr => hr
  | (k, v) :: left, right, hl, hr => by
    have htk : Ascending (right.takeWhile fun kv => kv.1 < k) :=
      List.Pairwise.sublist (takeWhile_sublist _) hr
    have hdr : Ascending (right.dropWhile fun kv => kv.1 < k) :=
      List.Pairwise.sublist (dropWhile_sublist _) hr
    rw [Assoc.merge]
    -- everything after the scanned keys is at `k` or above
    have build : ∀ {a : κ × β} {m : List (κ × β)}, a.1 = k → Ascending m → (∀ b ∈ m, k < b.1) →
        Ascending ((right.takeWhile fun kv => kv.1 < k) ++ a :: m) := by
      intro a m ha hm hb
      refine pairwise_append.mpr ⟨htk, pairwise_cons.mpr ⟨fun b hbm => ?_, hm⟩, ?_⟩
      · rw [ha]
        exact hb b hbm
      intro x hx y hy
      have hxk : x.1 < k := by simpa using mem_takeWhile_imp hx
      rcases mem_cons.mp hy with rfl | hy
      · rw [ha]
        exact hxk
      · exact hxk.trans (hb y hy)
    split
    · refine build rfl (merge hl.tail .nil) fun b hb => ?_
      exact (mem_merge hb).elim (fun hb => hl.head_lt hb) fun hb => absurd hb not_mem_nil
    rename_i k' v' rest hd
    have hk' : ¬ k' < k := not_lt_of_dropWhile hd
    rw [hd] at hdr
    split
    · rename_i he
      exact build he (merge hl.tail hdr.tail) fun b hb =>
        (mem_merge hb).elim (fun hb => hl.head_lt hb) fun hb => he ▸ hdr.head_lt hb
    rename_i hne
    have hlt : k < k' := lt_of_le_of_ne (not_lt.mp hk') (Ne.symm hne)
    refine build rfl (merge hl.tail hdr) fun b hb => ?_
    rcases mem_merge hb with hb | hb
    · exact hl.head_lt hb
    rcases mem_cons.mp hb with rfl | hb
    · exact hlt
    · exact hlt.trans (hdr.head_lt hb)

/-- What a merge finds is the right list's value, or the left one's. -/
theorem find?_merge : ∀ {left right : List (κ × β)}, Ascending left → Ascending right → ∀ q : κ,
    find? q (Assoc.merge left right) = (find? q right).or (find? q left)
  | [], right, _, _, q => by simp [Assoc.merge, find?]
  | (k, v) :: left, right, hl, hr, q => by
    have hmerge := hl.merge hr
    have hdr : Ascending (right.dropWhile fun kv => kv.1 < k) := List.Pairwise.sublist (dropWhile_sublist _) hr
    -- the scanned part of the right list stands before both
    have hright : find? q right =
        (find? q (right.takeWhile fun kv => kv.1 < k)).or (find? q (right.dropWhile fun kv => kv.1 < k)) := by
      rw [← find?_append (by rwa [takeWhile_append_dropWhile]), takeWhile_append_dropWhile]
    rw [Assoc.merge] at hmerge ⊢
    rw [hmerge.find?_append, hright, Option.or_assoc]
    have htail := (pairwise_append.mp hmerge).2.1
    cases hd : right.dropWhile fun kv => decide (kv.1 < k) with
    | nil =>
      rw [hd] at htail
      rw [find?_cons htail, find?_merge hl.tail .nil, hl.find?_cons]
      simp [find?]
    | cons b rest =>
      obtain ⟨k', v'⟩ := b
      rw [hd] at hdr htail
      simp only at htail ⊢
      by_cases he : k' = k
      · subst he
        rw [if_pos rfl] at htail ⊢
        rw [find?_cons htail, hdr.find?_cons, hl.find?_cons, find?_merge hl.tail hdr.tail]
        split <;> simp
      rw [if_neg he] at htail ⊢
      rw [find?_cons htail, hl.find?_cons, find?_merge hl.tail hdr]
      by_cases hq : q = k
      · rw [if_pos hq, if_pos hq, hq, find?, if_neg (not_lt_of_dropWhile hd), if_neg he, Option.none_or]
      · rw [if_neg hq, if_neg hq]

theorem find?_foldl_insert (k : κ) : ∀ {m : List (κ × β)}, Ascending m → ∀ l : List (κ × β),
    find? k (m.foldl (fun acc kv => Assoc.insert kv.1 kv.2 acc) l) = (find? k m).or (find? k l)
  | [], _, l => rfl
  | (k', v) :: m, h, l => by
    rw [foldl_cons, find?_foldl_insert k h.tail, find?_insert, h.find?_cons]
    by_cases hk : k = k'
    · subst hk
      simp [h.find?_tail (lt_irrefl _)]
    · simp [hk]

theorem foldl_insert (m : List (κ × β)) : ∀ {l : List (κ × β)}, Ascending l →
    Ascending (m.foldl (fun acc kv => Assoc.insert kv.1 kv.2 acc) l) := by
  induction m with
  | nil => exact fun h => h
  | cons a m ih => exact fun h => ih h.insert

/-- Merging is inserting the right list's entries one by one. -/
theorem merge_eq_foldl (hl : Ascending l) (hm : Ascending m) :
    Assoc.merge l m = m.foldl (fun acc kv => Assoc.insert kv.1 kv.2 acc) l :=
  (hl.merge hm).ext (foldl_insert m hl) fun k => by rw [find?_merge hl hm, find?_foldl_insert k hm]

theorem length_merge_le (hl : Ascending l) (hm : Ascending m) : (Assoc.merge l m).length ≤ l.length + m.length := by
  have hfold : ∀ m l : List (κ × β),
      (m.foldl (fun acc kv => Assoc.insert kv.1 kv.2 acc) l).length ≤ l.length + m.length := by
    intro m
    induction m with
    | nil => exact fun _ => le_refl _
    | cons a m ih =>
      intro l
      have hle := ih (Assoc.insert a.1 a.2 l)
      rw [length_insert] at hle
      simp only [foldl_cons, length_cons]
      split at hle <;> omega
  rw [merge_eq_foldl hl hm]
  exact hfold m l

/-- A merge has one more entry for each key that was not there. -/
theorem length_merge (hl : Ascending l) (hm : Ascending m) : ((Assoc.merge l m).length : Int) =
    m.foldl (fun (c : Int) kv => if (find? kv.1 l).isSome then c else c + 1) l.length := by
  have hcount : ∀ {m : List (κ × β)}, Ascending m → ∀ l' : List (κ × β),
      (∀ kv ∈ m, (find? kv.1 l').isSome = (find? kv.1 l).isSome) →
      ((m.foldl (fun acc kv => Assoc.insert kv.1 kv.2 acc) l').length : Int) =
        m.foldl (fun (c : Int) kv => if (find? kv.1 l).isSome then c else c + 1) l'.length := by
    intro m
    induction m with
    | nil => exact fun _ _ _ => rfl
    | cons a m ih =>
      intro h l' hsame
      rw [foldl_cons, foldl_cons, ih h.tail]
      · rw [length_insert, hsame a mem_cons_self]
        split <;> simp
      intro kv hkv
      rw [find?_insert, if_neg (ne_of_gt (h.head_lt hkv))]
      exact hsame kv (mem_cons_of_mem _ hkv)
  rw [merge_eq_foldl hl hm]
  exact hcount hm l fun _ _ => rfl

end Ascending

end Ratel.Lib
