import Ratel.Encoding
import Mathlib.Data.Finset.Sort

/- Sets of functional dependencies of the optimizer. A dependency has a determinant and dependants,
   and is strict or lax; an equivalence says that its columns are equal in each row. A set keeps one
   key, strict or lax, which the operations try to reduce. The loops rewrite the list of dependencies
   in place and start again whenever a closure grows; here each of them is a function on the list. -/
namespace Ratel.Opt

abbrev ColumnID := Nat
abbrev ColSet := Finset ColumnID

/-- The columns in the order in which `Next` visits them. -/
def visited (s : ColSet) : List ColumnID := s.sort (· ≤ ·)

/-- `funcDep`. A constant is strict, and an equivalence has one determinant. -/
structure FuncDep where
  fromCols : ColSet
  toCols : ColSet
  strict : Bool
  equiv : Bool
  lax_from : strict = false → fromCols ≠ ∅
  equiv_from : equiv = true → fromCols.card = 1
deriving DecidableEq

inductive KeyType
  | noKey
  | laxKey
  | strictKey
deriving DecidableEq, Repr

/-- `FuncDepSet`. A lax key is not empty. -/
structure FuncDepSet where
  deps : List FuncDep
  hasKey : KeyType
  key : ColSet
  lax_key : hasKey = .laxKey → key ≠ ∅
deriving DecidableEq

namespace FuncDep

def isConstant (fd : FuncDep) : Bool := decide (fd.fromCols = ∅)

def implies (fd other : FuncDep) : Bool :=
  decide (fd.fromCols ⊆ other.fromCols ∧ other.toCols ⊆ fd.toCols) && (fd.strict || !other.strict) &&
    (fd.equiv || !other.equiv)

def withTo (fd : FuncDep) (cols : ColSet) : FuncDep := { fd with toCols := cols }

/-- `removeToCols`, `none` if no dependant is left. -/
def removeToCols (fd : FuncDep) (remove : ColSet) : Option FuncDep :=
  if fd.toCols \ remove = ∅ then none else some (fd.withTo (fd.toCols \ remove))

/-- `removeFromCols`, `none` if no determinant is left. -/
def removeFromCols (fd : FuncDep) (remove : ColSet) : Option FuncDep :=
  if h : fd.fromCols \ remove = ∅ then none
  else some { fd with
    fromCols := fd.fromCols \ remove
    lax_from := fun _ => h
    equiv_from := fun he => le_antisymm ((Finset.card_le_card Finset.sdiff_subset).trans (fd.equiv_from he).le)
      (Finset.card_pos.mpr (Finset.nonempty_iff_ne_empty.mpr h)) }

/-- The dependency `() --> cols`. -/
def constant (cols : ColSet) : FuncDep := ⟨∅, cols, true, false, nofun, nofun⟩

/-- The dependency `(col) == cols`. -/
def equivalence (col : ColumnID) (cols : ColSet) : FuncDep :=
  ⟨{col}, cols, true, true, nofun, fun _ => Finset.card_singleton col⟩

end FuncDep

/-! Closures. -/

/-- Some columns that the dependency brings to a closure are missing there. -/
def FuncDep.extends (fd : FuncDep) (cols : ColSet) : Bool := decide (fd.fromCols ⊆ cols ∧ ¬ fd.toCols ⊆ cols)

/-- The dependencies whose dependants are not all in the closure yet. -/
def missing (deps : List FuncDep) (cols : ColSet) : Nat := (deps.filter fun fd => ¬ fd.toCols ⊆ cols).length

theorem missing_union_lt {deps : List FuncDep} {fd : FuncDep} {cols : ColSet} (hmem : fd ∈ deps)
    (h : fd.extends cols = true) : missing deps (cols ∪ fd.toCols) < missing deps cols := by
  unfold missing
  have hsub : (deps.filter fun d => ¬ d.toCols ⊆ cols ∪ fd.toCols) =
      (deps.filter fun d => ¬ d.toCols ⊆ cols).filter fun d => ¬ d.toCols ⊆ cols ∪ fd.toCols := by
    rw [List.filter_filter]
    refine List.filter_congr fun d _ => ?_
    by_cases hd : d.toCols ⊆ cols
    · simp [hd.trans Finset.subset_union_left]
    · simp [hd]
  rw [hsub]
  refine List.length_filter_lt_length_iff_exists.mpr ⟨fd, ?_, by simp⟩
  exact List.mem_filter.mpr ⟨hmem, by simpa using (of_decide_eq_true h).2⟩

/-- The first strict dependency that the closure does not contain. -/
def nextStrict (deps : List FuncDep) (cols : ColSet) : Option FuncDep :=
  deps.find? fun fd => fd.strict && fd.extends cols

theorem nextStrict_some {deps : List FuncDep} {fd : FuncDep} {cols : ColSet} (h : nextStrict deps cols = some fd) :
    fd ∈ deps ∧ fd.strict = true ∧ fd.extends cols = true := by
  have hp := List.find?_some h
  exact ⟨List.mem_of_find?_eq_some h, (Bool.and_eq_true _ _).mp hp⟩

def computeClosure (deps : List FuncDep) (cols : ColSet) : ColSet :=
  match _h : nextStrict deps cols with
  | none => cols
  | some fd => computeClosure deps (cols ∪ fd.toCols)
termination_by missing deps cols
decreasing_by exact missing_union_lt (nextStrict_some _h).1 (nextStrict_some _h).2.2

def computeEquivClosure (deps : List FuncDep) (cols : ColSet) : ColSet :=
  deps.foldl (fun cols fd => if fd.equiv && fd.extends cols then cols ∪ fd.toCols else cols) cols

/-- The loop of `inClosureOf` over strict dependencies. -/
def strictReaches (deps : List FuncDep) (cols inCols : ColSet) : Bool :=
  match _h : nextStrict deps inCols with
  | none => false
  | some fd => if cols ⊆ inCols ∪ fd.toCols then true else strictReaches deps cols (inCols ∪ fd.toCols)
termination_by missing deps inCols
decreasing_by exact missing_union_lt (nextStrict_some _h).1 (nextStrict_some _h).2.2

/-- The loop of `inClosureOf` over all dependencies, from index `i` on: one lax step from `inCols`,
    which only equivalences extend. `none` if it has reached all of `cols`. -/
def laxReach (deps : List FuncDep) (cols : ColSet) (i : Nat) (inCols laxIn : ColSet) : Option ColSet :=
  if h : i < deps.length then
    let fd := deps.get ⟨i, h⟩
    if _hext : fd.extends inCols then
      if cols ⊆ laxIn ∪ fd.toCols then none
      else if fd.equiv then laxReach deps cols 0 (inCols ∪ fd.toCols) (laxIn ∪ fd.toCols)
      else laxReach deps cols (i + 1) inCols (laxIn ∪ fd.toCols)
    else laxReach deps cols (i + 1) inCols laxIn
  else some laxIn
termination_by (missing deps inCols, deps.length - i)
decreasing_by
  · exact Prod.Lex.left _ _ (missing_union_lt (List.get_mem _ _) _hext)
  · exact Prod.Lex.right _ (by omega)
  · exact Prod.Lex.right _ (by omega)

def inClosureOf (deps : List FuncDep) (cols inCols : ColSet) (strict : Bool) : Bool :=
  if cols ⊆ inCols then true
  else if strict then strictReaches deps cols inCols
  else match laxReach deps cols 0 inCols inCols with
    | none => true
    | some laxIn => strictReaches deps cols laxIn

/-- One round of `ReduceCols`: column `i` goes if the others determine it. -/
def reduceCol (deps : List FuncDep) (cols : ColSet) (i : ColumnID) : ColSet :=
  if !deps.any fun fd => decide (i ∈ fd.toCols) then cols
  else if inClosureOf deps {i} (cols.erase i) true then cols.erase i
  else cols

def reduceCols (deps : List FuncDep) (cols : ColSet) : ColSet := (visited cols).foldl (reduceCol deps) cols

namespace FuncDepSet

def colSet (f : FuncDepSet) : ColSet :=
  let cols := f.deps.foldl (fun cols fd => cols ∪ fd.fromCols ∪ fd.toCols) ∅
  if f.hasKey = .noKey then cols else cols ∪ f.key

def hasMax1Row (f : FuncDepSet) : Bool := decide (f.hasKey = .strictKey ∧ f.key = ∅)

def colsAreKey (f : FuncDepSet) (cols : ColSet) (typ : KeyType) : Bool :=
  match f.hasKey with
  | .strictKey => inClosureOf f.deps f.key cols (decide (typ = .strictKey))
  | .laxKey => if typ = .strictKey then false else decide (f.key ⊆ computeEquivClosure f.deps cols)
  | .noKey => false

def colsAreStrictKey (f : FuncDepSet) (cols : ColSet) : Bool := f.colsAreKey cols .strictKey
def colsAreLaxKey (f : FuncDepSet) (cols : ColSet) : Bool := f.colsAreKey cols .laxKey

def inClosureOf (f : FuncDepSet) (cols inCols : ColSet) : Bool := Opt.inClosureOf f.deps cols inCols true

/-! Keys. -/

/-- `setKey`: an empty lax key is strict. -/
def setKey (f : FuncDepSet) (key : ColSet) (typ : KeyType) : FuncDepSet where
  deps := f.deps
  hasKey := if typ = .laxKey ∧ key = ∅ then .strictKey else typ
  key := key
  lax_key := by
    split
    · nofun
    · next h => exact fun ht hk => h ⟨ht, hk⟩

def clearKey (f : FuncDepSet) : FuncDepSet := f.setKey ∅ .noKey

/-- `tryToReduceKey` without columns that are known not to be NULL: only a strict key is reduced. -/
def reduceStrictKey (f : FuncDepSet) : FuncDepSet :=
  if h : f.hasKey = .strictKey then
    { f with key := reduceCols f.deps f.key, lax_key := fun hl => absurd (h.symm.trans hl) (by decide) }
  else f

/-! Adding dependencies. -/

/-- What is left of a dependency beside the constants `cols`. -/
def besideConstants (cols : ColSet) (fd : FuncDep) : Option FuncDep :=
  if fd.equiv then some fd
  else if fd.strict then (fd.removeFromCols cols).bind (·.removeToCols cols)
  else fd.removeToCols cols

def addConstants (f : FuncDepSet) (cols : ColSet) : FuncDepSet :=
  if cols = ∅ then f
  else
    let cols := computeClosure f.deps cols
    let deps := match f.deps with
      | [] => [FuncDep.constant cols]
      | fd :: rest =>
        if fd.isConstant then fd.withTo cols :: rest.filterMap (besideConstants cols)
        else FuncDep.constant cols :: (fd :: rest).filterMap (besideConstants cols)
    { f with deps := deps }.reduceStrictKey

/-- A dependency beside the new equivalence of `equiv`. -/
def besideEquivalence (equiv : ColSet) (fd : FuncDep) : Option FuncDep :=
  if fd.isConstant then some fd
  else if fd.fromCols ⊆ equiv then
    if fd.equiv then some (fd.withTo ((fd.toCols ∪ equiv) \ fd.fromCols)) else fd.removeToCols equiv
  else some fd

def addEquivalency (f : FuncDepSet) (equiv : ColSet) : FuncDepSet :=
  let equiv := computeEquivClosure f.deps equiv
  let addConst := f.deps.any fun fd =>
    fd.isConstant && decide ((fd.toCols ∩ equiv).Nonempty ∧ ¬ equiv ⊆ fd.toCols)
  let found := f.deps.foldl
    (fun found fd => if !fd.isConstant && decide (fd.fromCols ⊆ equiv) && fd.equiv then found ∪ fd.fromCols else found) ∅
  let f := { f with deps := f.deps.filterMap (besideEquivalence equiv) }
  let f := if addConst then f.addConstants equiv else f
  let f := { f with deps := f.deps ++ (visited (equiv \ found)).map fun id => FuncDep.equivalence id (equiv.erase id) }
  f.reduceStrictKey

/-- The loop of `addDependency`, with whether the new dependency is in the set already. -/
def mergeDep (newFD : FuncDep) : Bool → List FuncDep → List FuncDep × Bool
  | added, [] => ([], added)
  | added, fd :: rest =>
    if newFD.implies fd then
      if added then mergeDep newFD added rest
      else (mergeDep newFD true rest).map (newFD :: ·) id
    else if !added then
      if fd.implies newFD then (mergeDep newFD true rest).map (fd :: ·) id
      else if fd.strict = newFD.strict ∧ fd.equiv = newFD.equiv ∧ fd.fromCols = newFD.fromCols then
        (mergeDep newFD true rest).map (fd.withTo (fd.toCols ∪ newFD.toCols) :: ·) id
      else (mergeDep newFD false rest).map (fd :: ·) id
    else (mergeDep newFD added rest).map (fd :: ·) id

/-- `addDependency`; the error is its assertion. -/
def addDependency (f : FuncDepSet) (fromCols toCols : ColSet) (strict equiv : Bool) : Except Err FuncDepSet :=
  if toCols ⊆ fromCols then .ok f
  else if equiv then .ok (f.addEquivalency (fromCols ∪ toCols))
  else
    let fromCols := if strict then reduceCols f.deps fromCols else fromCols
    if h : fromCols = ∅ then
      if !strict then errorf "expected constant FD to be strict: %s" else .ok (f.addConstants toCols)
    else
      let newFD : FuncDep := ⟨fromCols, toCols \ fromCols, strict, false, fun _ => h, nofun⟩
      let merged := mergeDep newFD false f.deps
      .ok { f with deps := if merged.2 then merged.1 else merged.1 ++ [newFD] }

def addStrictKey (f : FuncDepSet) (keyCols allCols : ColSet) : Except Err FuncDepSet := do
  if ¬ keyCols ⊆ allCols then errorf "allCols does not include keyCols"
  else
    let keyCols := reduceCols f.deps keyCols
    let f ← f.addDependency keyCols allCols true false
    let f := f.reduceStrictKey
    if f.hasKey ≠ .strictKey ∨ keyCols.card < f.key.card then return f.setKey keyCols .strictKey
    else return f

def addLaxKey (f : FuncDepSet) (keyCols allCols : ColSet) : Except Err FuncDepSet := do
  if ¬ keyCols ⊆ allCols then errorf "allCols does not include keyCols"
  else if keyCols = ∅ then errorf "lax key cannot be empty"
  else
    let f ← f.addDependency keyCols allCols false false
    if f.hasKey = .noKey ∨ (f.hasKey = .laxKey ∧ keyCols.card < f.key.card) then return f.setKey keyCols .laxKey
    else return f

def tryToReduceKey (f : FuncDepSet) (notNullCols : ColSet) : Except Err FuncDepSet :=
  match f.hasKey with
  | .laxKey =>
    if notNullCols = ∅ then .ok f
    else
      let nullableKeyCols := f.key \ notNullCols
      if h : nullableKeyCols = ∅ then f.addStrictKey f.key f.colSet
      else .ok { f with
        key := reduceCols f.deps f.key ∪ nullableKeyCols
        lax_key := fun _ he => h (Finset.union_eq_empty.mp he).2 }
  | .strictKey => .ok f.reduceStrictKey
  | .noKey => .ok f

/-- `AddEquivalency`. -/
def addEquivalencyOf (f : FuncDepSet) (a b : ColumnID) : FuncDepSet :=
  if a = b then f else f.addEquivalency {a, b}

def addSynthesizedCol (f : FuncDepSet) (fromCols : ColSet) (col : ColumnID) : Except Err FuncDepSet := do
  if col ∈ fromCols then errorf "synthesized column cannot depend upon itself"
  else return (← f.addDependency fromCols {col} true false).reduceStrictKey

def addAll (f : FuncDepSet) (deps : List FuncDep) : Except Err FuncDepSet :=
  deps.foldlM (fun f fd => f.addDependency fd.fromCols fd.toCols fd.strict fd.equiv) f

def addFrom (f fdset : FuncDepSet) : Except Err FuncDepSet := f.addAll fdset.deps

def makeNotNull (f : FuncDepSet) (notNullCols : ColSet) : Except Err FuncDepSet := do
  let laxFDs := f.deps.filter fun fd => !fd.strict && decide (fd.fromCols ⊆ notNullCols)
  let f ← laxFDs.foldlM (fun f fd => f.addDependency fd.fromCols fd.toCols true false) f
  f.tryToReduceKey notNullCols

def ensureKeyClosure (f : FuncDepSet) (cols : ColSet) : Except Err FuncDepSet :=
  if f.hasKey = .noKey then .ok f
  else
    let closure := computeClosure f.deps f.key
    if cols ⊆ closure then .ok f
    else f.addDependency f.key (cols \ closure) (decide (f.hasKey = .strictKey)) false

/-! Projection. -/

/-- The equivalence that `MakeMax1Row` keeps of a dependency. -/
def withinCols (cols : ColSet) (fd : FuncDep) : Option FuncDep :=
  if h : fd.equiv then
    -- an equivalence has a determinant, so the assertion that there is one does not fail
    let fromCol := fd.fromCols.min' (Finset.card_pos.mp ((fd.equiv_from h).symm ▸ Nat.one_pos))
    if fromCol ∈ cols ∧ (fd.toCols ∩ cols).Nonempty then
      some ⟨fd.fromCols, fd.toCols ∩ cols, true, true, nofun, fun _ => fd.equiv_from h⟩
    else none
  else none

/-- The constant is put first, and what was first behind the others. -/
def constantFirst (cols : ColSet) : List FuncDep → List FuncDep
  | [] => [FuncDep.constant cols]
  | fd :: rest => FuncDep.constant cols :: rest ++ [fd]

def makeMax1Row (f : FuncDepSet) (cols : ColSet) : FuncDepSet :=
  let deps := f.deps.filterMap (withinCols cols)
  { f with deps := if cols = ∅ then deps else constantFirst cols deps }.setKey ∅ .strictKey

/-- The key of `ProjectCols`: only projected columns, before any dependency is removed. -/
def projectKey (f : FuncDepSet) (cols : ColSet) : FuncDepSet :=
  if f.hasKey ≠ .noKey ∧ ¬ f.key ⊆ cols then
    if f.hasKey = .strictKey ∧ f.colsAreStrictKey cols then (f.setKey cols .strictKey).reduceStrictKey
    else if f.colsAreLaxKey cols then (f.setKey cols .laxKey).reduceStrictKey
    else f.clearKey
  else f

/-- The first pass of `ProjectCols` over the dependencies `rest`, the others being `done`: dependants
    that are not projected are replaced by their closures. -/
def projectClosures (cols : ColSet) : List FuncDep → List FuncDep → List FuncDep
  | done, [] => done
  | done, fd :: rest =>
    if ¬ fd.toCols ⊆ cols ∧ fd.equiv = false then
      projectClosures cols (done ++ [fd.withTo (computeClosure (done ++ fd :: rest) fd.toCols \ fd.fromCols)]) rest
    else projectClosures cols (done ++ [fd]) rest

/-- The dependants of the last constant before the first pass. -/
def constantCols (deps : List FuncDep) : ColSet :=
  deps.foldl (fun cols fd => if fd.isConstant then fd.toCols else cols) ∅

/-- Determinants that are not projected. -/
def unprojected (cols : ColSet) (deps : List FuncDep) : ColSet :=
  deps.foldl (fun det fd => if !fd.equiv && decide (¬ fd.fromCols ⊆ cols) then (det ∪ fd.fromCols) \ cols else det) ∅

/-- Columns with an equivalent among the projected ones. -/
def replaceable (cols : ColSet) (deps : List FuncDep) : ColSet :=
  deps.foldl (fun eq fd => if fd.equiv && decide (fd.toCols ∩ cols).Nonempty then eq ∪ fd.fromCols else eq) ∅

/-- The entry of `makeEquivMap` for a column of `fromCols`: the first equivalent column of `toCols`. -/
def equivCol (deps : List FuncDep) (fromCols toCols : ColSet) (c : ColumnID) : Option ColumnID :=
  if c ∈ fromCols then (visited (computeEquivClosure deps {c} ∩ toCols)).head? else none

/-- What the second pass of `ProjectCols` does with a dependency: it is kept, its determinant is
    replaced by projected columns, or it is dropped. -/
inductive Projected
  | keep (fd : FuncDep)
  | replace (fd : FuncDep) (fromCols : ColSet)
  | drop

/-- The determinant, its columns that are not projected replaced. -/
def projectDet (equivMap : ColumnID → Option ColumnID) (cols : ColSet) (fd : FuncDep) : Projected :=
  if fd.fromCols ⊆ cols then .keep fd
  else if fd.equiv then .drop
  else
    let beforeCols := fd.fromCols \ cols
    match (visited beforeCols).mapM equivMap with
    | none => .drop
    | some afterCols => .replace fd ((fd.fromCols ∪ afterCols.toFinset) \ beforeCols)

def projectDep (equivMap : ColumnID → Option ColumnID) (constCols cols : ColSet) (fd : FuncDep) : Projected :=
  if ¬ fd.toCols ⊆ cols then
    let toCols := fd.toCols ∩ cols
    let toCols := if !fd.isConstant && !fd.equiv then toCols \ constCols else toCols
    match (fd.withTo toCols).removeToCols fd.fromCols with
    | none => .drop
    | some fd => projectDet equivMap cols fd
  else projectDet equivMap cols fd

def Projected.kept : Projected → Option FuncDep
  | .keep fd => some fd
  | _ => none

/-- The determinant, the dependants and whether the dependency is strict. -/
def Projected.replaced : Projected → Option (ColSet × ColSet × Bool)
  | .replace fd fromCols => some (fromCols, fd.toCols, fd.strict)
  | _ => none

def projectCols (f : FuncDepSet) (cols : ColSet) : Except Err FuncDepSet := do
  let f := f.projectKey cols
  if f.hasMax1Row then return f.makeMax1Row cols
  else
    let constCols := constantCols f.deps
    let detCols := unprojected cols f.deps ∩ replaceable cols f.deps
    let f := { f with deps := projectClosures cols [] f.deps }
    let equivMap := equivCol f.deps detCols cols
    let f := if constCols = ∅ then f else f.addConstants constCols
    let projected := f.deps.map (projectDep equivMap constCols cols)
    let newFDs := projected.filterMap Projected.replaced
    let f := { f with deps := projected.filterMap Projected.kept }
    let f ← newFDs.foldlM (fun f fd => f.addDependency fd.1 fd.2.1 fd.2.2 false) f
    f.ensureKeyClosure cols

/-! Joins. -/

def makeProduct (f inner : FuncDepSet) : Except Err FuncDepSet := do
  let f ← inner.deps.foldlM (fun f fd =>
    if fd.isConstant then f.addDependency fd.fromCols fd.toCols fd.strict fd.equiv
    else .ok { f with deps := f.deps ++ [fd] }) f
  if f.hasKey ≠ .noKey ∧ inner.hasKey ≠ .noKey then
    let typ := if f.hasKey = .strictKey ∧ inner.hasKey = .strictKey then KeyType.strictKey else .laxKey
    return f.setKey (f.key ∪ inner.key) typ
  else return f.clearKey

/-- The state of the loop of `nullExtendRightRows`: the list as it is rewritten in place, how many
    dependencies at its front are kept, and the determinants and dependants of new lax ones. -/
structure Extending where
  deps : List FuncDep
  n : Nat
  newFDs : List (ColSet × ColSet)

/-- What becomes of one dependency: how it stands in the list, whether it is kept, and new ones.
    Whether a determinant from both sides is a key is asked of the list as it is so far. -/
def nullExtendDep (isKey : ColSet → Bool) (rightCols notNullInputCols : ColSet) (fd : FuncDep) :
    FuncDep × Bool × List (ColSet × ColSet) :=
  if fd.isConstant then
    if (fd.toCols ∩ rightCols).Nonempty then
      let fd := fd.withTo (fd.toCols \ (fd.toCols ∩ rightCols))
      (fd, decide (fd.toCols ≠ ∅), [])
    else (fd, true, [])
  else if (fd.fromCols ∩ rightCols).Nonempty then
    if ¬ fd.fromCols ⊆ rightCols then (fd, isKey fd.fromCols, [])
    else
      let laxCols := fd.toCols \ rightCols
      let newFDs := if fd.toCols ⊆ rightCols then [] else [(fd.fromCols, laxCols)]
      let fd := fd.withTo (fd.toCols \ laxCols)
      if laxCols.Nonempty ∧ fd.toCols = ∅ then (fd, false, newFDs)
      else if fd.strict && !fd.equiv && decide (fd.fromCols ∩ notNullInputCols = ∅) then
        (fd, false, newFDs ++ [(fd.fromCols, fd.toCols)])
      else (fd, true, newFDs)
  else
    let fd := fd.withTo (fd.toCols \ rightCols)
    (fd, decide (fd.toCols ≠ ∅), [])

/-- One round of the loop, for the dependency at index `i`. -/
def nullExtendStep (f : FuncDepSet) (rightCols notNullInputCols : ColSet) (st : Extending) (i : Nat) : Extending :=
  match st.deps[i]? with
  | none => st
  | some fd =>
    let out := nullExtendDep { f with deps := st.deps }.colsAreStrictKey rightCols notNullInputCols fd
    let deps := st.deps.set i out.1
    if out.2.1 then ⟨deps.set st.n out.1, st.n + 1, st.newFDs ++ out.2.2⟩ else ⟨deps, st.n, st.newFDs ++ out.2.2⟩

def nullExtendRightRows (f : FuncDepSet) (rightCols notNullInputCols : ColSet) : Except Err FuncDepSet :=
  let st := (List.range f.deps.length).foldl (nullExtendStep f rightCols notNullInputCols) ⟨f.deps, 0, []⟩
  st.newFDs.foldlM (fun f fd => f.addDependency fd.1 fd.2 false false) { f with deps := st.deps.take st.n }

/-- Whether the left columns are a key of the product with the dependencies of the join filters. -/
def leftColsAreInnerJoinKey (f leftFDs filtersFDs : FuncDepSet) (leftCols : ColSet) : Except Err Bool :=
  if leftFDs.hasKey = .strictKey then (f.addFrom filtersFDs).map (·.colsAreStrictKey leftCols) else .ok false

/-- The key of `MakeLeftOuter`: that of the left side, or else that of the product. -/
def leftOuterKey (f product leftFDs : FuncDepSet) (innerJoinKey : Bool) (notNullCols : ColSet) :
    Except Err FuncDepSet :=
  if leftFDs.hasKey = .strictKey ∧ innerJoinKey then .ok (f.setKey leftFDs.key .strictKey)
  else (f.setKey product.key product.hasKey).tryToReduceKey notNullCols

def makeLeftOuter (f leftFDs filtersFDs : FuncDepSet) (leftCols rightCols notNullInputCols : ColSet) :
    Except Err FuncDepSet := do
  let innerJoinKey ← f.leftColsAreInnerJoinKey leftFDs filtersFDs leftCols
  let g ← f.nullExtendRightRows rightCols notNullInputCols
  let g ← g.leftOuterKey f leftFDs innerJoinKey (leftCols ∩ notNullInputCols)
  let g ← g.ensureKeyClosure (leftCols ∪ rightCols)
  if leftFDs.hasMax1Row then return g.addConstants (computeClosure filtersFDs.deps leftCols ∩ rightCols)
  else return g

/-- The key of the product that `MakeFullOuter` keeps. -/
def fullOuterKey (f : FuncDepSet) (notNullInputCols : ColSet) : FuncDepSet :=
  if f.hasKey = .strictKey then
    if h : f.key = ∅ then { f with hasKey := .noKey, key := ∅, lax_key := nofun }
    else if f.key ∩ notNullInputCols = ∅ then { f with hasKey := .laxKey, lax_key := fun _ => h }
    else f
  else f

def makeFullOuter (f : FuncDepSet) (leftCols rightCols notNullInputCols : ColSet) : Except Err FuncDepSet := do
  let f := f.fullOuterKey notNullInputCols
  let f ← f.nullExtendRightRows leftCols notNullInputCols
  let f ← f.nullExtendRightRows rightCols notNullInputCols
  f.ensureKeyClosure (leftCols ∪ rightCols)

end FuncDepSet

end Ratel.Opt
