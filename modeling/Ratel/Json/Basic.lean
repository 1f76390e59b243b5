import Ratel.Apd
import Ratel.Encoding
import Ratel.Lib.SortedAssoc

/- JSON documents and the operations of `pkg/util/json` on them: key, index and path
   access, `jsonb_set`, removal, concatenation and the `?` family. A document is a
   decoded one (`jsonNull` to `jsonObject`); the lazily decoded `jsonEncoded` has the
   same operations through its decoded form. An object is its list of pairs, which
   the source keeps sorted and unique by key.

   Numbers are `apd.Decimal` values, known here only by their fields: what `apd` does
   with them is a parameter wherever it matters. -/
namespace Ratel

open Ratel.Lib

inductive Scalar
  | null
  | bool (b : Bool)
  | number (d : Decimal)
  | string (s : Bytes)
deriving DecidableEq, Repr

inductive JSON
  | scalar (s : Scalar)
  | array (elems : List JSON)
  | object (pairs : List (Bytes × JSON))
deriving Repr

namespace JSON

/-- Induction over documents: an array or object under its children. -/
@[elab_as_elim, induction_eliminator]
theorem induct {motive : JSON → Prop} (scalar : ∀ s, motive (.scalar s))
    (array : ∀ xs, (∀ x ∈ xs, motive x) → motive (.array xs))
    (object : ∀ kvs, (∀ kv ∈ kvs, motive kv.2) → motive (.object kvs)) (j : JSON) : motive j :=
  @JSON.rec motive (fun xs => ∀ x ∈ xs, motive x) (fun kvs => ∀ kv ∈ kvs, motive kv.2)
    (fun kv => motive kv.2) scalar array object (by simp)
    (fun x xs hx hxs => List.forall_mem_cons.mpr ⟨hx, hxs⟩) (by simp)
    (fun kv kvs hkv hkvs => List.forall_mem_cons.mpr ⟨hkv, hkvs⟩) (fun _ _ h => h) j

mutual

def decEq : (a b : JSON) → Decidable (a = b)
  | .scalar s, .scalar t => decidable_of_iff (s = t) (by simp)
  | .array xs, .array ys => @decidable_of_iff _ (xs = ys) (by simp) (decEqElems xs ys)
  | .object xs, .object ys => @decidable_of_iff _ (xs = ys) (by simp) (decEqPairs xs ys)
  | .scalar _, .array _ => isFalse (by simp)
  | .scalar _, .object _ => isFalse (by simp)
  | .array _, .scalar _ => isFalse (by simp)
  | .array _, .object _ => isFalse (by simp)
  | .object _, .scalar _ => isFalse (by simp)
  | .object _, .array _ => isFalse (by simp)

def decEqElems : (xs ys : List JSON) → Decidable (xs = ys)
  | [], [] => isTrue rfl
  | [], _ :: _ => isFalse (by simp)
  | _ :: _, [] => isFalse (by simp)
  | x :: xs, y :: ys =>
    @decidable_of_iff _ (x = y ∧ xs = ys) (by simp) (@instDecidableAnd _ _ (decEq x y) (decEqElems xs ys))

def decEqPairs : (xs ys : List (Bytes × JSON)) → Decidable (xs = ys)
  | [], [] => isTrue rfl
  | [], _ :: _ => isFalse (by simp)
  | _ :: _, [] => isFalse (by simp)
  | (k, v) :: xs, (l, w) :: ys =>
    @decidable_of_iff _ (k = l ∧ v = w ∧ xs = ys) (by simp [and_assoc])
      (@instDecidableAnd _ _ _ (@instDecidableAnd _ _ (decEq v w) (decEqPairs xs ys)))

end

instance : DecidableEq JSON := decEq

end JSON

/-! `strconv.Atoi`. -/

namespace Strconv

/-- The digit loop of `ParseUint` in base 10 and 64 bits. -/
def parseUintLoop (s : Bytes) (n : Nat) : Bytes → Except Err Nat
  | [] => .ok n
  | c :: rest =>
    if c.toNat < 48 ∨ 57 < c.toNat then errorf "strconv.Atoi: parsing %q: invalid syntax" [.bytes s]
    else
      let n := n * 10 + (c.toNat - 48)
      if 2 ^ 64 ≤ n then errorf "strconv.Atoi: parsing %q: value out of range" [.bytes s]
      else parseUintLoop s n rest

/-- `ParseInt` of the digits after the sign. -/
def parseSigned (s : Bytes) (neg : Bool) (digits : Bytes) : Except Err Int :=
  if digits = [] then errorf "strconv.Atoi: parsing %q: invalid syntax" [.bytes s]
  else do
    let un ← parseUintLoop s 0 digits
    if ¬ neg ∧ 2 ^ 63 ≤ un then errorf "strconv.Atoi: parsing %q: value out of range" [.bytes s]
    else if neg ∧ 2 ^ 63 < un then errorf "strconv.Atoi: parsing %q: value out of range" [.bytes s]
    else return if neg then - (un : Int) else un

def atoi : Bytes → Except Err Int
  | [] => errorf "strconv.Atoi: parsing %q: invalid syntax" [.bytes []]
  | c :: rest =>
    if c = 43 then parseSigned (c :: rest) false rest
    else if c = 45 then parseSigned (c :: rest) true rest
    else parseSigned (c :: rest) false (c :: rest)

end Strconv

open Strconv Assoc

namespace JSON

def isScalar : JSON → Bool
  | scalar _ => true
  | _ => false

def len : JSON → Nat
  | scalar _ => 0
  | array xs => xs.length
  | object kvs => kvs.length

/-! Access. -/

/-- An index counted from the end when negative. -/
def fromEnd (n : Nat) (idx : Int) : Int := if idx < 0 then n + idx else idx

@[simp] theorem fromEnd_natCast (n k : Nat) : fromEnd n k = k := if_neg (by omega)

/-- The element at `idx`, counted from the end when negative. -/
def elemAt? (xs : List JSON) (idx : Int) : Option JSON :=
  let idx := fromEnd xs.length idx
  if 0 ≤ idx then xs[idx.toNat]? else none

def fetchValKey (j : JSON) (key : Bytes) : Option JSON :=
  match j with
  | object kvs => find? key kvs
  | _ => none

/-- `FetchValIdx`; a scalar is its own element 0 and -1. -/
def fetchValIdx (j : JSON) (idx : Int) : Option JSON :=
  match j with
  | scalar s => if idx = 0 ∨ idx = -1 then some (scalar s) else none
  | array xs => elemAt? xs idx
  | object _ => none

def fetchValKeyOrIdx (j : JSON) (key : Bytes) : Option JSON :=
  match j with
  | object _ => j.fetchValKey key
  | array _ =>
    match atoi key with
    | .error _ => none
    | .ok idx => j.fetchValIdx idx
  | scalar _ => none

/-- `FetchPath`, the `#>` operator. -/
def fetchPath : JSON → List Bytes → Option JSON
  | j, [] => some j
  | j, v :: path =>
    match j.fetchValKeyOrIdx v with
    | none => none
    | some next => fetchPath next path

/-! Update. -/

def setKey (key : Bytes) (newVal : JSON) (createMissing : Bool) : List (Bytes × JSON) → List (Bytes × JSON)
  | [] => if createMissing then [(key, newVal)] else []
  | (k, v) :: rest =>
    if k < key then (k, v) :: setKey key newVal createMissing rest
    else if k = key then (key, newVal) :: rest
    else if createMissing then (key, newVal) :: (k, v) :: rest
    else (k, v) :: rest

def setValKeyOrIdx (j : JSON) (key : Bytes) (newVal : JSON) (createMissing : Bool) : Except Err JSON :=
  match j with
  | object kvs => .ok (object (setKey key newVal createMissing kvs))
  | array xs => do
    let idx ← atoi key
    let idx := fromEnd xs.length idx
    if ¬ createMissing ∧ (idx < 0 ∨ xs.length ≤ idx) then return array xs
    else if idx < 0 then return array (newVal :: xs)
    else if xs.length ≤ idx then return array (xs ++ [newVal])
    else return array (xs.set idx.toNat newVal)
  | scalar _ => .ok j

def deepSetLoop : JSON → List Bytes → JSON → Bool → Except Err JSON
  | j, [], _, _ => .ok j
  | j, [key], newVal, createMissing => j.setValKeyOrIdx key newVal createMissing
  | j, key :: path, newVal, createMissing =>
    match j.fetchValKeyOrIdx key with
    | none => .ok j
    | some fetched => do
      let sub ← deepSetLoop fetched path newVal createMissing
      j.setValKeyOrIdx key sub createMissing

/-- `DeepSet`, the `jsonb_set` builtin. -/
def deepSet (j : JSON) (path : List Bytes) (newVal : JSON) (createMissing : Bool) : Except Err JSON :=
  if j.isScalar then errorf "cannot set path in scalar" else deepSetLoop j path newVal createMissing

/-- Whether an array element is the string `s`. -/
def isString (s : Bytes) : JSON → Bool
  | scalar (.string t) => t = s
  | _ => false

/-- `RemoveString`, the `-` operator with a string. -/
def removeString (j : JSON) (s : Bytes) : Except Err JSON :=
  match j with
  | array xs => .ok (array (xs.filter fun x => ! isString s x))
  | object kvs => .ok (object (erase s kvs))
  | scalar _ => errorf "cannot delete from scalar"

def removeIndex (j : JSON) (idx : Int) : Except Err JSON :=
  match j with
  | array xs =>
    let idx := fromEnd xs.length idx
    if idx < 0 ∨ xs.length ≤ idx then .ok (array xs) else .ok (array (xs.eraseIdx idx.toNat))
  | object _ => errorf "cannot delete from object using integer index"
  | scalar _ => errorf "cannot delete from scalar"

def scalarConcat (left other : JSON) : Except Err JSON :=
  match other with
  | array right => .ok (array (left :: right))
  | object _ => errorf "invalid concatenation of jsonb objects"
  | scalar _ => .ok (array [left, other])

/-- `Concat`, the `||` operator. -/
def concat (j other : JSON) : Except Err JSON :=
  match j with
  | scalar _ => scalarConcat j other
  | array left =>
    match other with
    | array right => .ok (array (left ++ right))
    | _ => .ok (array (left ++ [other]))
  | object left =>
    match other with
    | array _ => scalarConcat j other
    | object right => .ok (object (merge left right))
    | scalar _ => errorf "invalid concatenation of jsonb objects"

/-- `Exists`, the `?` operator: a string, a string element or a key. -/
def hasKey (j : JSON) (s : Bytes) : Bool :=
  match j with
  | scalar _ => isString s j
  | array xs => xs.any (isString s)
  | object kvs => (find? s kvs).isSome

end JSON

end Ratel
