import Ratel.Encoding.Decimal
import Ratel.Inverted.Expression
import Ratel.Json.Basic
import Ratel.Keys
import Mathlib.Data.List.Destutter
import Mathlib.Data.List.Sort

/- The keys of a JSON document in an inverted index, and the spans that are read to find the documents
   that contain a document or are contained in it. A key is the path to a leaf: an array is the
   escape byte followed by 0x03, a member its escaped key, followed by the escape byte and 0x02
   unless its value is the end of the path, and the end is the escape byte, 0x01 and the leaf.

   The encoders ask a value for its concrete Go type to know whether it is the end of a path. A
   document is therefore given by the representations of all its values, and each of them by its type
   and the methods the encoders call. -/
namespace Ratel.Inverted

open Ratel.Lib Ratel.Encoding Ratel.Keys List SpanExpression

/-! Bytes of a key. -/

def jsonInvertedIndex : UInt8 := UInt8.ofNat (decimalNaNDesc + 1)
def jsonEmptyArray : UInt8 := jsonInvertedIndex + 1
def jsonEmptyObject : UInt8 := jsonEmptyArray + 1
def escapedJSONObjectKeyTerm : UInt8 := 0x02
def escapedJSONArray : UInt8 := 0x03

def encodeJSONAscending (b : Bytes) : Bytes := b ++ [jsonInvertedIndex]

def encodeJSONKeyStringAscending (b s : Bytes) (isEnd : Bool) : Bytes :=
  if isEnd then encodeBytesAscendingWithoutTerminatorOrPrefix b s
  else encodeBytesAscendingWithTerminator b s escapedJSONObjectKeyTerm

def addJSONPathTerminator (b : Bytes) : Bytes := b ++ [escape, escapedTerm]

def encodeJSONEmptyArray (b : Bytes) : Bytes := b ++ [escape, escapedTerm, jsonEmptyArray]

def encodeJSONEmptyObject (b : Bytes) : Bytes := b ++ [escape, escapedTerm, jsonEmptyObject]

def encodeArrayAscending (b : Bytes) : Bytes := b ++ [escape, escapedJSONArray]

def encodeJSONObjectSpanStartAscending (b : Bytes) : Bytes := b ++ [escape, escaped00]

/-- The key of a scalar: NULL is 0x00, and the truth values are the types `True` and `False`. -/
def encodeScalar (b : Bytes) : Scalar → Option Bytes
  | .null => some (addJSONPathTerminator b ++ [0])
  | .bool v => some (addJSONPathTerminator b ++ [if v then 10 else 11])
  | .string s => some (encodeBytesAscending (addJSONPathTerminator b) s)
  | .number d => encodeDecimalAscending (addJSONPathTerminator b) d

/-- `UniquifyByteSlices`: sorted, and of equal neighbours the first. -/
def uniquifyByteSlices (slices : List Bytes) : List Bytes := (slices.insertionSort (· ≤ ·)).destutter (· ≠ ·)

def makeSingleValSpan (val : EncVal) : Span EncVal := ⟨val, prefixEnd val⟩

def objectSpan (b : Bytes) : Span EncVal := ⟨encodeJSONObjectSpanStartAscending b, prefixEnd b⟩

/-! The methods of a value. -/

/-- The representations that hold another and decode to it. -/
inductive Wrapper
  | jsonEncoded
  | lazyArray
  | lazyObject
  | mutableLazyNode
deriving DecidableEq, Repr

/-- `Type`, the scalar types as one. -/
inductive JSONType
  | scalar
  | array
  | object
deriving DecidableEq, Repr

/-- A value as the encoders see it. The concrete Go type of a plain one is that of its `type`; an
    encoder returns `none` where it panics or an assertion fails. -/
structure Methods where
  wrapper : Option Wrapper
  type : JSONType
  len : Nat
  encodeInvertedIndexKeys (b : Bytes) : Option (List Bytes)
  encodeContaining (b : Bytes) (isRoot isObjectValue : Bool) : Option SpanExpression
  encodeContained (b : Bytes) (isRoot isObjectValue : Bool) : Option SpanExpression

/-- The Go types of containers that the type switches of the encoders have. -/
def switched (m : Methods) : Bool := m.wrapper = none ∨ m.wrapper = some .jsonEncoded

def isEnd (m : Methods) : Bool := if switched m then m.type = .scalar ∨ m.len = 0 else true

/-- `emptyJSONForType`, as the key of the empty document. -/
def emptyJSONForType (m : Methods) : Option (Bytes → Bytes) :=
  if switched m then
    match m.type with
    | .array => some encodeJSONEmptyArray
    | .object => some encodeJSONEmptyObject
    | .scalar => none
  else none

def arrayKeys (xs : List (Bytes → Option (List Bytes))) (b : Bytes) : Option (List Bytes) :=
  if xs = [] then some [encodeJSONEmptyArray b]
  else do
    let children ← xs.mapM (fun keysOf => keysOf (encodeArrayAscending b) : (Bytes → _) → _)
    return uniquifyByteSlices children.flatten

def objectKeys (kvs : List (Bytes × Methods)) (b : Bytes) : Option (List Bytes) :=
  if kvs = [] then some [encodeJSONEmptyObject b]
  else do
    let members ← kvs.mapM fun kv => do
      let children ← kv.2.encodeInvertedIndexKeys []
      return children.map fun childBytes => b ++ encodeJSONKeyStringAscending [] kv.1 (isEnd kv.2) ++ childBytes
    return members.flatten

/-- `Or` with a span for each key. -/
def orKeys (tight : Bool) (e : SpanExpression) (keys : List Bytes) : SpanExpression :=
  keys.foldl (fun e key => unionSpanExpressions e (exprForSpan (makeSingleValSpan key) tight)) e

def setUnique (e : SpanExpression) (unique : Bool) : SpanExpression := e.setFields { e.fields with unique := unique }

/-- `encodeContainingInvertedIndexSpansFromLeaf` of a scalar, an empty array or an empty object. -/
def containingFromLeaf (leafType : JSONType) (keysOf : Bytes → Option (List Bytes)) (b : Bytes)
    (isRoot isObjectValue : Bool) : Option SpanExpression := do
  let keys ← keysOf b
  let e := leaf ⟨true, false, [], []⟩
  if isObjectValue ∧ isRoot then none
  else
    let pre := if isObjectValue then encodeJSONKeyStringAscending b [] false else b
    match leafType with
    | .array => return setUnique (orKeys true e (keys ++ [encodeArrayAscending pre])) false
    | .object =>
      return setUnique (orKeys true (unionSpanExpressions e (exprForSpan (objectSpan pre) true)) keys) false
    | .scalar =>
      let arrKeys ← if isRoot then arrayKeys [keysOf] pre else some []
      return setUnique (orKeys true e (keys ++ arrKeys)) true

/-- `And` of the children. -/
def andAll : List SpanExpression → Option SpanExpression
  | [] => none
  | e :: es => es.foldlM intersectSpanExpressions e

/-- `Or` of the children. -/
def orAll : List SpanExpression → Option SpanExpression
  | [] => none
  | e :: es => some (es.foldl unionSpanExpressions e)

def isIntersection : SpanExpression → Bool
  | node _ .setIntersection _ _ => true
  | _ => false

def arrayContaining (xs : List Methods) (b : Bytes) (isRoot isObjectValue : Bool) : Option SpanExpression :=
  if xs = [] then containingFromLeaf .array (arrayKeys []) b isRoot isObjectValue
  else do
    let e ← andAll (← xs.mapM (·.encodeContaining (encodeArrayAscending b) false false))
    return if ¬ isRoot ∧ 1 < xs.length ∧ isIntersection e then e.setNotTight else e

def objectContaining (kvs : List (Bytes × Methods)) (b : Bytes) (isRoot isObjectValue : Bool) :
    Option SpanExpression :=
  if kvs = [] then containingFromLeaf .object (objectKeys []) b isRoot isObjectValue
  else do
    let e ← andAll (← kvs.mapM fun kv =>
      kv.2.encodeContaining (encodeJSONKeyStringAscending b kv.1 (isEnd kv.2)) false true)
    return if ¬ isRoot ∧ 1 < kvs.length then e.setNotTight else e

/-- The span of an empty array or object, which every document of its type contains. -/
def emptyContained (key : Bytes) : SpanExpression := setUnique (exprForSpan (makeSingleValSpan key) false) true

def arrayContained (xs : List Methods) (b : Bytes) (isRoot isObjectValue : Bool) : Option SpanExpression := do
  let children ← xs.mapM fun x => do
    let child ← x.encodeContained (encodeArrayAscending b) false false
    -- what the root array has as a scalar is contained in it without the array
    if isRoot ∧ isEnd x then return [child, ← x.encodeContained b false false] else return [child]
  orAll ((if ¬ isObjectValue ∨ xs = [] then [emptyContained (encodeJSONEmptyArray b)] else []) ++ children.flatten)

def objectContained (kvs : List (Bytes × Methods)) (b : Bytes) (isObjectValue : Bool) : Option SpanExpression := do
  let children ← kvs.mapM fun kv => do
    let child ← kv.2.encodeContained (encodeJSONKeyStringAscending b kv.1 (isEnd kv.2)) false true
    match isEnd kv.2, emptyJSONForType kv.2 with
    | false, some emptyKey =>
      return [child, emptyContained (emptyKey (encodeJSONKeyStringAscending b kv.1 true))]
    | _, _ => return [child]
  orAll ((if ¬ isObjectValue ∨ kvs = [] then [emptyContained (encodeJSONEmptyObject b)] else []) ++ children.flatten)

def scalarMethods (s : Scalar) : Methods where
  wrapper := none
  type := .scalar
  len := 0
  encodeInvertedIndexKeys b := (encodeScalar b s).map ([·])
  encodeContaining := containingFromLeaf .scalar fun b => (encodeScalar b s).map ([·])
  encodeContained b isRoot _ :=
    (encodeScalar b s).map fun key => setUnique (orKeys false (leaf ⟨false, false, [], []⟩) [key]) isRoot

def arrayMethods (xs : List Methods) : Methods where
  wrapper := none
  type := .array
  len := xs.length
  encodeInvertedIndexKeys := arrayKeys (xs.map (·.encodeInvertedIndexKeys))
  encodeContaining := arrayContaining xs
  encodeContained := arrayContained xs

def objectMethods (kvs : List (Bytes × Methods)) : Methods where
  wrapper := none
  type := .object
  len := kvs.length
  encodeInvertedIndexKeys := objectKeys kvs
  encodeContaining := objectContaining kvs
  encodeContained b _ := objectContained kvs b

/-! Documents. -/

/-- A document with the representations of its values; `wrapped` has what `decode` returns. -/
inductive Doc
  | scalar (s : Scalar)
  | array (elems : List Doc)
  | object (pairs : List (Bytes × Doc))
  | wrapped (w : Wrapper) (decoded : Doc)

theorem sizeOf_value {α : Type} [SizeOf α] {kv : Bytes × α} {kvs : List (Bytes × α)} (h : kv ∈ kvs) :
    sizeOf kv.2 < 1 + sizeOf kvs := by
  have := List.sizeOf_lt_of_mem h
  cases kv
  simp only [Prod.mk.sizeOf_spec] at this ⊢
  omega

namespace Doc

/-- The methods of the other representations decode and call those of what they get; the length and
    the type are those of the value. -/
def methods : Doc → Methods
  | scalar s => scalarMethods s
  | array xs => arrayMethods (xs.map methods)
  | object kvs => objectMethods (kvs.map fun kv => (kv.1, kv.2.methods))
  | wrapped w d => { d.methods with wrapper := some w }
decreasing_by
  all_goals simp_wf
  all_goals first | exact sizeOf_value (by assumption) | decreasing_tactic

/-- The document that is represented. -/
def value : Doc → JSON
  | scalar s => .scalar s
  | array xs => .array (xs.map value)
  | object kvs => .object (kvs.map fun kv => (kv.1, kv.2.value))
  | wrapped _ d => d.value
decreasing_by
  all_goals simp_wf
  all_goals first | exact sizeOf_value (by assumption) | decreasing_tactic

end Doc

/-- The methods of a document in its plain representation. -/
def plain : JSON → Methods
  | .scalar s => scalarMethods s
  | .array xs => arrayMethods (xs.map plain)
  | .object kvs => objectMethods (kvs.map fun kv => (kv.1, plain kv.2))
decreasing_by
  all_goals simp_wf
  all_goals first | exact sizeOf_value (by assumption) | decreasing_tactic

open Doc

def encodeInvertedIndexKeys (b : Bytes) (m : Methods) : Option (List Bytes) :=
  m.encodeInvertedIndexKeys (encodeJSONAscending b)

def encodeContainingInvertedIndexSpans (b : Bytes) (m : Methods) : Option SpanExpression :=
  m.encodeContaining (encodeJSONAscending b) true false

def encodeContainedInvertedIndexSpans (b : Bytes) (m : Methods) : Option SpanExpression :=
  (m.encodeContained (encodeJSONAscending b) true false).map setNotTight

theorem encodeJSONKeyStringAscending_eq (b s : Bytes) (isEnd : Bool) : encodeJSONKeyStringAscending b s isEnd =
    b ++ s.flatMap escapeByte ++ if isEnd then [] else [escape, escapedJSONObjectKeyTerm] := by
  unfold encodeJSONKeyStringAscending encodeBytesAscendingWithTerminator
  rw [encodeBytesAscendingWithoutTerminatorOrPrefix_eq]
  split <;> simp

/-! Representations. -/

theorem mapM_map_congr {α β γ : Type} {f : β → Option γ} {g h : α → β} : ∀ {xs : List α},
    (∀ x ∈ xs, f (g x) = f (h x)) → (xs.map g).mapM f = (xs.map h).mapM f
  | [], _ => rfl
  | x :: xs, hx => by
    rw [map_cons, map_cons, mapM_cons, mapM_cons, hx x mem_cons_self, mapM_map_congr (forall_mem_cons.mp hx).2]

namespace Doc

variable {d : Doc}

theorem plain_shape (d : Doc) : (plain d.value).wrapper = none ∧ (plain d.value).type = d.methods.type ∧
    (plain d.value).len = d.methods.len := by
  induction d using value.induct with
  | case1 s => simp [value, plain, methods, scalarMethods]
  | case2 xs _ => simp [value, plain, methods, arrayMethods]
  | case3 kvs _ => simp [value, plain, methods, objectMethods]
  | case4 w d ih => simpa only [value, plain, methods] using ih

/-- The encoders take the value for the end of a path, but it has children. -/
def Hidden (d : Doc) : Prop := isEnd d.methods = true ∧ d.methods.len ≠ 0

theorem isEnd_plain (h : ¬ Hidden d) : isEnd (plain d.value) = isEnd d.methods ∧
    (isEnd d.methods = false → emptyJSONForType (plain d.value) = emptyJSONForType d.methods) := by
  obtain ⟨hplain, htype, hlen⟩ := plain_shape d
  have hswitched : switched (plain d.value) = true := by simp [switched, hplain]
  unfold Hidden at h
  unfold isEnd emptyJSONForType at *
  rw [if_pos hswitched, if_pos hswitched, htype, hlen]
  by_cases hd : switched d.methods = true
  · simp [hd]
  · simp_all

/-- No member at any depth has a hidden value. -/
inductive Shown : Doc → Prop
  | scalar (s : Scalar) : Shown (.scalar s)
  | array {xs : List Doc} : (∀ x ∈ xs, Shown x) → Shown (.array xs)
  | object {kvs : List (Bytes × Doc)} : (∀ kv ∈ kvs, ¬ Hidden kv.2) → (∀ kv ∈ kvs, Shown kv.2) → Shown (.object kvs)
  | wrapped {d : Doc} (w : Wrapper) : Shown d → Shown (.wrapped w d)

def elems : Doc → List Doc
  | array xs => xs
  | wrapped _ d => d.elems
  | _ => []

/-- The encoders cannot tell a document from its plain representation. -/
structure Alike (d : Doc) : Prop where
  keys (b) : d.methods.encodeInvertedIndexKeys b = (plain d.value).encodeInvertedIndexKeys b
  containing (b isRoot isObjectValue) : d.methods.encodeContaining b isRoot isObjectValue =
    (plain d.value).encodeContaining b isRoot isObjectValue
  contained (b isRoot isObjectValue) : (isRoot = true → ∀ x ∈ d.elems, ¬ Hidden x) →
    d.methods.encodeContained b isRoot isObjectValue = (plain d.value).encodeContained b isRoot isObjectValue

theorem Alike.child (h : Alike d) (b : Bytes) (isObjectValue : Bool) :
    d.methods.encodeContained b false isObjectValue = (plain d.value).encodeContained b false isObjectValue :=
  h.contained b false isObjectValue (by simp)

theorem alike_array {xs : List Doc} (h : ∀ x ∈ xs, Alike x) : Alike (array xs) := by
  refine ⟨fun b => ?_, fun b isRoot isObjectValue => ?_, fun b isRoot isObjectValue hroot => ?_⟩
  all_goals simp only [value, plain, methods, arrayMethods, map_map, Function.comp_def]
  · rw [map_congr_left fun x hx => funext (h x hx).keys]
  · unfold arrayContaining
    rw [mapM_map_congr (h := fun x => plain x.value) fun x hx => (h x hx).containing _ _ _]
    simp only [map_eq_nil_iff, length_map]
  unfold arrayContained
  rw [mapM_map_congr (h := fun x => plain x.value)]
  · simp only [map_eq_nil_iff]
  intro x hx
  simp only [(h x hx).child]
  cases isRoot with
  | false => simp
  | true => rw [(isEnd_plain (hroot rfl x hx)).1]

theorem alike_object {kvs : List (Bytes × Doc)} (hend : ∀ kv ∈ kvs, ¬ Hidden kv.2) (h : ∀ kv ∈ kvs, Alike kv.2) :
    Alike (object kvs) := by
  refine ⟨fun b => ?_, fun b isRoot isObjectValue => ?_, fun b isRoot isObjectValue _ => ?_⟩
  all_goals simp only [value, plain, methods, objectMethods, map_map, Function.comp_def]
  · unfold objectKeys
    rw [mapM_map_congr (h := fun kv => (kv.1, plain kv.2.value))]
    · simp only [map_eq_nil_iff]
    · intro kv hkv
      simp only [(h kv hkv).keys, (isEnd_plain (hend kv hkv)).1]
  · unfold objectContaining
    rw [mapM_map_congr (h := fun kv => (kv.1, plain kv.2.value))]
    · simp only [map_eq_nil_iff, length_map]
    · intro kv hkv
      simp only [(h kv hkv).containing, (isEnd_plain (hend kv hkv)).1]
  · unfold objectContained
    rw [mapM_map_congr (h := fun kv => (kv.1, plain kv.2.value))]
    · simp only [map_eq_nil_iff]
    intro kv hkv
    obtain ⟨hisEnd, hempty⟩ := isEnd_plain (hend kv hkv)
    simp only [(h kv hkv).child, hisEnd]
    cases he : isEnd kv.2.methods with
    | true => rfl
    | false => rw [hempty he]

theorem Shown.alike (h : Shown d) : Alike d := by
  induction h with
  | scalar s => exact ⟨by simp [value, plain, methods], by simp [value, plain, methods], by simp [value, plain, methods]⟩
  | array _ ih => exact alike_array ih
  | object hend _ ih => exact alike_object hend ih
  | @wrapped d w _ ih =>
    refine ⟨?_, ?_, ?_⟩
    all_goals simp only [value, methods]
    · exact ih.keys
    · exact ih.containing
    · exact ih.contained

end Doc

/-- If no value with children is hidden as a member's value, or as an element of an array at the root,
    the three encoders return what they return for the plain representation. -/
theorem encoders_plain (b : Bytes) (d : Doc) (h : Shown d) (hroot : ∀ x ∈ d.elems, ¬ Hidden x) :
    encodeInvertedIndexKeys b d.methods = encodeInvertedIndexKeys b (plain d.value) ∧
      encodeContainingInvertedIndexSpans b d.methods = encodeContainingInvertedIndexSpans b (plain d.value) ∧
      encodeContainedInvertedIndexSpans b d.methods = encodeContainedInvertedIndexSpans b (plain d.value) := by
  have hd := h.alike
  refine ⟨hd.keys _, hd.containing _ _ _, ?_⟩
  rw [encodeContainedInvertedIndexSpans, hd.contained _ _ _ fun _ => hroot]
  rfl

theorem encoders_plain_lazy : encodeInvertedIndexKeys [] (methods (.wrapped .lazyArray (.array [.scalar .null]))) =
    encodeInvertedIndexKeys [] (plain (value (.wrapped .lazyArray (.array [.scalar .null])))) :=
  (encoders_plain [] _ (.wrapped _ (.array (forall_mem_singleton.mpr (.scalar _))))
    (forall_mem_singleton.mpr fun h => h.2 (by rw [methods]; rfl))).1

/-- The document with the member `a`, an array with NULL in a lazy representation. -/
def lazyMember : Doc := .object [([97], .wrapped .lazyArray (.array [.scalar .null]))]

theorem lazyMember_keys : encodeInvertedIndexKeys [] lazyMember.methods = some [[55, 97, 0, 3, 0, 1, 0]] ∧
    encodeInvertedIndexKeys [] (plain lazyMember.value) = some [[55, 97, 0, 2, 0, 3, 0, 1, 0]] := by
  simp only [encodeInvertedIndexKeys, lazyMember, value, methods, plain, map_cons, map_nil, objectMethods, objectKeys,
    encodeJSONKeyStringAscending_eq]
  decide +kernel

/-! The space of the objects. -/

section Space

variable {b key : Bytes} {keys : List Bytes}

theorem prefix_encodeScalar {s : Scalar} (h : encodeScalar b s = some key) : addJSONPathTerminator b <+: key := by
  cases s with
  | null => exact Option.some.inj h ▸ prefix_append _ _
  | bool v => exact Option.some.inj h ▸ prefix_append _ _
  | string s => exact Option.some.inj h ▸ encodeBytesAscending_eq _ s ▸ prefix_append _ _
  | number d =>
    simp only [encodeScalar, encodeDecimalAscending, encodeDecimal] at h
    split_ifs at h
    all_goals exact Option.some.inj h ▸ prefix_append _ _

theorem mem_of_uniquify {slices : List Bytes} (h : key ∈ uniquifyByteSlices slices) : key ∈ slices :=
  (perm_insertionSort _ _).subset ((destutter_sublist _ _).subset h)

theorem append_le_append_iff {x y : Bytes} (p : Bytes) : p ++ x ≤ p ++ y ↔ x ≤ y := by
  induction p with
  | nil => rfl
  | cons c p ih => simp [Lib.cons_le_cons, ih]

/-- A key of the index is in the space of the objects if what follows the tag is not before it. -/
theorem mem_objectSpan {r : Bytes} : encodeJSONAscending b ++ r ∈ (objectSpan (encodeJSONAscending b)).keys ↔
    [escape, escaped00] ≤ r := by
  have hstop := ((mem_prefix_span_iff ⟨jsonInvertedIndex, by simp [encodeJSONAscending], by decide⟩
    (encodeJSONAscending b ++ r)).mpr (prefix_append _ _)).2
  exact (and_iff_left hstop).trans (append_le_append_iff _)

/-- An escaped key is not before the space unless it is empty. -/
theorem start_le_escaped {k r : Bytes} {t : UInt8} (ht : t < escaped00) :
    [escape, escaped00] ≤ k.flatMap escapeByte ++ escape :: t :: r ↔ k ≠ [] := by
  cases k with
  | nil => simp [Lib.cons_le_cons, ht.ne', ht.le]
  | cons c k =>
    simp only [flatMap_cons, escapeByte]
    split
    · simp [prefix_le]
    · next hc => simp [Lib.cons_le_cons, show escape < c from UInt8.pos_iff_ne_zero.mpr hc]

theorem arrayKeys_spec {xs : List (Bytes → Option (List Bytes))} (hne : xs ≠ []) (h : arrayKeys xs b = some keys) :
    (∀ key ∈ keys, ∃ keysOf ∈ xs, ∃ children, keysOf (encodeArrayAscending b) = some children ∧ key ∈ children) ∧
      (keys = [] → ∃ keysOf ∈ xs, keysOf (encodeArrayAscending b) = some []) := by
  rw [arrayKeys, if_neg hne] at h
  obtain ⟨children, hchildren, h⟩ := Option.bind_eq_some_iff.mp h
  cases h
  obtain ⟨hall, hof⟩ := mapM_some hchildren
  refine ⟨fun key hkey => ?_, fun hnil => ?_⟩
  · obtain ⟨l, hl, hkey⟩ := mem_flatten.mp (mem_of_uniquify hkey)
    obtain ⟨keysOf, hmem, heq⟩ := hof l hl
    exact ⟨keysOf, hmem, l, heq, hkey⟩
  obtain ⟨keysOf, hmem⟩ := exists_mem_of_ne_nil xs hne
  obtain ⟨l, hl, heq⟩ := hall keysOf hmem
  have hflat := (((destutter_eq_nil _).mp hnil) ▸ perm_insertionSort _ children.flatten).nil_eq
  exact ⟨keysOf, hmem, flatten_eq_nil_iff.mp hflat.symm l hl ▸ heq⟩

theorem objectKeys_spec {kvs : List (Bytes × Methods)} (hne : kvs ≠ []) (h : objectKeys kvs b = some keys) :
    (∀ key ∈ keys, ∃ kv ∈ kvs, ∃ children childBytes, kv.2.encodeInvertedIndexKeys [] = some children ∧
      childBytes ∈ children ∧ key = b ++ encodeJSONKeyStringAscending [] kv.1 (isEnd kv.2) ++ childBytes) ∧
    ∀ kv ∈ kvs, ∃ children, kv.2.encodeInvertedIndexKeys [] = some children ∧
      ∀ childBytes ∈ children, b ++ encodeJSONKeyStringAscending [] kv.1 (isEnd kv.2) ++ childBytes ∈ keys := by
  rw [objectKeys, if_neg hne] at h
  obtain ⟨members, hmembers, h⟩ := Option.bind_eq_some_iff.mp h
  cases h
  obtain ⟨hall, hof⟩ := mapM_some hmembers
  refine ⟨fun key hkey => ?_, fun kv hkv => ?_⟩
  · obtain ⟨l, hl, hkey⟩ := mem_flatten.mp hkey
    obtain ⟨kv, hkv, heq⟩ := hof l hl
    obtain ⟨children, hchildren, heq⟩ := Option.bind_eq_some_iff.mp heq
    cases heq
    obtain ⟨childBytes, hmem, rfl⟩ := mem_map.mp hkey
    exact ⟨kv, hkv, children, childBytes, hchildren, hmem, rfl⟩
  · obtain ⟨l, hl, heq⟩ := hall kv hkv
    obtain ⟨children, hchildren, heq⟩ := Option.bind_eq_some_iff.mp heq
    cases heq
    exact ⟨children, hchildren, fun childBytes hmem => mem_flatten.mpr ⟨_, hl, mem_map_of_mem hmem⟩⟩

/-- A document has a key, and its keys continue the given one. -/
theorem prefix_of_keys (j : JSON) : ∀ {b keys}, (plain j).encodeInvertedIndexKeys b = some keys →
    keys ≠ [] ∧ ∀ key ∈ keys, b <+: key := by
  induction j with
  | scalar s =>
    intro b keys h
    rw [plain] at h
    obtain ⟨key, hkey, rfl⟩ := Option.map_eq_some_iff.mp h
    exact ⟨cons_ne_nil _ _, forall_mem_singleton.mpr ((prefix_append _ _).trans (prefix_encodeScalar hkey))⟩
  | array xs ih =>
    intro b keys h
    rw [plain] at h
    by_cases hne : xs = []
    · subst hne
      cases h
      exact ⟨cons_ne_nil _ _, forall_mem_singleton.mpr (prefix_append _ _)⟩
    obtain ⟨hof, hnil⟩ := arrayKeys_spec (by simpa using hne) h
    simp only [mem_map, exists_exists_and_eq_and] at hof hnil
    refine ⟨fun h => ?_, fun key hkey => ?_⟩
    · obtain ⟨x, hx, heq⟩ := hnil h
      exact (ih x hx heq).1 rfl
    · obtain ⟨x, hx, children, heq, hkey⟩ := hof key hkey
      exact (prefix_append _ _).trans ((ih x hx heq).2 key hkey)
  | object kvs ih =>
    intro b keys h
    rw [plain] at h
    by_cases hne : kvs = []
    · subst hne
      cases h
      exact ⟨cons_ne_nil _ _, forall_mem_singleton.mpr (prefix_append _ _)⟩
    obtain ⟨hof, hall⟩ := objectKeys_spec (by simpa using hne) h
    refine ⟨?_, fun key hkey => ?_⟩
    · obtain ⟨kv, hkv⟩ := exists_mem_of_ne_nil kvs hne
      obtain ⟨children, heq, hmem⟩ := hall _ (mem_map_of_mem hkv)
      obtain ⟨child, hchild⟩ := exists_mem_of_ne_nil _ (ih kv hkv heq).1
      exact ne_nil_of_mem (hmem child hchild)
    · obtain ⟨kv, hkv, children, child, -, -, rfl⟩ := hof key hkey
      exact append_assoc b _ _ ▸ prefix_append _ _

theorem not_mem_objectSpan {t : UInt8} (ht : t < escaped00) (h : encodeJSONAscending b ++ [escape, t] <+: key) :
    key ∉ (objectSpan (encodeJSONAscending b)).keys := by
  obtain ⟨r, rfl⟩ := h
  rw [append_assoc, mem_objectSpan]
  exact fun hle => (start_le_escaped (k := []) ht).mp hle rfl

theorem prefix_of_end {j : JSON} (hend : isEnd (plain j) = true) (h : (plain j).encodeInvertedIndexKeys b = some keys) :
    ∀ key ∈ keys, addJSONPathTerminator b <+: key := by
  cases j with
  | scalar s =>
    rw [plain] at h
    obtain ⟨key, hkey, rfl⟩ := Option.map_eq_some_iff.mp h
    exact forall_mem_singleton.mpr (prefix_encodeScalar hkey)
  | array xs =>
    obtain rfl : xs = [] := by simpa [plain, arrayMethods, isEnd, switched] using hend
    rw [plain] at h
    cases h
    exact forall_mem_singleton.mpr ⟨[jsonEmptyArray], append_assoc _ _ _⟩
  | object kvs =>
    obtain rfl : kvs = [] := by simpa [plain, objectMethods, isEnd, switched] using hend
    rw [plain] at h
    cases h
    exact forall_mem_singleton.mpr ⟨[jsonEmptyObject], append_assoc _ _ _⟩

/-- The key of a member is followed by the end of the path or by a separator. -/
theorem member_key {j : JSON} {k childBytes : Bytes} {children : List Bytes}
    (h : (plain j).encodeInvertedIndexKeys [] = some children) (hchild : childBytes ∈ children) :
    ∃ t r, t < escaped00 ∧ encodeJSONKeyStringAscending [] k (isEnd (plain j)) ++ childBytes =
      k.flatMap escapeByte ++ escape :: t :: r := by
  rw [encodeJSONKeyStringAscending_eq]
  split
  · next hend =>
    obtain ⟨r, rfl⟩ := prefix_of_end hend h childBytes hchild
    exact ⟨escapedTerm, r, by decide, by simp [addJSONPathTerminator]⟩
  · exact ⟨escapedJSONObjectKeyTerm, childBytes, by decide, by simp⟩

def members : JSON → List (Bytes × JSON)
  | .object kvs => kvs
  | _ => []

theorem other_not_in_space {j : JSON} (hj : members j = []) (h : encodeInvertedIndexKeys b (plain j) = some keys) :
    ∀ key ∈ keys, key ∉ (objectSpan (encodeJSONAscending b)).keys := by
  intro key hkey
  by_cases hend : isEnd (plain j) = true
  · exact not_mem_objectSpan (by decide) (prefix_of_end hend h key hkey)
  cases j with
  | scalar s => simp [plain, scalarMethods, isEnd] at hend
  | array xs =>
    have hne : xs ≠ [] := by
      rintro rfl
      simp [plain, arrayMethods, isEnd] at hend
    rw [plain] at h
    obtain ⟨keysOf, hmem, children, heq, hkey⟩ := (arrayKeys_spec (by simpa using hne) h).1 key hkey
    simp only [map_map, mem_map] at hmem
    obtain ⟨x, -, rfl⟩ := hmem
    exact not_mem_objectSpan (by decide) ((prefix_of_keys x heq).2 key hkey)
  | object kvs =>
    cases hj
    simp [plain, objectMethods, isEnd] at hend

theorem object_in_space {j : JSON} (hj : members j ≠ []) (h : encodeInvertedIndexKeys b (plain j) = some keys) :
    (∀ key ∈ keys, key ∈ (objectSpan (encodeJSONAscending b)).keys) ↔ ∀ kv ∈ members j, kv.1 ≠ [] := by
  cases j with
  | scalar s => exact absurd rfl hj
  | array xs => exact absurd rfl hj
  | object kvs =>
    rw [plain] at h
    obtain ⟨hof, hall⟩ := objectKeys_spec (by simpa [members] using hj) h
    constructor
    · intro hin kv hkv
      obtain ⟨children, heq, hmem⟩ := hall _ (mem_map_of_mem hkv)
      obtain ⟨child, hchild⟩ := exists_mem_of_ne_nil _ (prefix_of_keys _ heq).1
      obtain ⟨t, r, ht, hform⟩ := member_key (k := kv.1) heq hchild
      have hkey := hin _ (hmem child hchild)
      rwa [append_assoc, hform, mem_objectSpan, start_le_escaped ht] at hkey
    intro hne key hkey
    obtain ⟨m, hm, children, child, heq, hchild, rfl⟩ := hof key hkey
    obtain ⟨kv, hkv, rfl⟩ := mem_map.mp hm
    obtain ⟨t, r, ht, hform⟩ := member_key (k := kv.1) heq hchild
    rw [append_assoc, hform, mem_objectSpan, start_le_escaped ht]
    exact hne kv hkv

/-- The keys of a non-empty object lie in the space of the objects and are no keys of another
    document; those of any other document lie outside. -/
def KeysPlaced (b : Bytes) (j : JSON) (keys : List Bytes) : Prop :=
  if members j = [] then ∀ key ∈ keys, key ∉ (objectSpan (encodeJSONAscending b)).keys
  else (∀ key ∈ keys, key ∈ (objectSpan (encodeJSONAscending b)).keys) ∧
    ∀ other keys', members other = [] → encodeInvertedIndexKeys b (plain other) = some keys' → ∀ key ∈ keys, key ∉ keys'

/-- The keys are placed exactly if no member of the document has the empty key. -/
theorem keysPlaced_iff (b : Bytes) (j : JSON) (keys : List Bytes) (h : encodeInvertedIndexKeys b (plain j) = some keys) :
    KeysPlaced b j keys ↔ ∀ kv ∈ members j, kv.1 ≠ [] := by
  unfold KeysPlaced
  split
  · next hj =>
    rw [hj]
    exact iff_of_true (other_not_in_space hj h) (by simp)
  next hj =>
  rw [object_in_space hj h, and_iff_left_iff_imp]
  intro hne other keys' hother hkeys' key hkey hkey'
  exact other_not_in_space hother hkeys' key hkey' ((object_in_space hj h).mpr hne key hkey)

/-- The object whose member `a` is NULL. -/
theorem keysPlaced_iff_member : KeysPlaced [] (.object [([97], .scalar .null)]) [[55, 97, 0, 1, 0]] := by
  refine (keysPlaced_iff _ _ _ ?_).mpr (by simp [members])
  simp only [encodeInvertedIndexKeys, plain, map_cons, map_nil, objectMethods, objectKeys]
  decide +kernel

/-- An object with the empty key and a scalar have the same key, which is not in the space. -/
theorem emptyKey_shared : encodeInvertedIndexKeys [] (plain (.object [([], .scalar .null)])) = some [[55, 0, 1, 0]] ∧
    encodeInvertedIndexKeys [] (plain (.scalar .null)) = some [[55, 0, 1, 0]] ∧
    [55, 0, 1, 0] ∉ (objectSpan (encodeJSONAscending [])).keys := by
  refine ⟨?_, by rw [plain]; decide +kernel, not_mem_objectSpan (t := 1) (by decide) ⟨[0], rfl⟩⟩
  simp only [encodeInvertedIndexKeys, plain, map_cons, map_nil, objectMethods, objectKeys]
  decide +kernel

end Space

end Ratel.Inverted
