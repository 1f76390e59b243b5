import Ratel.Keys.Actor
import Ratel.Lib.Store

/- The Durable Object storage server (`pkg/server/actorstorage/server.go`). Every actor has
   a stage that turns its calls into reads and writes of the shared KV map, under the
   actor's own key prefix. A capnp `Data` that was not sent is read as an empty one; lists
   have fewer than `2 ^ 29` elements, so the conversion of a length to `int32` keeps it.
   `Put` stores its values with the bytes tag, so `GetBytes` does not fail on them.

   What the stages are for is stated beside them: one ordered map from byte strings to
   byte strings for each actor, with `Call` acting on the caller's map only.

   Proven here: the KV map always represents that family, so actors do not reach each other
   and reads return the latest puts. A `Put` or `Delete` with a key twice is refused by the
   KV layer and changes nothing. The replies are the specified ones exactly when the call
   meets `Served`: the stage counts the keys it was asked to delete rather than those that
   existed, reads neither `reverse` nor `prefix`, cuts an unlimited listing at 1000 entries
   and any at 10000, and passes an empty range on to a KV layer that rejects it. -/
namespace Ratel.Server

open Ratel.Lib Ratel.Lib.Assoc Ratel.Encoding Ratel.Keys List

/-! The stage. -/

/-- An operation of the stage's interface. -/
inductive Call
  | get (key : Bytes)
  | put (entries : List (Bytes × Bytes))
  | delete (keys : List Bytes)
  | deleteAll
  | getMultiple (keys : List Bytes)
  | list (start end_ : Bytes) (limit : Int32) (reverse : Bool) (pre : Bytes)
deriving DecidableEq

/-- What a call returns or streams. -/
inductive Reply
  | value (v : Option Bytes)
  | done
  | numDeleted (n : Nat)
  | entries (es : List (Bytes × Bytes))
deriving DecidableEq, Repr

def maxListLimit : Int := 10000

/-- `List`'s limit once it is clamped. -/
def listLimit (limit : Int32) : Nat :=
  let limit := if limit.toInt ≤ 0 then 1000 else limit.toInt
  let limit := if limit > maxListLimit then maxListLimit else limit
  limit.toNat

/-- `db.Scan` on the KV map. The store rejects a range that is empty (`verifyKeys`). -/
def kvScan (kv : Store Bytes Bytes) (begin end_ : Bytes) (maxRows : Nat) :
    Except Err (List (Bytes × Bytes)) :=
  if begin < end_ then .ok ((kv.scan begin end_).take maxRows)
  else errorf "end key %q must be greater than start %q" [.bytes end_, .bytes begin]

/-- `db.Run` of a batch of puts and deletions. It is evaluated at one timestamp and outside
    a transaction, so the second write of a key fails with a `WriteTooOldError`, and with it
    the batch (`evaluateBatch`); it is taken to lie in one range, or it would be made a
    transaction. -/
def kvRun (kv : Store Bytes Bytes) (batch : List (Bytes × Option Bytes)) : Except Err (Store Bytes Bytes) :=
  if (batch.map Prod.fst).Nodup then
    .ok (batch.foldl (fun kv w => w.2.elim (kv.del w.1) (kv.put w.1)) kv)
  else errorf "WriteTooOldError"

/-- `stageServer`: the storage of one actor. -/
structure StageServer where
  tenID : TenantID
  hash : ActorHash

namespace StageServer

def doKey (s : StageServer) (userKey : Bytes) : Bytes :=
  makeDOKVKey s.tenID.tenantPrefix s.hash.val userKey

def doPrefix (s : StageServer) : Bytes := makeDOKVPrefix s.tenID.tenantPrefix s.hash.val

/-- The loop of `List` over the scanned rows. -/
def decodeRows (s : StageServer) (rows : List (Bytes × Bytes)) : Except Err (List (Bytes × Bytes)) :=
  rows.mapM fun row => do
    let (_, userKey) ← decodeBytesAscending (row.1.drop s.doPrefix.length) []
    return (userKey, row.2)

/-- The `begin` and `end` of a listing; an empty bound is the actor's own. -/
def bounds (s : StageServer) (startKey endKey : Bytes) : Bytes × Bytes :=
  (if startKey ≠ [] then s.doKey startKey else s.doPrefix,
    if endKey ≠ [] then s.doKey endKey else prefixEnd s.doPrefix)

def list (s : StageServer) (kv : Store Bytes Bytes) (startKey endKey : Bytes) (limit : Int32) :
    Except Err (List (Bytes × Bytes)) :=
  let (begin, end_) := s.bounds startKey endKey
  match kvScan kv begin end_ (listLimit limit) with
  | .error _ => errorf "storage error"
  | .ok rows => s.decodeRows rows

/-- One call: the KV map after it and what it answers. -/
def handle (s : StageServer) (kv : Store Bytes Bytes) : Call → Store Bytes Bytes × Except Err Reply
  | .get key => (kv, .ok (.value (kv.get (s.doKey key))))
  | .put entries =>
    match kvRun kv (entries.map fun e => (s.doKey e.1, some e.2)) with
    | .error _ => (kv, errorf "storage error")
    | .ok kv => (kv, .ok .done)
  | .delete keys =>
    match kvRun kv (keys.map fun key => (s.doKey key, none)) with
    | .error _ => (kv, errorf "storage error")
    | .ok kv => (kv, .ok (.numDeleted keys.length))
  | .deleteAll => (kv.delRange s.doPrefix (prefixEnd s.doPrefix), .ok (.numDeleted 0))
  | .getMultiple keys =>
    (kv, .ok (.entries (keys.filterMap fun key => (kv.get (s.doKey key)).map fun v => (key, v))))
  | .list start end_ limit _ _ => (kv, Reply.entries <$> s.list kv start end_ limit)

end StageServer

/-! One actor's storage, as the interface describes it. -/

namespace Contents

/-- The entries with `start ≤ key < end`, where an empty bound is none. -/
def entriesIn (m : Store Bytes Bytes) (start end_ : Bytes) : List (Bytes × Bytes) :=
  m.entries.filter fun e => decide (start ≤ e.1) && (decide (end_ = []) || decide (e.1 < end_))

/-- The first `limit` entries, all of them when no limit is given. -/
def cut (limit : Int32) (es : List (Bytes × Bytes)) : List (Bytes × Bytes) :=
  if limit.toInt ≤ 0 then es else es.take limit.toInt.toNat

def listed (m : Store Bytes Bytes) (start end_ : Bytes) (limit : Int32) (reverse : Bool) (pre : Bytes) :
    List (Bytes × Bytes) :=
  let es := (entriesIn m start end_).filter fun e => pre.isPrefixOf e.1
  cut limit (if reverse then es.reverse else es)

def apply (m : Store Bytes Bytes) : Call → Store Bytes Bytes × Reply
  | .get key => (m, .value (m.get key))
  | .put entries => (entries.foldl (fun m e => m.put e.1 e.2) m, .done)
  | .delete keys =>
    (keys.foldl (fun m key => m.del key) m, .numDeleted (keys.dedup.filter fun k => (m.get k).isSome).length)
  | .deleteAll => (Store.empty, .numDeleted m.entries.length)
  | .getMultiple keys => (m, .entries (keys.filterMap fun key => (m.get key).map fun v => (key, v)))
  | .list start end_ limit reverse pre => (m, .entries (listed m start end_ limit reverse pre))

end Contents

/-- Whether a call writes no key twice. The others are refused and change nothing. -/
def Call.distinct : Call → Bool
  | .put entries => (entries.map Prod.fst).Nodup
  | .delete keys => keys.Nodup
  | _ => true

def Contents.after (m : Store Bytes Bytes) (call : Call) : Store Bytes Bytes :=
  if call.distinct then (Contents.apply m call).1 else m

/-- The calls that the stage answers as specified, on the given contents. -/
def Served (m : Store Bytes Bytes) : Call → Prop
  | .get _ | .getMultiple _ => True
  | .put entries => (entries.map Prod.fst).Nodup
  | .delete keys => keys.Nodup ∧ ∀ k ∈ keys, (m.get k).isSome
  | .deleteAll => m.entries = []
  | .list start end_ limit reverse pre =>
    let es := Contents.entriesIn m start end_
    let n := listLimit limit
    (end_ = [] ∨ start < end_) ∧ (∀ e ∈ es.take n, pre <+: e.1) ∧
      (reverse ∨ ¬ (0 < limit.toInt ∧ limit.toInt ≤ maxListLimit) → ∀ e ∈ es.drop n, ¬ pre <+: e.1) ∧
      (reverse → (es.take n).length ≤ 1)

/-! Keys of one stage. -/

namespace StageServer

theorem doKey_eq (s : StageServer) (k : Bytes) : s.doKey k = s.doPrefix ++ bytesAscending k :=
  encodeBytesAscending_eq s.doPrefix k

variable {k l : Bytes}

theorem doKey_strictMono (s : StageServer) : StrictMono s.doKey := by
  intro a b h
  rw [doKey_eq, doKey_eq]
  exact ((bytesAscending_orderedCode _ _ h).append_left s.doPrefix).lt

theorem doKey_lt (s : StageServer) : s.doKey k < s.doKey l ↔ k < l := s.doKey_strictMono.lt_iff_lt

/-- A batch on the stage's keys fails exactly if it has one of the user's keys twice. -/
theorem kvRun_doKey (s : StageServer) (kv : Store Bytes Bytes) {α : Type} (f : α → Bytes × Option Bytes) (xs : List α) :
    kvRun kv (xs.map fun x => (s.doKey (f x).1, (f x).2)) =
      if (xs.map fun x => (f x).1).Nodup then
        .ok (xs.foldl (fun kv x => (f x).2.elim (kv.del (s.doKey (f x).1)) (kv.put (s.doKey (f x).1))) kv)
      else errorf "WriteTooOldError" := by
  have hkeys : ((xs.map fun x => (s.doKey (f x).1, (f x).2)).map Prod.fst).Nodup ↔ (xs.map fun x => (f x).1).Nodup := by
    rw [← nodup_map_iff s.doKey_strictMono.injective (l := xs.map fun x => (f x).1), map_map, map_map]
    rfl
  rw [kvRun, foldl_map]
  simp only [hkeys]

theorem handle_put (s : StageServer) (kv : Store Bytes Bytes) (entries : List (Bytes × Bytes)) :
    s.handle kv (.put entries) = if (entries.map Prod.fst).Nodup then
      (entries.foldl (fun kv e => kv.put (s.doKey e.1) e.2) kv, .ok .done)
    else (kv, errorf "storage error") := by
  simp only [handle, kvRun_doKey s kv (fun e : Bytes × Bytes => (e.1, some e.2)) entries]
  by_cases hkeys : (entries.map Prod.fst).Nodup
  · simp only [if_pos hkeys]
    rfl
  · simp only [if_neg hkeys]
    rfl

theorem handle_delete (s : StageServer) (kv : Store Bytes Bytes) (keys : List Bytes) :
    s.handle kv (.delete keys) = if keys.Nodup then
      (keys.foldl (fun kv key => kv.del (s.doKey key)) kv, .ok (.numDeleted keys.length))
    else (kv, errorf "storage error") := by
  simp only [handle, kvRun_doKey s kv (fun key : Bytes => (key, none)) keys, map_id']
  by_cases hkeys : keys.Nodup
  · simp only [if_pos hkeys]
    rfl
  · simp only [if_neg hkeys]
    rfl

theorem doPrefix_prefix (s : StageServer) (k : Bytes) : s.doPrefix <+: s.doKey k :=
  ⟨_, (s.doKey_eq k).symm⟩

theorem doPrefix_span (s : StageServer) (x : Bytes) :
    s.doPrefix ≤ x ∧ x < prefixEnd s.doPrefix ↔ s.doPrefix <+: x := by
  refine mem_prefix_span_iff (p := s.doPrefix) ⟨actorPrefixByte, ?_, by decide⟩ x
  simp [doPrefix, makeDOKVPrefix, makeActorPrefixFromHash, encodeUvarintAscending]

theorem actorPrefix_doPrefix (s : StageServer) : actorPrefix s.tenID s.hash <+: s.doPrefix := by
  rw [doPrefix, makeDOKVPrefix, encodeUvarintAscending, encodeUvarintAscending, append_assoc]
  exact prefix_append _ _

/-- Stages of one tenant with a common key belong to one actor. -/
theorem doPrefix_unique {s t : StageServer} {x : Bytes} (hs : s.doPrefix <+: x) (ht : t.doPrefix <+: x) :
    s = t := by
  obtain ⟨htid, hhash⟩ := actorPrefix_unique (s.actorPrefix_doPrefix.trans hs) (t.actorPrefix_doPrefix.trans ht)
  cases s
  simp_all

end StageServer

/-! The map represents the family. -/

/-- `GetStage`: the stage of an actor's stable id. -/
def getStage (tenID : TenantID) (actorHash : Bytes → ActorHash) (stableID : Bytes) : StageServer :=
  ⟨tenID, actorHash stableID⟩

section Refinement

/- One tenant's stages; `actorHash` tells the actors of `ids` apart. -/
variable {tenID : TenantID} {actorHash : Bytes → ActorHash} {ids : Set Bytes}

open Function

/-- The KV map holds the contents of every actor of `ids`, and under their prefixes only
    what their stages wrote. -/
structure Represents (tenID : TenantID) (actorHash : Bytes → ActorHash) (ids : Set Bytes)
    (kv : Store Bytes Bytes) (family : Bytes → Store Bytes Bytes) : Prop where
  reads : ∀ a ∈ ids, ∀ k, kv.get ((getStage tenID actorHash a).doKey k) = (family a).get k
  written : ∀ a ∈ ids, ∀ x v, kv.get x = some v → (getStage tenID actorHash a).doPrefix <+: x →
    ∃ k, x = (getStage tenID actorHash a).doKey k

variable {a : Bytes}

theorem getStage_inj (hinj : Set.InjOn actorHash ids) {b : Bytes} (ha : a ∈ ids) (hb : b ∈ ids) :
    getStage tenID actorHash a = getStage tenID actorHash b ↔ a = b := by
  refine ⟨fun h => ?_, fun h => by rw [h]⟩
  simp only [getStage, StageServer.mk.injEq, true_and] at h
  exact hinj ha hb h

namespace Represents

variable {kv : Store Bytes Bytes} {family : Bytes → Store Bytes Bytes} {a : Bytes}

theorem empty : Represents tenID actorHash ids Store.empty fun _ => Store.empty where
  reads _ _ _ := rfl
  written _ _ _ _ h := by cases h

section
variable (hinj : Set.InjOn actorHash ids) (ha : a ∈ ids) (h : Represents tenID actorHash ids kv family)
include hinj ha h

/-- The keys of one actor change as its map does, and no others. -/
theorem change {kv' m : Store Bytes Bytes} (hreads : ∀ k, kv'.get ((getStage tenID actorHash a).doKey k) = m.get k)
    (hwritten : ∀ x v, kv'.get x = some v → (getStage tenID actorHash a).doPrefix <+: x →
      ∃ k, x = (getStage tenID actorHash a).doKey k)
    (hframe : ∀ x, ¬ (getStage tenID actorHash a).doPrefix <+: x → kv'.get x = kv.get x) :
    Represents tenID actorHash ids kv' (update family a m) where
  reads b hb l := by
    by_cases hab : b = a
    · subst hab
      rw [update_self, hreads]
    rw [update_of_ne hab, hframe, h.reads b hb]
    exact fun hp => hab ((getStage_inj hinj hb ha).mp
      (StageServer.doPrefix_unique (StageServer.doPrefix_prefix _ l) hp))
  written b hb x v hx hp := by
    by_cases hown : (getStage tenID actorHash a).doPrefix <+: x
    · rw [StageServer.doPrefix_unique hp hown]
      exact hwritten x v hx hown
    · exact h.written b hb x v (hframe x hown ▸ hx) hp

theorem put (k v : Bytes) : Represents tenID actorHash ids (kv.put ((getStage tenID actorHash a).doKey k) v)
    (update family a ((family a).put k v)) := by
  refine h.change hinj ha (fun l => ?_) (fun x w hx hp => ?_) fun x hx => ?_
  · simp only [Store.get_put, (StageServer.doKey_strictMono _).injective.eq_iff, h.reads a ha]
    congr
  · rw [Store.get_put] at hx
    split at hx
    · next he => exact ⟨k, he⟩
    · exact h.written a ha x w hx hp
  · rw [Store.get_put, if_neg]
    rintro rfl
    exact hx (StageServer.doPrefix_prefix _ k)

theorem del (k : Bytes) : Represents tenID actorHash ids (kv.del ((getStage tenID actorHash a).doKey k))
    (update family a ((family a).del k)) := by
  refine h.change hinj ha (fun l => ?_) (fun x w hx hp => ?_) fun x hx => ?_
  · simp only [Store.get_del, (StageServer.doKey_strictMono _).injective.eq_iff, h.reads a ha]
    congr
  · rw [Store.get_del] at hx
    exact h.written a ha x w (Option.ite_none_left_eq_some.mp hx).2 hp
  · rw [Store.get_del, if_neg]
    rintro rfl
    exact hx (StageServer.doPrefix_prefix _ k)

theorem delRange : Represents tenID actorHash ids (kv.delRange (getStage tenID actorHash a).doPrefix
    (prefixEnd (getStage tenID actorHash a).doPrefix)) (update family a Store.empty) := by
  refine h.change hinj ha (fun l => ?_) (fun x w hx hp => ?_) fun x hx => ?_
  · rw [Store.get_delRange, if_pos ((StageServer.doPrefix_span _ _).mpr (StageServer.doPrefix_prefix _ l)),
      Store.get_empty]
  · rw [Store.get_delRange] at hx
    exact h.written a ha x w (Option.ite_none_left_eq_some.mp hx).2 hp
  · rw [Store.get_delRange, if_neg fun hin => hx ((StageServer.doPrefix_span _ _).mp hin)]

end

section
variable (hinj : Set.InjOn actorHash ids) (ha : a ∈ ids)
include hinj ha

theorem puts : ∀ (entries : List (Bytes × Bytes))
    {kv : Store Bytes Bytes} {family : Bytes → Store Bytes Bytes}, Represents tenID actorHash ids kv family →
    Represents tenID actorHash ids (entries.foldl (fun kv e => kv.put ((getStage tenID actorHash a).doKey e.1) e.2) kv)
      (update family a (entries.foldl (fun m e => m.put e.1 e.2) (family a)))
  | [], kv, family, h => by simpa using h
  | e :: entries, kv, family, h => by
    have ih := puts entries (h.put hinj ha e.1 e.2)
    rwa [update_self, update_idem] at ih

theorem dels : ∀ (keys : List Bytes)
    {kv : Store Bytes Bytes} {family : Bytes → Store Bytes Bytes}, Represents tenID actorHash ids kv family →
    Represents tenID actorHash ids (keys.foldl (fun kv key => kv.del ((getStage tenID actorHash a).doKey key)) kv)
      (update family a (keys.foldl (fun m key => m.del key) (family a)))
  | [], kv, family, h => by simpa using h
  | k :: keys, kv, family, h => by
    have ih := dels keys (h.del hinj ha k)
    rwa [update_self, update_idem] at ih

/-- Whatever is called, the caller's map changes as specified, or not at all if the call
    is refused, and no other does. -/
theorem handle (h : Represents tenID actorHash ids kv family) (call : Call) :
    Represents tenID actorHash ids ((getStage tenID actorHash a).handle kv call).1
      (update family a (Contents.after (family a) call)) := by
  rw [Contents.after]
  cases call with
  | put entries =>
    rw [StageServer.handle_put]
    by_cases hkeys : (entries.map Prod.fst).Nodup
    · simpa [Call.distinct, hkeys, Contents.apply] using h.puts hinj ha entries
    · simpa [Call.distinct, hkeys] using h
  | delete keys =>
    rw [StageServer.handle_delete]
    by_cases hkeys : keys.Nodup
    · simpa [Call.distinct, hkeys, Contents.apply] using h.dels hinj ha keys
    · simpa [Call.distinct, hkeys] using h
  | deleteAll => exact h.delRange hinj ha
  | get _ | getMultiple _ | list _ _ _ _ _ => simpa [StageServer.handle, Contents.apply] using h

end

end Represents

/-! Listings. -/

theorem listLimit_pos (limit : Int32) : 0 < listLimit limit := by
  unfold listLimit maxListLimit
  dsimp only
  split <;> split <;> omega

theorem bounds_fst_le (s : StageServer) (start end_ k : Bytes) :
    (s.bounds start end_).1 ≤ s.doKey k ↔ start ≤ k := by
  simp only [StageServer.bounds]
  split
  · exact s.doKey_strictMono.le_iff_le
  rename_i hnil
  simp only [not_not] at hnil
  subst hnil
  exact iff_of_true (prefix_le (s.doPrefix_prefix k)) (prefix_le nil_prefix)

theorem lt_bounds_snd (s : StageServer) (start end_ k : Bytes) :
    s.doKey k < (s.bounds start end_).2 ↔ end_ = [] ∨ k < end_ := by
  simp only [StageServer.bounds]
  split
  · rename_i hne
    simp [hne, s.doKey_lt]
  rename_i hnil
  simp only [not_not] at hnil
  simp [hnil, ((s.doPrefix_span _).mpr (s.doPrefix_prefix k)).2]

/-- The KV layer accepts a listing's range unless it has an end that its start is not
    below. -/
theorem bounds_lt_iff (s : StageServer) (start end_ : Bytes) :
    (s.bounds start end_).1 < (s.bounds start end_).2 ↔ end_ = [] ∨ start < end_ := by
  cases start with
  | cons c start =>
    have hfst : (s.bounds (c :: start) end_).1 = s.doKey (c :: start) := rfl
    rw [hfst, lt_bounds_snd]
  | nil =>
    have hlt : (s.bounds [] end_).1 < (s.bounds [] end_).2 := by
      have hfirst : s.doPrefix < s.doKey [] := s.doKey_eq [] ▸ lt_append_cons _ _ _
      cases end_ with
      | nil => exact ((s.doPrefix_span _).mpr prefix_rfl).2
      | cons c rest => exact lt_trans hfirst (s.doKey_lt.mpr (nil_lt_cons c rest))
    refine iff_of_true hlt ?_
    cases end_ with
    | nil => exact .inl rfl
    | cons c rest => exact .inr (nil_lt_cons c rest)

theorem mem_entriesIn {m : Store Bytes Bytes} {start end_ : Bytes} {e : Bytes × Bytes} :
    e ∈ Contents.entriesIn m start end_ ↔ m.get e.1 = some e.2 ∧ start ≤ e.1 ∧ (end_ = [] ∨ e.1 < end_) := by
  rw [Contents.entriesIn, Store.get, m.ascending.find?_eq_some_iff]
  simp

theorem bounds_within (s : StageServer) {start end_ x : Bytes} (hlo : (s.bounds start end_).1 ≤ x)
    (hhi : x < (s.bounds start end_).2) : s.doPrefix <+: x := by
  apply (s.doPrefix_span x).mp
  constructor
  · refine le_trans ?_ hlo
    simp only [StageServer.bounds]
    split
    · exact prefix_le (s.doPrefix_prefix start)
    · exact le_refl _
  refine lt_of_lt_of_le hhi ?_
  simp only [StageServer.bounds]
  split
  · exact le_of_lt ((s.doPrefix_span _).mpr (s.doPrefix_prefix end_)).2
  · exact le_refl _

theorem decodeRows_doKey (s : StageServer) : ∀ es : List (Bytes × Bytes),
    s.decodeRows (es.map fun e => (s.doKey e.1, e.2)) = .ok es
  | [] => rfl
  | e :: es => by
    have ih := decodeRows_doKey s es
    have hd : decodeBytesAscending ((s.doKey e.1).drop s.doPrefix.length) [] = .ok ([], e.1) := by
      rw [s.doKey_eq]
      simpa using decodeBytesAscending_bytesAscending e.1 []
    rw [StageServer.decodeRows] at ih ⊢
    rw [map_cons, mapM_cons, hd, ih]
    rfl

section Rows
variable {kv : Store Bytes Bytes} {family : Bytes → Store Bytes Bytes} {a : Bytes} (ha : a ∈ ids)
  (h : Represents tenID actorHash ids kv family)
include ha h

/-- What a listing scans, before the limit: the actor's entries of the range. -/
theorem scan_bounds (start end_ : Bytes) :
    kv.scan ((getStage tenID actorHash a).bounds start end_).1 ((getStage tenID actorHash a).bounds start end_).2 =
      (Contents.entriesIn (family a) start end_).map fun e => ((getStage tenID actorHash a).doKey e.1, e.2) := by
  have hasc : Ascending ((Contents.entriesIn (family a) start end_).map
      fun e => ((getStage tenID actorHash a).doKey e.1, e.2)) := by
    refine List.Pairwise.map _ (fun e f hef => ?_) ((family a).ascending.filter _)
    exact (StageServer.doKey_lt _).mpr hef
  rw [Store.scan_eq_iff _ _ _ hasc]
  · intro x hlo hhi
    apply Option.ext
    intro v
    rw [hasc.find?_eq_some_iff, mem_map]
    constructor
    · intro hx
      obtain ⟨k, rfl⟩ := h.written a ha x v hx (bounds_within _ hlo hhi)
      rw [h.reads a ha] at hx
      exact ⟨(k, v), mem_entriesIn.mpr ⟨hx, (bounds_fst_le _ _ _ _).mp hlo, (lt_bounds_snd _ _ _ _).mp hhi⟩,
        rfl⟩
    · rintro ⟨⟨k, w⟩, hmem, he⟩
      obtain ⟨rfl, rfl⟩ := Prod.mk.inj he
      rw [h.reads a ha]
      exact (mem_entriesIn.mp hmem).1
  · intro b hb
    obtain ⟨e, hmem, rfl⟩ := mem_map.mp hb
    obtain ⟨-, hlo, hhi⟩ := mem_entriesIn.mp hmem
    exact ⟨(bounds_fst_le _ _ _ _).mpr hlo, (lt_bounds_snd _ start _ _).mpr hhi⟩

theorem list_eq (start end_ : Bytes) (limit : Int32) :
    (getStage tenID actorHash a).list kv start end_ limit =
      if end_ = [] ∨ start < end_ then
        .ok ((Contents.entriesIn (family a) start end_).take (listLimit limit))
      else errorf "storage error" := by
  simp only [StageServer.list, kvScan]
  by_cases hr : end_ = [] ∨ start < end_
  · rw [if_pos hr, if_pos ((bounds_lt_iff _ _ _).mpr hr), scan_bounds ha h, ← map_take]
    exact decodeRows_doKey _ _
  · rw [if_neg hr, if_neg fun hlt => hr ((bounds_lt_iff _ _ _).mp hlt)]
    rfl

end Rows

/-! Which listings are the specified ones. -/

section Cuts
variable {α : Type} {p : α → Bool}

theorem take_eq_take_filter_iff : ∀ (n : Nat) (l : List α), l.take n = (l.filter p).take n ↔ ∀ e ∈ l.take n, p e
  | 0, l => by simp
  | n + 1, [] => by simp
  | n + 1, e :: l => by
    by_cases he : p e
    · rw [filter_cons_of_pos he, take_succ_cons, take_succ_cons, List.cons.injEq, take_eq_take_filter_iff n l]
      simp [he]
    constructor
    · intro heq
      have hmem : e ∈ (l.filter p).take (n + 1) := by
        rw [filter_cons_of_neg he] at heq
        rw [← heq]
        exact mem_cons_self
      exact absurd (mem_filter.mp (mem_of_mem_take hmem)).2 he
    · intro hall
      exact absurd (hall e mem_cons_self) he

/-- Where the specified cut `m` is beyond the applied one, nothing past the applied cut may
    pass the filter. -/
theorem take_eq_take_filter_of_lt {n m : Nat} {l : List α} (hm : n < m ∨ l.length ≤ m) :
    l.take n = (l.filter p).take m ↔ (∀ e ∈ l.take n, p e) ∧ ∀ e ∈ l.drop n, ¬ p e := by
  have hsplit : l.filter p = (l.take n).filter p ++ (l.drop n).filter p := by
    rw [← filter_append, take_append_drop]
  constructor
  · intro heq
    have hall : ∀ e ∈ l.take n, p e := fun e he =>
      (mem_filter.mp (mem_of_mem_take (heq ▸ he))).2
    refine ⟨hall, fun e he hp => ?_⟩
    rw [hsplit, filter_eq_self.mpr hall] at heq
    have hn : n < l.length := by
      by_contra hge
      rw [drop_eq_nil_of_le (by omega)] at he
      cases he
    have hlen := congrArg List.length heq
    have hmem : e ∈ (l.drop n).filter p := mem_filter.mpr ⟨he, hp⟩
    have hpos := length_pos_of_mem hmem
    simp only [length_take, length_append] at hlen
    omega
  · rintro ⟨hall, hnone⟩
    rw [hsplit, filter_eq_self.mpr hall, filter_eq_nil_iff.mpr (by simpa using hnone), append_nil]
    exact (take_of_length_le (by rw [length_take]; omega)).symm

/-- A listing that runs the wrong way is right only when it has one entry at most. -/
theorem take_eq_take_reverse_iff {n m : Nat} {l : List α} (hl : l.Nodup) (hn : 0 < n) (hm : 0 < m) :
    l.take n = (l.filter p).reverse.take m ↔
      (∀ e ∈ l.take n, p e) ∧ (∀ e ∈ l.drop n, ¬ p e) ∧ (l.take n).length ≤ 1 := by
  obtain ⟨n, rfl⟩ := Nat.exists_eq_add_one.mpr hn
  obtain ⟨m, rfl⟩ := Nat.exists_eq_add_one.mpr hm
  cases l with
  | nil => simp
  | cons a l =>
    rw [take_succ_cons]
    obtain ⟨hal, -⟩ := nodup_cons.mp hl
    constructor
    · intro heq
      have hpa : p a := by
        have hmem : a ∈ ((a :: l).filter p).reverse :=
          mem_of_mem_take (heq ▸ mem_cons_self)
        exact (mem_filter.mp (mem_reverse.mp hmem)).2
      rw [filter_cons_of_pos hpa, reverse_cons] at heq
      cases hf : (l.filter p).reverse with
      | cons b rest =>
        -- the last entry that passes the filter would be the first one listed
        rw [hf, cons_append, take_succ_cons, List.cons.injEq] at heq
        have hb : b ∈ l.filter p := mem_reverse.mp (hf ▸ mem_cons_self)
        exact absurd (heq.1 ▸ (mem_filter.mp hb).1) hal
      | nil =>
        have hnone : ∀ e ∈ l, ¬ p e := by
          simpa using filter_eq_nil_iff.mp (reverse_eq_nil_iff.mp hf)
        rw [hf, nil_append, take_succ_cons, List.cons.injEq] at heq
        rw [heq.2]
        exact ⟨by simpa using hpa, fun e he => hnone e (mem_of_mem_drop he), by simp⟩
    · rintro ⟨hall, hnone, hlen⟩
      have htake : l.take n = [] := by
        simpa using hlen
      have hpa : p a := hall a mem_cons_self
      have hrest : l.filter p = [] := by
        rw [← take_append_drop n l, htake]
        exact filter_eq_nil_iff.mpr (by simpa using hnone)
      rw [htake, filter_cons_of_pos hpa, hrest]
      simp

end Cuts

/-- A listing is the specified one exactly when it is `Served`, apart from the range. -/
theorem take_eq_listed_iff (m : Store Bytes Bytes) (start end_ : Bytes) (limit : Int32) (reverse : Bool) (pre : Bytes) :
    (Contents.entriesIn m start end_).take (listLimit limit) = Contents.listed m start end_ limit reverse pre ↔
      (∀ e ∈ (Contents.entriesIn m start end_).take (listLimit limit), pre <+: e.1) ∧
      (reverse ∨ ¬ (0 < limit.toInt ∧ limit.toInt ≤ maxListLimit) →
        ∀ e ∈ (Contents.entriesIn m start end_).drop (listLimit limit), ¬ pre <+: e.1) ∧
      (reverse → ((Contents.entriesIn m start end_).take (listLimit limit)).length ≤ 1) := by
  have hnodup : (Contents.entriesIn m start end_).Nodup := (m.ascending.filter _).nodup
  have hn := listLimit_pos limit
  rw [Contents.listed]
  generalize Contents.entriesIn m start end_ = es at *
  -- the specified cut, where no limit is a limit beyond the end
  obtain ⟨c, hc, hcut⟩ : ∃ c, (c = listLimit limit ∧ (0 < limit.toInt ∧ limit.toInt ≤ maxListLimit) ∨
      (listLimit limit < c ∨ es.length ≤ c) ∧ ¬ (0 < limit.toInt ∧ limit.toInt ≤ maxListLimit) ∧ 0 < c) ∧
      ∀ l : List (Bytes × Bytes), l.length ≤ es.length → Contents.cut limit l = l.take c := by
    unfold Contents.cut listLimit maxListLimit
    by_cases h0 : limit.toInt ≤ 0
    · refine ⟨es.length + 1, .inr ⟨.inr (by omega), by omega, by omega⟩, fun l hl => ?_⟩
      rw [if_pos h0, take_of_length_le (by omega)]
    refine ⟨limit.toInt.toNat, ?_, fun l _ => by rw [if_neg h0]⟩
    simp only [if_neg h0]
    by_cases hmax : limit.toInt ≤ 10000
    · exact .inl ⟨by rw [if_neg (by omega)], by omega, hmax⟩
    · exact .inr ⟨.inl (by omega), by omega, by omega⟩
  have hpre : ∀ e : Bytes × Bytes, pre.isPrefixOf e.1 = true ↔ pre <+: e.1 := fun e => isPrefixOf_iff_prefix
  have hlen : (es.filter fun e => pre.isPrefixOf e.1).length ≤ es.length := length_filter_le _ _
  cases reverse with
  | false =>
    simp only [Bool.false_eq_true, if_false, false_or, false_implies, and_true]
    rw [hcut _ hlen]
    rcases hc with ⟨rfl, hlim⟩ | ⟨hc, hlim, -⟩
    · rw [take_eq_take_filter_iff]
      simp only [hpre, hlim, not_true_eq_false, false_implies, and_true]
    · rw [take_eq_take_filter_of_lt hc]
      simp only [hpre, hlim, not_false_eq_true, true_implies]
  | true =>
    simp only [if_true, true_or, true_implies]
    rw [hcut _ (by rw [length_reverse]; exact hlen)]
    have hcpos : 0 < c := by
      rcases hc with ⟨rfl, -⟩ | ⟨-, -, hpos⟩
      · exact hn
      · exact hpos
    rw [take_eq_take_reverse_iff hnodup hn hcpos]
    simp only [hpre]

theorem length_eq_existing_iff (m : Store Bytes Bytes) (keys : List Bytes) :
    keys.length = (keys.dedup.filter fun k => (m.get k).isSome).length ↔ keys.Nodup ∧ ∀ k ∈ keys, (m.get k).isSome := by
  have hd := (dedup_sublist keys).length_le
  have hf := length_filter_le (fun k => (m.get k).isSome) keys.dedup
  constructor
  · intro heq
    have hdedup : keys.dedup = keys := (dedup_sublist keys).eq_of_length (by omega)
    refine ⟨dedup_eq_self.mp hdedup, ?_⟩
    rw [hdedup] at heq
    simpa using length_filter_eq_length_iff.mp heq.symm
  · rintro ⟨hnodup, hall⟩
    rw [hnodup.dedup, filter_eq_self.mpr (by simpa using hall)]

/-- A call is answered as specified exactly when it is `Served`. -/
theorem handle_reply_iff {kv : Store Bytes Bytes} {family : Bytes → Store Bytes Bytes}
    (ha : a ∈ ids) (h : Represents tenID actorHash ids kv family) (call : Call) :
    ((getStage tenID actorHash a).handle kv call).2 = .ok (Contents.apply (family a) call).2 ↔
      Served (family a) call := by
  cases call with
  | get key => simp [StageServer.handle, Contents.apply, Served, h.reads a ha]
  | put entries =>
    rw [StageServer.handle_put]
    split <;> simp_all [Contents.apply, Served, errorf]
  | getMultiple keys => simp [StageServer.handle, Contents.apply, Served, h.reads a ha]
  | delete keys =>
    rw [StageServer.handle_delete, Served]
    split
    · simp only [Contents.apply, Except.ok.injEq, Reply.numDeleted.injEq]
      exact length_eq_existing_iff (family a) keys
    · next hdup => simp [errorf, hdup]
  | deleteAll =>
    simp only [StageServer.handle, Contents.apply, Served, Except.ok.injEq, Reply.numDeleted.injEq]
    rw [eq_comm, length_eq_zero_iff]
  | list start end_ limit reverse pre =>
    simp only [StageServer.handle, Contents.apply, Served, list_eq ha h]
    by_cases hr : end_ = [] ∨ start < end_
    · rw [if_pos hr]
      have hok : (Reply.entries <$> (Except.ok ((Contents.entriesIn (family a) start end_).take
          (listLimit limit)) : Except Err _) =
            .ok (Reply.entries (Contents.listed (family a) start end_ limit reverse pre))) ↔
          (Contents.entriesIn (family a) start end_).take (listLimit limit) =
            Contents.listed (family a) start end_ limit reverse pre := by
        simp [Functor.map, Except.map]
      rw [hok, take_eq_listed_iff]
      simp only [hr, true_and]
    · simp [errorf, Functor.map, Except.map, hr]

/-! Runs. -/

/-- The KV map after a sequence of calls, and their replies. -/
def runCalls (tenID : TenantID) (actorHash : Bytes → ActorHash) :
    Store Bytes Bytes → List (Bytes × Call) → Store Bytes Bytes × List (Except Err Reply)
  | kv, [] => (kv, [])
  | kv, (a, call) :: calls =>
    let (kv, reply) := (getStage tenID actorHash a).handle kv call
    let (kv, replies) := runCalls tenID actorHash kv calls
    (kv, reply :: replies)

/-- What a call of the specification was made on, and its reply. -/
structure Answer where
  before : Store Bytes Bytes
  call : Call
  reply : Reply

/-- The same calls on independent maps; a refused one changes none. -/
def specCalls : (Bytes → Store Bytes Bytes) → List (Bytes × Call) →
    (Bytes → Store Bytes Bytes) × List Answer
  | family, [] => (family, [])
  | family, (a, call) :: calls =>
    let (last, answers) := specCalls (update family a (Contents.after (family a) call)) calls
    (last, ⟨family a, call, (Contents.apply (family a) call).2⟩ :: answers)

/-- The stage server against independent per-actor maps: after any calls by any actors the
    KV map represents the maps, and each reply is the specified one exactly when the call
    was `Served` on the caller's map at that point. -/
theorem represents_run (hinj : Set.InjOn actorHash ids) : ∀ (calls : List (Bytes × Call))
    {kv : Store Bytes Bytes} {family : Bytes → Store Bytes Bytes}, Represents tenID actorHash ids kv family →
    (∀ c ∈ calls, c.1 ∈ ids) →
    Represents tenID actorHash ids (runCalls tenID actorHash kv calls).1 (specCalls family calls).1 ∧
      List.Forall₂ (fun reply answer => reply = .ok answer.reply ↔ Served answer.before answer.call)
        (runCalls tenID actorHash kv calls).2 (specCalls family calls).2
  | [], kv, family, h, _ => ⟨h, .nil⟩
  | (a, call) :: calls, kv, family, h, hids => by
    have ha : a ∈ ids := hids (a, call) mem_cons_self
    obtain ⟨hlast, hreplies⟩ := represents_run hinj calls (h.handle hinj ha call) (forall_mem_cons.mp hids).2
    exact ⟨hlast, .cons (handle_reply_iff ha h call) hreplies⟩

end Refinement

theorem stage_server_refines (tenID : TenantID) (actorHash : Bytes → ActorHash) (ids : Set Bytes)
    (hinj : Set.InjOn actorHash ids) (calls : List (Bytes × Call)) (hids : ∀ c ∈ calls, c.1 ∈ ids) :
    Represents tenID actorHash ids (runCalls tenID actorHash Store.empty calls).1
        (specCalls (fun _ => Store.empty) calls).1 ∧
      List.Forall₂ (fun reply answer => reply = .ok answer.reply ↔ Served answer.before answer.call)
        (runCalls tenID actorHash Store.empty calls).2 (specCalls (fun _ => Store.empty) calls).2 :=
  represents_run hinj calls Represents.empty hids

/-- A stand-in for the hash that tells short names apart. -/
def paddedHash (name : Bytes) : ActorHash :=
  ⟨(name ++ List.replicate actorHashLen 0).take actorHashLen, by simp⟩

def systemTenant : TenantID := ⟨systemTenantID, by decide⟩

/-- Two actors that use the same user keys, an empty one and one with a NUL byte among them. -/
def sampleCalls : List (Bytes × Call) :=
  [([0x61], .put [([], [1]), ([0, 1], [2]), ([5], [3])]), ([0x62], .put [([5], [9])]),
    ([0x61], .delete [[5]]), ([0x62], .get [5]), ([0x61], .list [] [] 10 false [])]

theorem stage_server_refines_two_actors :
    Represents systemTenant paddedHash {[0x61], [0x62]} (runCalls systemTenant paddedHash Store.empty sampleCalls).1
        (specCalls (fun _ => Store.empty) sampleCalls).1 ∧
      List.Forall₂ (fun reply answer => reply = .ok answer.reply ↔ Served answer.before answer.call)
        (runCalls systemTenant paddedHash Store.empty sampleCalls).2
        (specCalls (fun _ => Store.empty) sampleCalls).2 := by
  have hne : paddedHash [0x61] ≠ paddedHash [0x62] := by decide
  refine stage_server_refines systemTenant paddedHash {[0x61], [0x62]} ?_ sampleCalls ?_
  · rintro x (rfl | rfl) y (rfl | rfl) hxy
    · rfl
    · exact absurd hxy hne
    · exact absurd hxy.symm hne
    · rfl
  · simp [sampleCalls]

/-- Deleting a key that is not there reports one deletion, deleting everything reports none,
    a reversed listing comes in ascending order, and a put with a key twice stores nothing. -/
theorem stage_server_miscounts :
    let stage := getStage systemTenant paddedHash [0x61]
    let stored := (stage.handle Store.empty (.put [([1], [1]), ([2], [2])])).1
    let m := (Contents.apply Store.empty (.put [([1], [1]), ([2], [2])])).1
    (stage.handle stored (.delete [[3]])).2 = .ok (.numDeleted 1) ∧
    (Contents.apply m (.delete [[3]])).2 = .numDeleted 0 ∧
    (stage.handle stored .deleteAll).2 = .ok (.numDeleted 0) ∧
    (Contents.apply m .deleteAll).2 = .numDeleted 2 ∧
    (stage.handle stored (.list [] [] 0 true [])).2 = .ok (.entries [([1], [1]), ([2], [2])]) ∧
    (Contents.apply m (.list [] [] 0 true [])).2 = .entries [([2], [2]), ([1], [1])] ∧
    (stage.handle stored (.put [([3], [3]), ([3], [4])])).2 = errorf "storage error" ∧
    (Contents.apply m (.put [([3], [3]), ([3], [4])])).2 = .done := by
  decide +kernel

end Ratel.Server
