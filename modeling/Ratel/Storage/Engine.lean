import Mathlib.Order.OrderDual
import Mathlib.Data.Prod.Lex
import Ratel.Encoding
import Ratel.Lib.Store

/- The contents of an MVCC engine: for every user key an optional metadata record and
   the versions of its value, newest first, and across the keys the MVCC range
   tombstones. An intent is a metadata record with a transaction; its provisional value
   is the version at the intent's timestamp. `Consistent` collects the invariants every
   writer keeps: an intent sits on the newest version of its key, no range tombstone is
   at or above it, and the fragments of the range tombstones are disjoint. -/
namespace Ratel.Storage

open Encoding Lib

/-- An hlc timestamp as one number, `wall * 2 ^ 31 + logical`: order, `Next` and `Prev`
    of timestamps are those of the numbers, and the empty timestamp is zero. -/
abbrev Timestamp := Nat

def Timestamp.wallTime (ts : Timestamp) : Nat := ts / 2 ^ 31

/-- `TxnSeq`, the sequence number of a write within its transaction. -/
abbrev TxnSeq := Int

/-- The part of a transaction that its intents carry. `rest` stands for the fields that
    only take room in the encoded record. -/
structure TxnMeta where
  id : Nat
  epoch : Nat
  sequence : TxnSeq
  writeTimestamp : Timestamp
  rest : Bytes
deriving DecidableEq, Repr

/-- A range of sequence numbers whose writes a transaction has rolled back. -/
structure IgnoredSeqNumRange where
  start : TxnSeq
  stop : TxnSeq
deriving DecidableEq, Repr

/-- `TxnSeqIsIgnored`: look from the last range down to the first that starts at or
    below the sequence number, and only there. -/
def txnSeqIsIgnored (seq : TxnSeq) (ignored : List IgnoredSeqNumRange) : Bool := go ignored.reverse
where
  go : List IgnoredSeqNumRange → Bool
    | [] => false
    | r :: rest => if seq < r.start then go rest else decide (seq ≤ r.stop)

/-- A transaction as a reader or writer. Its writes are never below its reads: the write
    timestamp starts at the read timestamp and is only pushed away from it. -/
structure Transaction extends TxnMeta where
  readTimestamp : Timestamp
  ignoredSeqNums : List IgnoredSeqNumRange
  read_le_write : readTimestamp ≤ writeTimestamp
deriving DecidableEq, Repr

/-- A versioned value. A tombstone has no bytes. -/
structure MVCCValue where
  localTimestamp : Timestamp
  rawBytes : Bytes
deriving DecidableEq, Repr

def MVCCValue.isTombstone (v : MVCCValue) : Bool := v.rawBytes.isEmpty

/-- An earlier write of the transaction that holds an intent. -/
structure SequencedIntent where
  sequence : TxnSeq
  value : MVCCValue
deriving DecidableEq, Repr

/-- The record at the empty timestamp of a key: an intent, or an inline value. -/
structure MVCCMetadata where
  txn : Option TxnMeta
  timestamp : Timestamp
  deleted : Bool
  keyBytes : Int
  valBytes : Int
  rawBytes : Bytes
  intentHistory : List SequencedIntent
  txnDidNotUpdateMeta : Bool
deriving DecidableEq, Repr

/-- What the engine holds for one user key. -/
structure KeyState where
  metadata : Option MVCCMetadata
  versions : Store Timestampᵒᵈ MVCCValue

namespace KeyState

def version (ks : KeyState) (ts : Timestamp) : Option MVCCValue := ks.versions.get (OrderDual.toDual ts)

/-- The versions, newest first. -/
def history (ks : KeyState) : List (Timestamp × MVCCValue) := ks.versions.entries

theorem history_descending (ks : KeyState) : ks.history.Pairwise fun a b => b.1 < a.1 := ks.versions.ascending

theorem version_eq_some_iff {ks : KeyState} {ts : Timestamp} {v : MVCCValue} :
    ks.version ts = some v ↔ (ts, v) ∈ ks.history := ks.versions.ascending.find?_eq_some_iff

end KeyState

/-! Range tombstones. -/

structure RangeKeyVersion where
  timestamp : Timestamp
  value : MVCCValue
deriving DecidableEq, Repr

/-- A fragment of the range tombstones: its bounds and its versions, newest first. -/
structure RangeKeyStack where
  key : Bytes
  endKey : Bytes
  versions : List RangeKeyVersion
deriving DecidableEq, Repr

namespace RangeKeyStack

def Covers (s : RangeKeyStack) (k : Bytes) : Prop := s.key ≤ k ∧ k < s.endKey

instance (s : RangeKeyStack) (k : Bytes) : Decidable (s.Covers k) := by unfold Covers; infer_instance

def newest (s : RangeKeyStack) : Timestamp := (s.versions.head?.map (·.timestamp)).getD 0

/-- `FirstAtOrBelow`: the newest version at or below a timestamp. -/
def firstAtOrBelow (s : RangeKeyStack) (ts : Timestamp) : Option RangeKeyVersion :=
  s.versions.find? fun v => decide (v.timestamp ≤ ts)

/-- `FirstAtOrAbove`: the oldest version at or above a timestamp. -/
def firstAtOrAbove (s : RangeKeyStack) (ts : Timestamp) : Option RangeKeyVersion :=
  (s.versions.takeWhile fun v => decide (ts ≤ v.timestamp)).getLast?

/-- A fragment is a nonempty interval with descending versions, all of them tombstones. -/
structure Valid (s : RangeKeyStack) : Prop where
  bounds : s.key < s.endKey
  nonempty : s.versions ≠ []
  descending : s.versions.Pairwise fun a b => b.timestamp < a.timestamp
  tombstones : ∀ v ∈ s.versions, v.value.rawBytes = []

end RangeKeyStack

/-- The range tombstones of an engine, in disjoint fragments. -/
structure RangeKeys where
  fragments : List RangeKeyStack
  valid : ∀ s ∈ fragments, s.Valid
  apart : fragments.Pairwise fun a b => a.endKey ≤ b.key

namespace RangeKeys

def empty : RangeKeys := ⟨[], by simp, .nil⟩

/-- The fragment over a key. -/
def at? (r : RangeKeys) (k : Bytes) : Option RangeKeyStack := r.fragments.find? fun s => decide (s.Covers k)

theorem covers_unique : ∀ {l : List RangeKeyStack}, l.Pairwise (fun a b => a.endKey ≤ b.key) →
    ∀ {s t : RangeKeyStack}, s ∈ l → t ∈ l → ∀ {k : Bytes}, s.Covers k → t.Covers k → s = t
  | [], _, s, _, hs, _, _, _, _ => absurd hs List.not_mem_nil
  | a :: l, h, s, t, hs, ht, k, hsk, htk => by
    obtain ⟨ha, hl⟩ := List.pairwise_cons.mp h
    -- Two fragments over one key cannot be apart.
    have clash : ∀ {b c : RangeKeyStack}, b.endKey ≤ c.key → b.Covers k → c.Covers k → False :=
      fun hbc hb hc => absurd (lt_of_lt_of_le hb.2 hbc) (not_lt.mpr hc.1)
    rcases List.mem_cons.mp hs with rfl | hs'
    · rcases List.mem_cons.mp ht with rfl | ht'
      · rfl
      · exact (clash (ha t ht') hsk htk).elim
    rcases List.mem_cons.mp ht with rfl | ht'
    · exact (clash (ha s hs') htk hsk).elim
    · exact covers_unique hl hs' ht' hsk htk

theorem at?_eq_some_iff (r : RangeKeys) {k : Bytes} {s : RangeKeyStack} :
    r.at? k = some s ↔ s ∈ r.fragments ∧ s.Covers k := by
  refine ⟨fun h => ⟨List.mem_of_find?_eq_some h, by simpa using List.find?_some h⟩, fun h => ?_⟩
  cases hf : r.at? k with
  | none =>
    have hn := List.find?_eq_none.mp hf s h.1
    simp [h.2] at hn
  | some t =>
    have ht : t ∈ r.fragments ∧ t.Covers k := ⟨List.mem_of_find?_eq_some hf, by simpa using List.find?_some hf⟩
    rw [covers_unique r.apart h.1 ht.1 h.2 ht.2]

end RangeKeys

/-! Engines. -/

structure Engine where
  keys : Store Bytes KeyState
  ranges : RangeKeys

/-- The invariant between a key's metadata and versions, if it holds any, and the fragment
    over it. -/
structure KeyState.Sound (ks : KeyState) (range : Option RangeKeyStack) : Prop where
  positive : ∀ e ∈ ks.history, 0 < e.1
  intent : ∀ m, ks.metadata = some m → m.rawBytes = [] → ∃ t v older,
    m.txn = some t ∧ ks.history = (m.timestamp, v) :: older ∧ ∀ s, range = some s → s.newest < m.timestamp
  inline : ∀ m, ks.metadata = some m → m.rawBytes ≠ [] → ks.history = []

structure KeyState.Consistent (ks : KeyState) (range : Option RangeKeyStack) : Prop extends ks.Sound range where
  inhabited : ks.metadata = none → ks.history ≠ []

/-- An engine every writer leaves behind: user keys are not empty, and the records of
    each key are consistent. -/
structure Engine.Consistent (e : Engine) : Prop where
  nonempty : ∀ k ks, e.keys.get k = some ks → k ≠ []
  key : ∀ k ks, e.keys.get k = some ks → ks.Consistent (e.ranges.at? k)

end Ratel.Storage
