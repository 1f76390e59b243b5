import Ratel.Encoding.Bytes
import Ratel.Keys

/- Keys of the lock table: a local prefix, an infix for locks of single keys, and the locked key in
   the escaped encoding. The locked key is not unwrapped, so it may be local itself. -/
namespace Ratel.Keys

open Ratel.Lib Ratel.Encoding

def localPrefixByte : UInt8 := 0x01

def localRangeLockTablePrefix : Bytes := [localPrefixByte, 0x7a]

/-- The letter k. -/
def lockTableSingleKeyInfix : Bytes := [0x6b]

/-- The buffer size `LockTableSingleKey` asks for. -/
def lockTableSingleKeyLen (key : Bytes) : Nat :=
  localRangeLockTablePrefix.length + lockTableSingleKeyInfix.length + encodeBytesSize key

/-- The buffer size `LockTableSingleNextKey` asks for. -/
def lockTableSingleNextKeyLen (key : Bytes) : Nat :=
  localRangeLockTablePrefix.length + lockTableSingleKeyInfix.length + encodeNextBytesSize key

/-- `LockTableSingleKey`; the scratch buffer is overwritten and does not show in the result. -/
def lockTableSingleKey (key : Bytes) : Bytes :=
  encodeBytesAscending (localRangeLockTablePrefix ++ lockTableSingleKeyInfix) key

def lockTableSingleNextKey (key : Bytes) : Bytes :=
  encodeNextBytesAscending (localRangeLockTablePrefix ++ lockTableSingleKeyInfix) key

def decodeLockTableSingleKey (key : Bytes) : Except Err Bytes :=
  if ¬ localRangeLockTablePrefix <+: key then
    errorf "key %q does not have %q prefix" [.bytes key, .bytes localRangeLockTablePrefix]
  else
    let b := key.drop localRangeLockTablePrefix.length
    if ¬ lockTableSingleKeyInfix <+: b then errorf "key %q is not for a single-key lock" [.bytes key]
    else do
      let (rest, lockedKey) ← decodeBytesAscending (b.drop lockTableSingleKeyInfix.length) []
      if rest.length ≠ 0 then
        errorf "key %q has left-over bytes %d after decoding" [.bytes key, .int rest.length]
      else .ok lockedKey

theorem decodeLockTableSingleKey_lockTableSingleKey (key : Bytes) :
    decodeLockTableSingleKey (lockTableSingleKey key) = .ok key := by
  have hdec := decodeBytesAscending_bytesAscending key []
  rw [List.append_nil] at hdec
  unfold decodeLockTableSingleKey
  rw [lockTableSingleKey, encodeBytesAscending_eq, List.append_assoc]
  simp only [List.drop_left]
  rw [hdec]
  rfl

theorem lockTableSingleKey_lt_iff (x y : Bytes) : lockTableSingleKey x < lockTableSingleKey y ↔ x < y := by
  rw [lockTableSingleKey, lockTableSingleKey, bytesLaws.ascending_append, bytesLaws.ascending_append _ y,
    ← bytesLaws.ascending_lt x y]
  simp [localRangeLockTablePrefix, lockTableSingleKeyInfix]

theorem lockTableSingleNextKey_eq (key : Bytes) :
    lockTableSingleNextKey key = lockTableSingleKey (bytesNext key) :=
  bytesLaws.next_eq _ key

/-- The encoding of byte strings, and the lock table keys made with it. -/
theorem bytes_lockTable_laws :
    BytesLaws ∧ (∀ x y, lockTableSingleKey x < lockTableSingleKey y ↔ x < y) ∧
      (∀ x, decodeLockTableSingleKey (lockTableSingleKey x) = .ok x) ∧
      (∀ x, lockTableSingleNextKey x = lockTableSingleKey (bytesNext x)) ∧
      (∀ x, (lockTableSingleKey x).length = lockTableSingleKeyLen x ∧
        (lockTableSingleNextKey x).length = lockTableSingleNextKeyLen x) := by
  refine ⟨bytesLaws, lockTableSingleKey_lt_iff, decodeLockTableSingleKey_lockTableSingleKey,
    lockTableSingleNextKey_eq, fun x => ⟨?_, ?_⟩⟩
  · rw [lockTableSingleKey, bytesLaws.size_ascending]
    rfl
  · rw [lockTableSingleNextKey, bytesLaws.size_next]
    rfl

theorem bytes_lockTable_laws_zero :
    encodeBytesAscending [] [0] ++ [7] < encodeBytesAscending [] [0, 0] ++ [] ∧
      encodeBytesDescending [] [0, 0] ++ [] < encodeBytesDescending [] [0] ++ [7] :=
  ⟨(bytes_lockTable_laws.1.ascending_suffix_lt [0] [0, 0] [7] [] (by decide)).mpr (by decide),
    (bytes_lockTable_laws.1.descending_suffix_lt [0, 0] [0] [] [7] (by decide)).mpr (by decide)⟩

end Ratel.Keys
