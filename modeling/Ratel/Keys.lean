import Ratel.Encoding

/- Row keys (`pkg/keys`, `pkg/keysbase`). A SQL key is a tenant prefix, an optional
   actor prefix, the table and index ids, the encoded key columns and a suffix that
   names the column family, whose last byte says how long the suffix is.
   `GetRowPrefixLength` reads that byte to find where the row's prefix ends, and
   `EnsureSafeSplitKey` cuts there.

   Proven here: what `GetRowPrefixLength` computes on a primary-key prefix followed
   by any suffix, and that `[p, p.PrefixEnd())` holds exactly the keys that start
   with `p`. -/
namespace Ratel.Keys

open Ratel.Lib Ratel.Encoding

/-! Prefixes. -/

def tenantPrefixByte : UInt8 := 0xfe
def actorPrefixByte : UInt8 := 0xfb
def actorHashLen : Nat := 16

def systemTenantID : Nat := 1

def makeTenantID (id : Nat) : Except Err Nat :=
  if id = 0 then errorf "invalid tenant ID 0" else .ok id

def makeTenantPrefix (tenID : Nat) : Bytes :=
  if tenID = systemTenantID then [] else encodeUvarintAscending [tenantPrefixByte] tenID

def decodeTenantPrefix : Bytes → Except Err (Bytes × Nat)
  | [] => .ok ([], systemTenantID)
  | c :: rest =>
    if c ≠ tenantPrefixByte then .ok (c :: rest, systemTenantID)
    else do
      let (rem, tenID) ← decodeUvarintAscending rest
      let id ← makeTenantID tenID
      return (rem, id)

def makeActorPrefixFromHash (tenantPrefix hash : Bytes) : Bytes :=
  tenantPrefix ++ actorPrefixByte :: hash

/-- `DecodeActorPrefix`, with no hash when the key has no actor prefix. -/
def decodeActorPrefix : Bytes → Except Err (Bytes × Option Bytes)
  | [] => .ok ([], none)
  | c :: rest =>
    if c ≠ actorPrefixByte then .ok (c :: rest, none)
    else if (c :: rest).length < 1 + actorHashLen then
      errorf "malformed actor prefix: %q" [.bytes (c :: rest)]
    else .ok (rest.drop actorHashLen, some (rest.take actorHashLen))

/-! Column families and row prefixes. -/

def makeFamilyKey (key : Bytes) (famID : Nat) : Bytes :=
  if famID = 0 then encodeUvarintAscending key 0
  else
    let size := key.length
    let key := encodeUvarintAscending key famID
    encodeUvarintAscending key (key.length - size)

/-- The tail of `GetRowPrefixLength`, once tenant and actor prefixes are off: the
    length to strip from a key of length `n` is read from the last byte alone. -/
def stripFamilySuffix (key : Bytes) (n : Nat) (sqlKey : Bytes) : Except Err Nat := do
  let sqlN := sqlKey.length
  let colFamIDLenByte := sqlKey.drop (sqlN - 1)
  if ¬ peekTypeInt colFamIDLenByte then errorf "%s: not a valid table key" [.bytes key]
  else
    let (_, colFamIDLen) ← decodeUvarintAscending colFamIDLenByte
    if colFamIDLen > sqlN - 1 then errorf "%s: malformed table key" [.bytes key]
    else return n - colFamIDLen - 1

/-- `GetRowPrefixLength` after tenant and actor prefixes: the whole key unless table
    and index ids parse and something follows them. -/
def sqlKeyRowPrefixLength (key : Bytes) (n : Nat) (sqlKey : Bytes) : Except Err Nat :=
  if ¬ peekTypeInt sqlKey then .ok n
  else do
    let tableIDLen ← getUvarintLen sqlKey
    if ¬ peekTypeInt (sqlKey.drop tableIDLen) then return n
    else
      let indexIDLen ← getUvarintLen (sqlKey.drop tableIDLen)
      if tableIDLen + indexIDLen = sqlKey.length then return n
      else stripFamilySuffix key n sqlKey

def getRowPrefixLength (key : Bytes) : Except Err Nat :=
  match decodeTenantPrefix key with
  | .error _ => errorf "%s: not a valid table key" [.bytes key]
  | .ok (sqlKey, _) =>
    match decodeActorPrefix sqlKey with
    | .error _ => errorf "%s: not a valid table key" [.bytes key]
    | .ok (sqlKey, _) => sqlKeyRowPrefixLength key key.length sqlKey

def ensureSafeSplitKey (key : Bytes) : Except Err Bytes := do
  let idx ← getRowPrefixLength key
  return key.take idx

/-- The primary-key prefix of a row: whose it is, which index it is in, and the
    encoded key columns. -/
structure PrimaryKey where
  tenant : Nat
  actor : Option Bytes
  tableID : UInt32
  indexID : UInt32
  columns : Bytes
  tenant_valid : 0 < tenant ∧ tenant < 2 ^ 64
  actor_length : ∀ hash ∈ actor, hash.length = actorHashLen

/-- The part of a primary-key prefix after tenant and actor. -/
def PrimaryKey.sqlKey (pk : PrimaryKey) : Bytes :=
  uvarint pk.tableID.toNat ++ (uvarint pk.indexID.toNat ++ pk.columns)

/-- The bytes of a primary-key prefix, as `IndexPrefix` and `EncodeIndexKey` build them. -/
def PrimaryKey.bytes (pk : PrimaryKey) : Bytes :=
  (match pk.actor with
    | none => makeTenantPrefix pk.tenant
    | some hash => makeActorPrefixFromHash (makeTenantPrefix pk.tenant) hash) ++ pk.sqlKey

theorem uint32_toNat_lt_64 (n : UInt32) : n.toNat < 2 ^ 64 :=
  lt_trans n.toNat_lt (by decide)

/-- A `uint32` takes at most four payload bytes, so its varint's tag is below both
    prefix bytes. -/
theorem uvarint_uint32_head (n : UInt32) : ∃ h t, uvarint n.toNat = h :: t ∧ h.toNat ≤ 249 := by
  have hn := n.toNat_lt
  have hw : uvarintWidth n.toNat ≤ 4 := by
    unfold uvarintWidth
    repeat' split
    all_goals omega
  by_cases hs : n.toNat ≤ intSmall
  · refine ⟨_, _, uvarint_small hs, ?_⟩
    simp only [intSmall, intMax, intZero, intMin, intMaxWidth, UInt8.toNat_ofNat'] at *
    omega
  refine ⟨_, _, uvarint_large (by omega), ?_⟩
  simp only [intMax, UInt8.toNat_ofNat']
  omega

theorem decodeTenantPrefix_makeTenantPrefix {tenID : Nat} (h0 : 0 < tenID) (h : tenID < 2 ^ 64)
    {c : UInt8} (hc : c ≠ tenantPrefixByte) (rest : Bytes) :
    decodeTenantPrefix (makeTenantPrefix tenID ++ c :: rest) = .ok (c :: rest, tenID) := by
  unfold makeTenantPrefix
  split
  · rename_i hs
    simp [decodeTenantPrefix, hc, hs]
  simp only [encodeUvarintAscending, List.cons_append, List.nil_append, decodeTenantPrefix,
    ne_eq, not_true_eq_false, if_false]
  rw [decodeUvarintAscending_uvarint h]
  simp only [bind, Except.bind, makeTenantID, if_neg (Nat.ne_of_gt h0)]
  rfl

theorem decodeActorPrefix_hash {hash : Bytes} (h : hash.length = actorHashLen) (rest : Bytes) :
    decodeActorPrefix (actorPrefixByte :: (hash ++ rest)) = .ok (rest, some hash) := by
  rw [decodeActorPrefix, if_neg (by simp), if_neg (by simp only [List.length_cons, List.length_append]; omega),
    List.drop_left' h, List.take_left' h]

theorem sqlKeyRowPrefixLength_append (pk : PrimaryKey) {suffix : Bytes} (hs : suffix ≠ []) (key : Bytes) (n : Nat) :
    sqlKeyRowPrefixLength key n (pk.sqlKey ++ suffix) = stripFamilySuffix key n (pk.sqlKey ++ suffix) := by
  have hlen : 0 < suffix.length := List.length_pos_of_ne_nil hs
  simp only [sqlKeyRowPrefixLength, PrimaryKey.sqlKey, List.append_assoc, peekTypeInt_uvarint,
    getUvarintLen_uvarint, List.drop_left, not_true_eq_false, if_false, bind, Except.bind,
    List.length_append]
  rw [if_neg (by omega)]

/-- A row's keys reach the last step of `GetRowPrefixLength`: the prefixes strip off
    and the ids parse, whatever non-empty suffix follows. -/
theorem getRowPrefixLength_append (pk : PrimaryKey) {suffix : Bytes} (hs : suffix ≠ []) :
    getRowPrefixLength (pk.bytes ++ suffix) =
      stripFamilySuffix (pk.bytes ++ suffix) (pk.bytes ++ suffix).length (pk.sqlKey ++ suffix) := by
  obtain ⟨h, t, ht, hh⟩ := uvarint_uint32_head pk.tableID
  have hsql : pk.sqlKey ++ suffix = h :: (t ++ (uvarint pk.indexID.toNat ++ pk.columns) ++ suffix) := by
    simp [PrimaryKey.sqlKey, ht]
  have hne : ∀ b : UInt8, 249 < b.toNat → h ≠ b := by
    rintro b hb rfl; omega
  cases ha : pk.actor with
  | none =>
    have hb : pk.bytes ++ suffix = makeTenantPrefix pk.tenant ++ (pk.sqlKey ++ suffix) := by
      simp [PrimaryKey.bytes, ha]
    have hd : decodeTenantPrefix (pk.bytes ++ suffix) = .ok (pk.sqlKey ++ suffix, pk.tenant) := by
      rw [hb, hsql]
      exact decodeTenantPrefix_makeTenantPrefix pk.tenant_valid.1 pk.tenant_valid.2 (hne _ (by decide)) _
    have hact : decodeActorPrefix (pk.sqlKey ++ suffix) = .ok (pk.sqlKey ++ suffix, none) := by
      rw [hsql, decodeActorPrefix, if_pos (hne _ (by decide))]
    simp only [getRowPrefixLength, hd, hact]
    exact sqlKeyRowPrefixLength_append pk hs _ _
  | some hash =>
    have hb : pk.bytes ++ suffix =
        makeTenantPrefix pk.tenant ++ actorPrefixByte :: (hash ++ (pk.sqlKey ++ suffix)) := by
      simp [PrimaryKey.bytes, ha, makeActorPrefixFromHash]
    have hd : decodeTenantPrefix (pk.bytes ++ suffix) =
        .ok (actorPrefixByte :: (hash ++ (pk.sqlKey ++ suffix)), pk.tenant) := by
      rw [hb]
      exact decodeTenantPrefix_makeTenantPrefix pk.tenant_valid.1 pk.tenant_valid.2 (by decide) _
    simp only [getRowPrefixLength, hd, decodeActorPrefix_hash (pk.actor_length hash ha)]
    exact sqlKeyRowPrefixLength_append pk hs _ _

/-! The keys that start with a prefix. -/

def keyMax : Bytes := [0xff, 0xff]

/-- The loop of `PrefixEnd` from the last byte up: add one, and carry on while the
    byte wraps; `none` when every byte did. -/
def incrementLast : Bytes → Option Bytes
  | [] => none
  | c :: rest =>
    match incrementLast rest with
    | some e => some (c :: e)
    | none => if c + 1 ≠ 0 then some [c + 1] else none

def prefixEnd : Bytes → Bytes
  | [] => keyMax
  | c :: rest => (incrementLast (c :: rest)).getD (c :: rest)

def bytesNext (b : Bytes) : Bytes := b ++ [0]

theorem add_one_eq_zero_iff {c : UInt8} : c + 1 = 0 ↔ c = 0xff := by
  constructor
  · intro h
    have := congrArg UInt8.toNat h
    have hc := c.toNat_lt
    rw [UInt8.toNat_add] at this
    apply UInt8.toNat_inj.mp
    simp only [UInt8.toNat_one, UInt8.reduceToNat] at *
    omega
  · rintro rfl; rfl

theorem incrementLast_none : ∀ {b : Bytes}, incrementLast b = none → ∀ c ∈ b, c = 0xff
  | [], _, c, hc => by simp at hc
  | a :: b, h, c, hc => by
    rw [incrementLast] at h
    split at h
    · cases h
    rename_i hb
    split at h
    · cases h
    rename_i ha
    rcases List.mem_cons.mp hc with rfl | hc
    · exact add_one_eq_zero_iff.mp (not_not.mp ha)
    · exact incrementLast_none hb c hc

/-- Above a run of `0xff` bytes there are only its extensions. -/
theorem le_iff_prefix_of_max : ∀ {b x : Bytes}, (∀ c ∈ b, c = 0xff) → (b ≤ x ↔ b <+: x)
  | [], x, _ => by simp [prefix_le]
  | a :: b, [], _ => by simp
  | a :: b, d :: x, h => by
    have ha : a = 0xff := h a (by simp)
    have hd : ¬ a < d := by
      have := d.toNat_lt
      rw [uint8_lt_iff, ha]
      simp only [UInt8.reduceToNat]
      omega
    rw [cons_le_cons, List.cons_prefix_cons, le_iff_prefix_of_max (List.forall_mem_cons.mp h).2]
    simp [hd]

theorem between_incrementLast : ∀ {b e x : Bytes}, incrementLast b = some e → (b ≤ x ∧ x < e ↔ b <+: x)
  | [], e, x, h => by cases h
  | c :: b, e, [], h => by simp
  | c :: b, e, d :: x, h => by
    rw [incrementLast] at h
    split at h
    · rename_i e' he
      cases h
      rw [cons_le_cons, List.cons_lt_cons_iff, List.cons_prefix_cons, ← between_incrementLast he]
      constructor
      · rintro ⟨hcd | ⟨rfl, hle⟩, hdc | ⟨hdc, hlt⟩⟩
        · exact absurd hcd (lt_asymm hdc)
        · exact absurd (hdc ▸ hcd) (lt_irrefl _)
        · exact absurd hdc (lt_irrefl _)
        · exact ⟨rfl, hle, hlt⟩
      · rintro ⟨rfl, hle, hlt⟩
        exact ⟨.inr ⟨rfl, hle⟩, .inr ⟨rfl, hlt⟩⟩
    rename_i hb
    split at h
    · rename_i hc
      cases h
      have hd : d < c + 1 ↔ d ≤ c := by
        have hne : c.toNat ≠ 255 := fun h255 => hc (add_one_eq_zero_iff.mpr (UInt8.toNat_inj.mp h255))
        have := c.toNat_lt
        rw [uint8_lt_iff, uint8_le_iff, UInt8.toNat_add, UInt8.toNat_one]
        omega
      rw [cons_le_cons, List.cons_lt_cons_iff, List.cons_prefix_cons, hd, le_iff_prefix_of_max (incrementLast_none hb)]
      constructor
      · rintro ⟨hcd | ⟨rfl, hle⟩, hdc | ⟨-, hlt⟩⟩
        · exact absurd hcd (not_lt_of_ge hdc)
        · exact absurd hlt (by simp)
        · exact ⟨rfl, hle⟩
        · exact absurd hlt (by simp)
      · rintro ⟨rfl, hle⟩
        exact ⟨.inr ⟨rfl, hle⟩, .inl le_rfl⟩
    · cases h

/-- `[p, p.PrefixEnd())` is the set of keys that start with `p`, unless `p` is all
    `0xff`. -/
theorem mem_prefix_span_iff {p : Bytes} (hp : ∃ c ∈ p, c ≠ 0xff) (x : Bytes) :
    p ≤ x ∧ x < prefixEnd p ↔ p <+: x := by
  obtain ⟨c, hc, hne⟩ := hp
  cases p with
  | nil => simp at hc
  | cons a p =>
    cases he : incrementLast (a :: p) with
    | none => exact absurd (incrementLast_none he c hc) hne
    | some e =>
      rw [prefixEnd, he]
      exact between_incrementLast he

end Ratel.Keys
