import Ratel.Encoding.Bytes
import Ratel.Keys

/- Actor-scoped keys (`pkg/keys/sql.go`). An actor's table data lives under the tenant's
   prefix followed by a marker byte and the actor's 16-byte hash. The marker lies inside
   the range of varint tags, so what keeps actor data apart from table data is that no
   `uint32` table id needs a tag that high.

   Proven here: an actor's span holds exactly the keys under its prefix, and what was put
   into a key is decoded from it. `IsInteriorActorSplitKey` answers for the key it rebuilds
   from the decoded tenant id, which is the key it was given only if the id was encoded the
   way `MakeTenantPrefix` encodes it. -/
namespace Ratel.Keys

open Ratel.Lib Ratel.Encoding List

/-- A `roachpb.TenantID` that `MakeTenantID` accepts. -/
abbrev TenantID := { id : Nat // 0 < id ∧ id < 2 ^ 64 }

/-- `[ActorHashLen]byte`. -/
abbrev ActorHash := { hash : Bytes // hash.length = actorHashLen }

structure Span where
  key : Bytes
  endKey : Bytes
deriving DecidableEq, Repr

def Span.Contains (span : Span) (k : Bytes) : Prop := span.key ≤ k ∧ k < span.endKey

/-! Building keys. -/

def TenantID.tenantPrefix (tenID : TenantID) : Bytes := makeTenantPrefix tenID.val

/-- `TablePrefix` of a codec with the given tenant prefix. -/
def tablePrefix (tenantPrefix : Bytes) (tableID : UInt32) : Bytes :=
  encodeUvarintAscending tenantPrefix tableID.toNat

/-- `IndexPrefix` of a codec with the given tenant prefix. -/
def indexPrefix (tenantPrefix : Bytes) (tableID indexID : UInt32) : Bytes :=
  encodeUvarintAscending (tablePrefix tenantPrefix tableID) indexID.toNat

/-- The table id that Durable Object storage entries are written under. -/
def dokvTableID : Nat := 51

def makeDOKVPrefix (tenantPrefix actorHash : Bytes) : Bytes :=
  encodeUvarintAscending (encodeUvarintAscending (makeActorPrefixFromHash tenantPrefix actorHash) dokvTableID) 1

def makeDOKVKey (tenantPrefix actorHash userKey : Bytes) : Bytes :=
  encodeBytesAscending (encodeUvarintAscending (encodeUvarintAscending
    (makeActorPrefixFromHash tenantPrefix actorHash) dokvTableID) 1) userKey

/-! Reading them back. -/

def actorPrefixFromKey (key : Bytes) : Except Err (Option Bytes) := do
  let (rem, tenID) ← decodeTenantPrefix key
  match rem with
  | [] => return none
  | c :: rest =>
    if c ≠ actorPrefixByte then return none
    else if (c :: rest).length < 1 + actorHashLen then
      errorf "malformed actor prefix: %q" [.bytes key]
    else return some (makeTenantPrefix tenID ++ (c :: rest).take (1 + actorHashLen))

def actorSpanFromKey (key : Bytes) : Except Err (Option Span) := do
  let pre ← actorPrefixFromKey key
  return pre.map fun p => ⟨p, prefixEnd p⟩

def isInteriorActorSplitKey (key : Bytes) : Except Err Bool := do
  match ← actorSpanFromKey key with
  | none => return false
  | some span => return key ≠ span.key && key ≠ span.endKey

/-- `DecodeTableIDIndexID`: the ids are cut to 32 bits. -/
def decodeTableIDIndexID (key : Bytes) : Except Err (Bytes × UInt32 × UInt32) := do
  let (key, _) ← decodeActorPrefix key
  let (key, tableID) ← decodeUvarintAscending key
  let (key, indexID) ← decodeUvarintAscending key
  return (key, UInt32.ofNat tableID, UInt32.ofNat indexID)

/-! Whose key a key is. -/

def actorPrefix (tenID : TenantID) (hash : ActorHash) : Bytes :=
  makeActorPrefixFromHash tenID.tenantPrefix hash.val

def actorSpan (tenID : TenantID) (hash : ActorHash) : Span :=
  ⟨actorPrefix tenID hash, prefixEnd (actorPrefix tenID hash)⟩

/-- A key of the tenant: under its prefix or, for the system tenant, under no tenant's. -/
def TenantKey (tenID : TenantID) (k : Bytes) : Prop :=
  if tenID.val = systemTenantID then k.head? ≠ some tenantPrefixByte
  else tenID.tenantPrefix <+: k

/-- The key is in some actor's span, and not its first key. -/
def StrictlyInside (k : Bytes) : Prop :=
  ∃ tenID hash, (actorSpan tenID hash).key < k ∧ k < (actorSpan tenID hash).endKey

/-- If the key decodes to an actor's key, then it is the key `MakeTenantPrefix` and the
    decoded rest make again. -/
def CanonicalTenant (k : Bytes) : Prop :=
  ∀ rem tenID, decodeTenantPrefix k = .ok (rem, tenID) → rem.head? = some actorPrefixByte →
    1 + actorHashLen ≤ rem.length → makeTenantPrefix tenID ++ rem = k

theorem fromBigEndian_lt : ∀ b : Bytes, fromBigEndian b < 256 ^ b.length := by
  intro b
  induction b using List.reverseRecOn with
  | nil => decide
  | append_singleton b c ih =>
    have hc := c.toNat_lt
    simp only [fromBigEndian, foldl_append, foldl_cons, foldl_nil,
      length_append, length_singleton, Nat.pow_succ] at ih ⊢
    omega

/-- A decoded varint is a `uint64`. -/
theorem decodeUvarintAscending_lt {b r : Bytes} {v : Nat} (h : decodeUvarintAscending b = .ok (r, v)) :
    v < 2 ^ 64 := by
  cases b with
  | nil => cases h
  | cons b0 b =>
    simp only [decodeUvarintAscending] at h
    split at h
    · simp only [Except.ok.injEq, Prod.mk.injEq] at h
      omega
    split at h
    · cases h
    split at h
    · cases h
    obtain ⟨-, rfl⟩ := h
    refine lt_of_lt_of_le (fromBigEndian_lt _) ?_
    have hw : (b.take ((b0.toNat : Int) - intZero - intSmall).toNat).length ≤ 8 := by
      rw [length_take]
      omega
    exact Nat.pow_le_pow_right (by decide) hw

variable {k rest : Bytes} {tenID : TenantID} {hash : ActorHash}

theorem decodeTenantPrefix_valid {rem : Bytes} {tenID : Nat}
    (h : decodeTenantPrefix k = .ok (rem, tenID)) : 0 < tenID ∧ tenID < 2 ^ 64 := by
  cases k with
  | nil => simp only [decodeTenantPrefix, Except.ok.injEq, Prod.mk.injEq] at h; simp [← h.2, systemTenantID]
  | cons c rest =>
    rw [decodeTenantPrefix] at h
    split at h
    · simp only [Except.ok.injEq, Prod.mk.injEq] at h
      simp [← h.2, systemTenantID]
    obtain ⟨⟨r, v⟩, hv, h⟩ := exists_of_bind_ok h
    obtain ⟨id, hid, h⟩ := exists_of_bind_ok h
    simp only [makeTenantID] at hid
    split at hid
    · cases hid
    cases hid
    cases h
    exact ⟨Nat.pos_of_ne_zero ‹_›, decodeUvarintAscending_lt hv⟩

theorem TenantKey.decode (h : TenantKey tenID k) :
    ∃ rem, decodeTenantPrefix k = .ok (rem, tenID.val) ∧ tenID.tenantPrefix ++ rem = k := by
  unfold TenantKey at h
  split at h
  · rename_i hs
    cases k with
    | nil => exact ⟨[], by simp [decodeTenantPrefix, hs], by simp [TenantID.tenantPrefix, makeTenantPrefix, hs]⟩
    | cons c rest =>
      have hc : c ≠ tenantPrefixByte := by simpa using h
      exact ⟨c :: rest, by rw [decodeTenantPrefix, if_pos hc, hs],
        by simp [TenantID.tenantPrefix, makeTenantPrefix, hs]⟩
  rename_i hs
  obtain ⟨rem, rfl⟩ := h
  refine ⟨rem, ?_, rfl⟩
  have hp : tenID.tenantPrefix ++ rem = tenantPrefixByte :: (uvarint tenID.val ++ rem) := by
    simp [TenantID.tenantPrefix, makeTenantPrefix, hs, encodeUvarintAscending]
  rw [hp, decodeTenantPrefix, decodeUvarintAscending_uvarint tenID.property.2]
  simp only [bind_ok, makeTenantID, if_neg (Nat.ne_of_gt tenID.property.1)]
  rfl

/-- What follows the tenant's prefix does not make it another tenant's key, unless it
    starts with the byte that opens tenant prefixes. -/
theorem tenantKey_append (tenID : TenantID) (h : rest.head? ≠ some tenantPrefixByte) :
    TenantKey tenID (tenID.tenantPrefix ++ rest) := by
  unfold TenantKey
  split
  · rename_i hs
    simpa [TenantID.tenantPrefix, makeTenantPrefix, hs] using h
  · exact prefix_append _ _

theorem decodeTenantPrefix_append (tenID : TenantID) (h : rest.head? ≠ some tenantPrefixByte) :
    decodeTenantPrefix (tenID.tenantPrefix ++ rest) = .ok (rest, tenID.val) := by
  obtain ⟨rem, hd, he⟩ := (tenantKey_append tenID h).decode
  rw [hd, append_cancel_left he]

theorem TenantKey.unique {s t : TenantID} (hs : TenantKey s k) (ht : TenantKey t k) : s = t := by
  obtain ⟨_, ds, -⟩ := hs.decode
  obtain ⟨_, dt, -⟩ := ht.decode
  rw [ds] at dt
  exact Subtype.ext (Prod.mk.inj (Except.ok.inj dt)).2

/-! Keys under an actor's prefix. -/

theorem actorPrefix_append (tenID : TenantID) (hash : ActorHash) (rest : Bytes) :
    actorPrefix tenID hash ++ rest = tenID.tenantPrefix ++ actorPrefixByte :: (hash.val ++ rest) := by
  simp [actorPrefix, makeActorPrefixFromHash]

theorem decodeTenantPrefix_actor (tenID : TenantID) (hash : ActorHash) (rest : Bytes) :
    decodeTenantPrefix (actorPrefix tenID hash ++ rest) = .ok (actorPrefixByte :: (hash.val ++ rest), tenID.val) := by
  rw [actorPrefix_append]
  exact decodeTenantPrefix_append tenID (by simp [actorPrefixByte, tenantPrefixByte])

theorem actorSpan_contains_iff (tenID : TenantID) (hash : ActorHash) (k : Bytes) :
    (actorSpan tenID hash).Contains k ↔ actorPrefix tenID hash <+: k := by
  refine mem_prefix_span_iff (p := actorPrefix tenID hash) ⟨actorPrefixByte, ?_, by decide⟩ k
  simp [actorPrefix, makeActorPrefixFromHash]

theorem actorPrefix_unique {s t : TenantID} {g h : ActorHash} (hs : actorPrefix s g <+: k)
    (ht : actorPrefix t h <+: k) : s = t ∧ g = h := by
  obtain ⟨u, rfl⟩ := hs
  obtain ⟨v, hv⟩ := ht
  have hd := decodeTenantPrefix_actor s g u
  rw [← hv, decodeTenantPrefix_actor t h v] at hd
  simp only [Except.ok.injEq, Prod.mk.injEq, List.cons.injEq, true_and] at hd
  obtain ⟨happ, hid⟩ := hd
  have hgh := append_inj_left happ (by rw [h.property, g.property])
  exact ⟨Subtype.ext hid.symm, Subtype.ext hgh.symm⟩

theorem actorPrefix_tenantKey (h : actorPrefix tenID hash <+: k) : TenantKey tenID k := by
  obtain ⟨rest, rfl⟩ := h
  rw [actorPrefix_append]
  exact tenantKey_append tenID (by simp [actorPrefixByte, tenantPrefixByte])

/-- The first byte of a `uint32` table id is neither the actor marker nor the tenant one. -/
theorem tableID_head (tableID : UInt32) (rest : Bytes) :
    (uvarint tableID.toNat ++ rest).head? ≠ some actorPrefixByte ∧
      (uvarint tableID.toNat ++ rest).head? ≠ some tenantPrefixByte := by
  obtain ⟨b, t, ht, hb⟩ := uvarint_uint32_head tableID
  rw [ht]
  constructor
  all_goals
    intro hhead
    simp only [cons_append, head?_cons, Option.some.injEq] at hhead
    rw [hhead] at hb
    exact absurd hb (by decide)

theorem tablePrefix_not_actor (tenID : TenantID) (hash : ActorHash) (tableID : UInt32) (suffix : Bytes) :
    ¬ actorPrefix tenID hash <+: tablePrefix tenID.tenantPrefix tableID ++ suffix := by
  rintro ⟨rest, hrest⟩
  have htable : tablePrefix tenID.tenantPrefix tableID ++ suffix =
      tenID.tenantPrefix ++ (uvarint tableID.toNat ++ suffix) := by
    simp [tablePrefix, encodeUvarintAscending]
  rw [htable, actorPrefix_append] at hrest
  have hcut := append_cancel_left hrest
  exact (tableID_head tableID suffix).1 (by rw [← hcut]; rfl)

theorem decodeTableIDIndexID_actor (hash : ActorHash) (tableID indexID : UInt32) (suffix : Bytes) :
    decodeTableIDIndexID (actorPrefixByte ::
        (hash.val ++ (uvarint tableID.toNat ++ (uvarint indexID.toNat ++ suffix)))) =
      .ok (suffix, tableID, indexID) := by
  simp only [decodeTableIDIndexID, decodeActorPrefix_hash hash.property, bind_ok,
    decodeUvarintAscending_uvarint (uint32_toNat_lt_64 _), UInt32.ofNat_toNat]
  rfl

/-! The prefix that is rebuilt from a key. -/

/-- `ActorPrefixFromKey` finds a prefix exactly when the decoded rest starts with an
    actor marker and a whole hash, and makes it from the decoded tenant. -/
theorem actorPrefixFromKey_eq_some {p : Bytes} :
    actorPrefixFromKey k = .ok (some p) ↔ ∃ (tenID : TenantID) (hash : ActorHash) (rest : Bytes),
      decodeTenantPrefix k = .ok (actorPrefixByte :: (hash.val ++ rest), tenID.val) ∧ p = actorPrefix tenID hash := by
  constructor
  · intro h
    obtain ⟨⟨rem, tenID⟩, hd, h⟩ := exists_of_bind_ok h
    cases rem with
    | nil => cases h
    | cons c rest =>
      simp only at h
      split at h
      · cases h
      rename_i hc
      split at h
      · cases h
      rename_i hlen
      simp only [not_not] at hc
      subst hc
      have hhash : (rest.take actorHashLen).length = actorHashLen := by
        simp only [length_cons] at hlen
        rw [length_take]
        omega
      refine ⟨⟨tenID, decodeTenantPrefix_valid hd⟩, ⟨rest.take actorHashLen, hhash⟩,
        rest.drop actorHashLen, by rw [hd, take_append_drop], ?_⟩
      exact (Option.some.inj (Except.ok.inj h)).symm
  · rintro ⟨tenID, hash, rest, hd, rfl⟩
    have hlen : ¬ (actorPrefixByte :: (hash.val ++ rest)).length < 1 + actorHashLen := by
      simp only [length_cons, length_append]
      omega
    have htake : (actorPrefixByte :: (hash.val ++ rest)).take (1 + actorHashLen) = actorPrefixByte :: hash.val := by
      rw [Nat.add_comm, take_succ_cons, take_left' hash.property]
    simp only [actorPrefixFromKey, hd, bind_ok, ne_eq, not_true_eq_false, if_neg hlen, htake]
    rfl

theorem actorSpanFromKey_eq_some {span : Span} :
    actorSpanFromKey k = .ok (some span) ↔ ∃ (tenID : TenantID) (hash : ActorHash) (rest : Bytes),
      decodeTenantPrefix k = .ok (actorPrefixByte :: (hash.val ++ rest), tenID.val) ∧ span = actorSpan tenID hash := by
  constructor
  · intro h
    obtain ⟨pre, hp, h⟩ := exists_of_bind_ok h
    cases pre with
    | none => cases h
    | some p =>
      obtain ⟨tenID, hash, rest, hd, rfl⟩ := actorPrefixFromKey_eq_some.mp hp
      exact ⟨tenID, hash, rest, hd, (Option.some.inj (Except.ok.inj h)).symm⟩
  · rintro ⟨tenID, hash, rest, hd, rfl⟩
    have hp := actorPrefixFromKey_eq_some.mpr ⟨tenID, hash, rest, hd, rfl⟩
    simp only [actorSpanFromKey, hp]
    rfl

theorem actorSpanFromKey_of_actor
    (h : actorPrefix tenID hash <+: k) : actorSpanFromKey k = .ok (some (actorSpan tenID hash)) := by
  obtain ⟨rest, rfl⟩ := h
  exact actorSpanFromKey_eq_some.mpr ⟨tenID, hash, rest, decodeTenantPrefix_actor tenID hash rest, rfl⟩

theorem actorSpanFromKey_contains_iff (k : Bytes) :
    (∃ span, actorSpanFromKey k = .ok (some span) ∧ span.Contains k) ↔ ∃ tenID hash, actorPrefix tenID hash <+: k := by
  constructor
  · rintro ⟨span, hspan, hk⟩
    obtain ⟨tenID, hash, -, -, rfl⟩ := actorSpanFromKey_eq_some.mp hspan
    exact ⟨tenID, hash, (actorSpan_contains_iff tenID hash k).mp hk⟩
  · rintro ⟨tenID, hash, hk⟩
    exact ⟨_, actorSpanFromKey_of_actor hk, (actorSpan_contains_iff tenID hash k).mpr hk⟩

/-! Interior keys. -/

theorem strictlyInside_iff (k : Bytes) :
    StrictlyInside k ↔ ∃ tenID hash, actorPrefix tenID hash <+: k ∧ k ≠ actorPrefix tenID hash := by
  constructor
  · rintro ⟨tenID, hash, hlt, hend⟩
    exact ⟨tenID, hash, (actorSpan_contains_iff tenID hash k).mp ⟨le_of_lt hlt, hend⟩, ne_of_gt hlt⟩
  rintro ⟨tenID, hash, hp, hne⟩
  have hin := (actorSpan_contains_iff tenID hash k).mpr hp
  exact ⟨tenID, hash, lt_of_le_of_ne hin.1 (Ne.symm hne), hin.2⟩

theorem isInteriorActorSplitKey_eq_true (k : Bytes) :
    isInteriorActorSplitKey k = .ok true ↔
      ∃ span, actorSpanFromKey k = .ok (some span) ∧ k ≠ span.key ∧ k ≠ span.endKey := by
  constructor
  · intro h
    obtain ⟨span, hspan, h⟩ := exists_of_bind_ok h
    cases span with
    | none => cases h
    | some span =>
      have hb : (decide (k ≠ span.key) && decide (k ≠ span.endKey)) = true := Except.ok.inj h
      exact ⟨span, hspan, by simpa using hb⟩
  · rintro ⟨span, hspan, hkey, hend⟩
    simp only [isInteriorActorSplitKey, hspan]
    show Except.ok (decide (k ≠ span.key) && decide (k ≠ span.endKey)) = Except.ok true
    simp [hkey, hend]

theorem isInterior_of_strictlyInside (h : StrictlyInside k) :
    isInteriorActorSplitKey k = .ok true := by
  obtain ⟨tenID, hash, hp, hne⟩ := (strictlyInside_iff k).mp h
  have hin := (actorSpan_contains_iff tenID hash k).mpr hp
  exact (isInteriorActorSplitKey_eq_true k).mpr ⟨_, actorSpanFromKey_of_actor hp, hne, ne_of_lt hin.2⟩

theorem incrementLast_append {b e : Bytes} (h : incrementLast b = some e) :
    ∀ a : Bytes, incrementLast (a ++ b) = some (a ++ e)
  | [] => h
  | c :: a => by rw [cons_append, incrementLast, incrementLast_append h a]; rfl

/-- The end key keeps the tenant's prefix: the carry stops at the actor marker. -/
theorem actorSpan_endKey (tenID : TenantID) (hash : ActorHash) :
    ∃ e : Bytes, (actorSpan tenID hash).endKey = tenID.tenantPrefix ++ e ∧ e.head? ≠ some tenantPrefixByte := by
  have hhead : ∃ e, incrementLast (actorPrefixByte :: hash.val) = some e ∧ e.head? ≠ some tenantPrefixByte := by
    rw [incrementLast]
    cases incrementLast hash.val with
    | some e => exact ⟨_, rfl, by simp [actorPrefixByte, tenantPrefixByte]⟩
    | none => exact ⟨_, if_pos (by decide), by decide⟩
  obtain ⟨e, he, hne⟩ := hhead
  refine ⟨e, ?_, hne⟩
  have happ : incrementLast (actorPrefix tenID hash) = some (tenID.tenantPrefix ++ e) :=
    incrementLast_append he _
  show prefixEnd (actorPrefix tenID hash) = _
  cases hp : actorPrefix tenID hash with
  | nil => rw [hp] at happ; cases happ
  | cons c rest => rw [prefixEnd, ← hp, happ]; rfl

theorem ne_endKey_of_decode (hd : decodeTenantPrefix k = .ok (actorPrefixByte :: (hash.val ++ rest), tenID.val)) :
    k ≠ (actorSpan tenID hash).endKey := by
  intro hk
  obtain ⟨e, he, hne⟩ := actorSpan_endKey tenID hash
  have hde := decodeTenantPrefix_append tenID hne
  rw [← he, ← hk, hd] at hde
  have hrest : actorPrefixByte :: (hash.val ++ rest) = e := (Prod.mk.inj (Except.ok.inj hde)).1
  have hpre : actorPrefix tenID hash <+: k := by
    rw [hk, he, ← hrest]
    exact ⟨rest, actorPrefix_append tenID hash rest⟩
  have hin := (actorSpan_contains_iff tenID hash k).mpr hpre
  exact absurd hk (ne_of_lt hin.2)

theorem canonicalTenant_of_actor (h : actorPrefix tenID hash <+: k) : CanonicalTenant k := by
  obtain ⟨rest, rfl⟩ := h
  intro rem id hd _ _
  rw [decodeTenantPrefix_actor] at hd
  obtain ⟨rfl, rfl⟩ := Prod.mk.inj (Except.ok.inj hd)
  exact (actorPrefix_append tenID hash rest).symm

/-- `IsInteriorActorSplitKey` is right about a key exactly when the key is not another
    spelling of an actor's key. -/
theorem isInterior_agrees_iff (k : Bytes) :
    (isInteriorActorSplitKey k ≠ .ok true ↔ ¬ StrictlyInside k) ↔ CanonicalTenant k := by
  rw [not_iff_not]
  constructor
  · intro hagree rem tenID hd hhead hlen
    cases rem with
    | nil => cases hhead
    | cons c rest =>
      obtain rfl : c = actorPrefixByte := by simpa using hhead
      have hhash : (rest.take actorHashLen).length = actorHashLen := by
        simp only [length_cons] at hlen
        rw [length_take]
        omega
      -- the rebuilt span is the decoded actor's, whatever the key's own bytes are
      let id : TenantID := ⟨tenID, decodeTenantPrefix_valid hd⟩
      let hash : ActorHash := ⟨rest.take actorHashLen, hhash⟩
      have hd' : decodeTenantPrefix k = .ok (actorPrefixByte :: (hash.val ++ rest.drop actorHashLen), id.val) := by
        rw [hd, take_append_drop]
      by_contra hne
      have hnkey : k ≠ (actorSpan id hash).key := by
        intro hk
        have hpre : actorPrefix id hash <+: k := by rw [hk]; exact prefix_refl _
        exact hne (canonicalTenant_of_actor hpre _ _ hd hhead hlen)
      have hin : isInteriorActorSplitKey k = .ok true :=
        (isInteriorActorSplitKey_eq_true k).mpr
          ⟨_, actorSpanFromKey_eq_some.mpr ⟨id, hash, _, hd', rfl⟩, hnkey, ne_endKey_of_decode hd'⟩
      obtain ⟨s, g, hpre, -⟩ := (strictlyInside_iff k).mp (hagree.mp hin)
      exact hne (canonicalTenant_of_actor hpre _ _ hd hhead hlen)
  · intro hcanon
    refine ⟨fun hin => ?_, isInterior_of_strictlyInside⟩
    obtain ⟨span, hspan, hnkey, -⟩ := (isInteriorActorSplitKey_eq_true k).mp hin
    obtain ⟨tenID, hash, rest, hd, rfl⟩ := actorSpanFromKey_eq_some.mp hspan
    have hk : tenID.tenantPrefix ++ actorPrefixByte :: (hash.val ++ rest) = k :=
      hcanon _ _ hd rfl (by simp only [length_cons, length_append]; omega)
    exact (strictlyInside_iff k).mpr ⟨tenID, hash, ⟨rest, by rw [actorPrefix_append, hk]⟩, hnkey⟩

/-- Actor keyspaces: apart from each other, from the tenant's tables and from other
    tenants, decoded back exactly, and recognised by `ActorSpanFromKey`. A key's interior
    verdict is right exactly for keys whose tenant id is spelt as `MakeTenantPrefix`
    spells it. -/
theorem actor_keyspace (tenID : TenantID) (hash : ActorHash) :
    (∀ k, (actorSpan tenID hash).Contains k ↔ actorPrefix tenID hash <+: k) ∧
    (∀ other, other ≠ hash → ∀ k, ¬ ((actorSpan tenID hash).Contains k ∧ (actorSpan tenID other).Contains k)) ∧
    (∀ tableID suffix, ¬ (actorSpan tenID hash).Contains (tablePrefix tenID.tenantPrefix tableID ++ suffix)) ∧
    (∀ other, other ≠ tenID → ∀ k, TenantKey other k → ¬ (actorSpan tenID hash).Contains k) ∧
    (∀ tableID indexID suffix, ∃ rem rest,
      decodeTenantPrefix (indexPrefix (actorPrefix tenID hash) tableID indexID ++ suffix) = .ok (rem, tenID.val) ∧
      decodeActorPrefix rem = .ok (rest, some hash.val) ∧
      decodeTableIDIndexID rem = .ok (suffix, tableID, indexID)) ∧
    (∀ k span, actorSpanFromKey k = .ok (some span) → ∀ x, span.Contains x ↔ span.key <+: x) ∧
    (∀ k, (∃ span, actorSpanFromKey k = .ok (some span) ∧ span.Contains k) ↔
      ∃ tenID hash, actorPrefix tenID hash <+: k) ∧
    (∀ k, actorPrefix tenID hash <+: k → actorSpanFromKey k = .ok (some (actorSpan tenID hash))) ∧
    (∀ k, (isInteriorActorSplitKey k ≠ .ok true ↔ ¬ StrictlyInside k) ↔ CanonicalTenant k) := by
  refine ⟨actorSpan_contains_iff tenID hash, ?_, ?_, ?_, ?_, ?_, actorSpanFromKey_contains_iff,
    fun _ => actorSpanFromKey_of_actor, isInterior_agrees_iff⟩
  · rintro other hne k ⟨hk, ho⟩
    rw [actorSpan_contains_iff] at hk ho
    exact hne (actorPrefix_unique ho hk).2
  · intro tableID suffix hk
    exact tablePrefix_not_actor tenID hash tableID suffix ((actorSpan_contains_iff _ _ _).mp hk)
  · intro other hne k ho hk
    rw [actorSpan_contains_iff] at hk
    exact hne (ho.unique (actorPrefix_tenantKey hk))
  · intro tableID indexID suffix
    have hkey : indexPrefix (actorPrefix tenID hash) tableID indexID ++ suffix =
        actorPrefix tenID hash ++ (uvarint tableID.toNat ++ (uvarint indexID.toNat ++ suffix)) := by
      simp [indexPrefix, tablePrefix, encodeUvarintAscending]
    rw [hkey]
    exact ⟨_, _, decodeTenantPrefix_actor tenID hash _, decodeActorPrefix_hash hash.property _,
      decodeTableIDIndexID_actor hash tableID indexID suffix⟩
  · intro k span hspan x
    obtain ⟨t, g, -, -, rfl⟩ := actorSpanFromKey_eq_some.mp hspan
    exact actorSpan_contains_iff t g x

/-- The system tenant's id spelt as a tenant prefix: `0xfe 0x89` is decoded to tenant 1,
    whose own keys have no prefix. -/
def respelledKey : Bytes := [0xfe, 0x89, 0xfb] ++ List.replicate 16 0 ++ [0x8a]

theorem respelled_key_is_interior :
    isInteriorActorSplitKey respelledKey = .ok true ∧ ¬ StrictlyInside respelledKey := by
  refine ⟨by decide +kernel, fun hin => ?_⟩
  obtain ⟨tenID, hash, hp, -⟩ := (strictlyInside_iff _).mp hin
  have hcanon := canonicalTenant_of_actor hp ([0xfb] ++ List.replicate 16 0 ++ [0x8a]) 1 (by decide +kernel)
    (by decide) (by decide)
  exact absurd hcanon (by decide)

end Ratel.Keys
