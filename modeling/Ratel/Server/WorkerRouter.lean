import Mathlib

/- The choice of the node that runs a worker (`pkg/server/workerd_router.go`). Every node
   hashes the worker's name with each live node's ID and forwards to the highest hash, so a
   worker with Durable Objects has one writer without the nodes talking to each other.

   The liveness map is a list of its entries in the order one iteration delivers them. Node
   IDs are integers; those of real nodes are positive, which the loop relies on: it takes
   `best == 0` for "no node yet". -/
namespace Ratel.Server

abbrev NodeID := Int

/-- `livenesspb.IsLiveMap`: which nodes are known, and which of them are live. -/
structure IsLiveMap where
  entries : List (NodeID × Bool)
  nodup : (entries.map Prod.fst).Nodup

def IsLiveMap.liveNodes (liveMap : IsLiveMap) : List NodeID :=
  (liveMap.entries.filter (·.2)).map (·.1)

/-- What `pickNode` reads of a router. -/
structure WorkerRouter where
  localNodeID : NodeID
  liveMap : IsLiveMap

/-- `fnv.New64a` over a list of bytes. -/
def fnv64a (bytes : List UInt8) : UInt64 :=
  bytes.foldl (fun h b => (h ^^^ b.toUInt64) * 1099511628211) 14695981039346656037

/-- The hash of a worker's name with a node's ID, the ID in four big-endian bytes. -/
def rendezvousHash (key : List UInt8) (nodeID : NodeID) : UInt64 :=
  fnv64a (key ++ [24, 16, 8, 0].map fun s => UInt8.ofNat ((nodeID / 2 ^ s) % 256).toNat)

section
variable (hash : List UInt8 → NodeID → UInt64) (workerName : List UInt8)

/-- One round of the loop over the sorted nodes, on the pair of `best` and `bestHash`. -/
def pickStep (acc : NodeID × UInt64) (id : NodeID) : NodeID × UInt64 :=
  let h := hash workerName id
  if h > acc.2 ∨ acc.1 = 0 then (id, h) else acc

def WorkerRouter.pickNode (wr : WorkerRouter) : NodeID :=
  let nodes := wr.liveMap.liveNodes
  if nodes.isEmpty then wr.localNodeID
  else ((nodes.insertionSort (· ≤ ·)).foldl (pickStep hash workerName) (0, 0)).1

/-- The rule of the choice: a live node of the highest hash, of the lowest ID among those. -/
structure Picked (live : NodeID → Prop) (best : NodeID) : Prop where
  mem : live best
  max : ∀ id, live id → hash workerName id ≤ hash workerName best
  first : ∀ id, live id → hash workerName id = hash workerName best → best ≤ id

end

variable {hash : List UInt8 → NodeID → UInt64} {workerName : List UInt8} {live live' : NodeID → Prop}

theorem Picked.unique {a b : NodeID} (ha : Picked hash workerName live a)
    (hb : Picked hash workerName live b) : a = b := by
  have heq := UInt64.le_antisymm (ha.max b hb.mem) (hb.max a ha.mem)
  exact Int.le_antisymm (ha.first b hb.mem heq) (hb.first a ha.mem heq.symm)

/-- A pick stays one among fewer nodes, as long as it is one of them. -/
theorem Picked.mono {a : NodeID} (h : Picked hash workerName live a)
    (hsub : ∀ id, live' id → live id) (ha : live' a) : Picked hash workerName live' a :=
  ⟨ha, fun id hid => h.max id (hsub id hid), fun id hid => h.first id (hsub id hid)⟩

/-- The loop from a node it already has, over higher ones: its first node of the highest
    hash is the lowest. -/
theorem pickStep_foldl {best : NodeID} {nodes : List NodeID}
    (hsorted : (best :: nodes).Pairwise (· ≤ ·)) (hpos : 0 < best) :
    Picked hash workerName (· ∈ best :: nodes)
      (nodes.foldl (pickStep hash workerName) (best, hash workerName best)).1 := by
  induction nodes generalizing best with
  | nil => exact ⟨by simp, by simp, by simp⟩
  | cons id nodes ih =>
    have hle : best ≤ id := List.rel_of_pairwise_cons hsorted (by simp)
    rw [List.foldl_cons, pickStep]
    by_cases hh : hash workerName id > hash workerName best
    · obtain ⟨hmem, hmax, hfirst⟩ := ih hsorted.of_cons (Int.lt_of_lt_of_le hpos hle)
      -- The old best loses to the new one, which the rest of the loop only raises.
      exact ⟨by grind, by grind, by grind⟩
    · obtain ⟨hmem, hmax, hfirst⟩ := ih (hsorted.sublist (by simp)) hpos
      exact ⟨by grind, by grind, by grind⟩

namespace WorkerRouter

variable {wr wr' : WorkerRouter}

def Live (wr : WorkerRouter) (id : NodeID) : Prop := (id, true) ∈ wr.liveMap.entries

theorem mem_liveNodes {id : NodeID} : id ∈ wr.liveMap.liveNodes ↔ wr.Live id := by
  simp [IsLiveMap.liveNodes, Live]

theorem pickNode_picked (hpos : ∀ id, wr.Live id → 0 < id) (hne : ∃ id, wr.Live id) :
    Picked hash workerName wr.Live (wr.pickNode hash workerName) := by
  obtain ⟨id, hid⟩ := hne
  have hmem : ∀ j, j ∈ wr.liveMap.liveNodes.insertionSort (· ≤ ·) ↔ wr.Live j :=
    fun j => (List.mem_insertionSort _).trans mem_liveNodes
  have hsorted := List.pairwise_insertionSort (· ≤ ·) wr.liveMap.liveNodes
  have hfull : ¬ wr.liveMap.liveNodes.isEmpty := by
    have := mem_liveNodes.mpr hid
    simpa using List.ne_nil_of_mem this
  simp only [pickNode, hfull, Bool.false_eq_true]
  generalize wr.liveMap.liveNodes.insertionSort (· ≤ ·) = nodes at hmem hsorted
  have hlive : wr.Live = (· ∈ nodes) := funext fun j => propext (hmem j).symm
  rw [hlive] at hpos hid ⊢
  cases nodes with
  | nil => simp at hid
  | cons first rest =>
    have hstep : pickStep hash workerName (0, 0) first = (first, hash workerName first) := by
      simp [pickStep]
    rw [List.foldl_cons, hstep]
    exact pickStep_foldl hsorted (hpos first (by simp))

/-- The pick is a function of the worker's name and the live set: neither the order of the
    map's entries nor the calling node matters. A node that leaves takes only its own
    workers along, and one that joins only draws workers to itself. -/
theorem pickNode_rendezvous (hash : List UInt8 → NodeID → UInt64) (workerName : List UInt8)
    (wr wr' : WorkerRouter) (hpos : ∀ id, wr.Live id → 0 < id) (hpos' : ∀ id, wr'.Live id → 0 < id) :
    ((∃ id, wr.Live id) → wr.Live (wr.pickNode hash workerName)) ∧
    ((∃ id, wr.Live id) → (∀ id, wr'.Live id ↔ wr.Live id) →
      wr'.pickNode hash workerName = wr.pickNode hash workerName) ∧
    (∀ n, (∃ id, wr.Live id) → n ≠ wr.pickNode hash workerName → (∀ id, wr'.Live id ↔ wr.Live id ∧ id ≠ n) →
      wr'.pickNode hash workerName = wr.pickNode hash workerName) ∧
    (∀ n, (∀ id, wr'.Live id ↔ wr.Live id ∨ id = n) → wr'.pickNode hash workerName = wr.pickNode hash workerName ∨
      wr'.pickNode hash workerName = n) := by
  have fewer : (∃ id, wr.Live id) → (∀ id, wr'.Live id → wr.Live id) → wr'.Live (wr.pickNode hash workerName) →
      wr'.pickNode hash workerName = wr.pickNode hash workerName := by
    intro hne hsub hpick
    exact (pickNode_picked hpos' ⟨_, hpick⟩).unique ((pickNode_picked hpos hne).mono hsub hpick)
  refine ⟨fun hne => (pickNode_picked hpos hne).mem, ?_, ?_, ?_⟩
  · intro hne heq
    exact fewer hne (fun id => (heq id).mp) ((heq _).mpr (pickNode_picked hpos hne).mem)
  · intro n hne hn hremoved
    exact fewer hne (fun id hid => ((hremoved id).mp hid).1)
      ((hremoved _).mpr ⟨(pickNode_picked hpos hne).mem, hn.symm⟩)
  intro n hadded
  have hpick : Picked hash workerName wr'.Live _ :=
    pickNode_picked hpos' ⟨n, (hadded n).mpr (.inr rfl)⟩
  rcases (hadded _).mp hpick.mem with hold | hnew
  · have hmono := hpick.mono (fun id hid => (hadded id).mpr (.inl hid)) hold
    exact .inl (hmono.unique (pickNode_picked hpos ⟨_, hold⟩))
  · exact .inr hnew

/-- With node 2 gone, node 3 picks for `w` what node 1 picked among the three. -/
theorem pickNode_two_of_three :
    (WorkerRouter.mk 3 ⟨[(3, true), (2, false), (1, true)], by decide⟩).pickNode rendezvousHash [119] =
      (WorkerRouter.mk 1 ⟨[(1, true), (2, true), (3, true)], by decide⟩).pickNode rendezvousHash [119] :=
  (pickNode_rendezvous rendezvousHash [119] _ _ (by simp [Live]) (by simp [Live])).2.2.1 2
    ⟨1, by simp [Live]⟩ (by decide) (by simp [Live]; grind)

/-- Two nodes that differ about who is live send a worker to the same node, unless one of them picks a
    node that the other believes dead. -/
theorem pickNode_of_views (hash : List UInt8 → NodeID → UInt64) (workerName : List UInt8) (wr wr' : WorkerRouter)
    (hpos : ∀ id, wr.Live id → 0 < id) (hpos' : ∀ id, wr'.Live id → 0 < id)
    (hlive : wr.Live (wr'.pickNode hash workerName)) (hlive' : wr'.Live (wr.pickNode hash workerName)) :
    wr.pickNode hash workerName = wr'.pickNode hash workerName := by
  have h : Picked hash workerName wr.Live _ := pickNode_picked hpos ⟨_, hlive⟩
  have h' : Picked hash workerName wr'.Live _ := pickNode_picked hpos' ⟨_, hlive'⟩
  have heq := UInt64.le_antisymm (h.max _ hlive) (h'.max _ hlive')
  exact Int.le_antisymm (h.first _ hlive heq) (h'.first _ hlive' heq.symm)

theorem pickNode_of_views_overlap :
    (WorkerRouter.mk 2 ⟨[(2, true), (1, true)], by decide⟩).pickNode rendezvousHash [119] =
      (WorkerRouter.mk 3 ⟨[(1, true), (3, false)], by decide⟩).pickNode rendezvousHash [119] :=
  pickNode_of_views _ _ _ _ (by simp [Live]) (by simp [Live]) (by unfold Live; decide) (by unfold Live; decide)

end WorkerRouter

end Ratel.Server
