import Ratel.Encoding
import Ratel.Lib.Ordering
import Ratel.Lib.Runs

/- The latch manager. A call that takes latches locks the manager, takes a snapshot of the trees that
   its spans need, inserts its own latches and unlocks; these four are one step. It then goes through
   the latches of the snapshot that overlap its own, one step for each, and waits for those that are
   neither released nor to be ignored. Reads go to a list first and into a tree only when a writer
   takes a snapshot. A guard's number is its place in the order in which the calls had the lock. -/
namespace Ratel.Spanlatch

open Ratel.Lib

/-- `hlc.Timestamp`, whose parts are never negative. -/
structure Timestamp where
  wallTime : Nat
  logical : Nat
  synthetic : Bool
deriving DecidableEq, Repr

def Timestamp.isEmpty (t : Timestamp) : Bool := decide (t.wallTime = 0) && decide (t.logical = 0) && !t.synthetic

def Timestamp.less (t s : Timestamp) : Bool :=
  decide (t.wallTime < s.wallTime) || (decide (t.wallTime = s.wallTime) && decide (t.logical < s.logical))

structure Span where
  key : Bytes
  endKey : Bytes
deriving DecidableEq, Repr

inductive SpanScope
  | spanGlobal
  | spanLocal
deriving DecidableEq, Repr

inductive SpanAccess
  | spanReadOnly
  | spanReadWrite
deriving DecidableEq, Repr

inductive Policy
  | wait
  | error
deriving DecidableEq, Repr

/-- A latch, with the guard whose signals it holds. -/
structure Latch where
  owner : Nat
  id : Int
  span : Span
  ts : Timestamp
deriving DecidableEq, Repr

/-! The interval tree: its latches in the tree's order. -/

def cmp (a b : Latch) : Ordering :=
  ((threeWay a.span.key b.span.key).then (threeWay a.span.endKey b.span.endKey)).then (threeWay a.id b.id)

/-- `upperBound(b).contains(a)`. -/
def startsWithin (a b : Span) : Bool :=
  if b.endKey.length ≠ 0 then decide (a.key < b.endKey) else decide (a.key ≤ b.key)

def Span.overlaps (a b : Span) : Bool := startsWithin a b && startsWithin b a

abbrev Btree := List Latch

namespace Btree

def set (la : Latch) : Btree → Btree
  | [] => [la]
  | x :: t =>
    match cmp la x with
    | .lt => la :: x :: t
    | .eq => la :: t
    | .gt => x :: set la t

def delete (la : Latch) (t : Btree) : Btree := t.eraseP fun x => decide (cmp la x = .eq)

/-- The latches that `FirstOverlap` and `NextOverlap` visit. -/
def overlapping (la : Latch) (t : Btree) : List Latch := t.filter fun x => la.span.overlaps x.span

end Btree

/-! The manager. -/

structure ScopedManager where
  readSet : List Latch
  trees : SpanAccess → Btree

structure Manager where
  idAlloc : Int
  scopes : SpanScope → ScopedManager

/-- `spanset.SpanSet`: the spans of each scope and access, with their timestamps. -/
abbrev SpanSet := SpanScope → SpanAccess → List (Span × Timestamp)

abbrev Latches := SpanScope → SpanAccess → List Latch

abbrev Snapshot := SpanScope → SpanAccess → Btree

def numSpanScope : List SpanScope := [.spanGlobal, .spanLocal]
def numSpanAccess : List SpanAccess := [.spanReadOnly, .spanReadWrite]

/-- The scopes and accesses in the order of the loops, with what each of them holds. -/
def inOrder {α : Type} (l : SpanScope → SpanAccess → List α) : List (SpanScope × SpanAccess × α) :=
  numSpanScope.flatMap fun s => numSpanAccess.flatMap fun a => (l s a).map fun x => (s, a, x)

namespace ScopedManager

def setTree (sm : ScopedManager) (a : SpanAccess) (t : Btree) : ScopedManager :=
  { sm with trees := fun a' => if a' = a then t else sm.trees a' }

def flushReadSetLocked (sm : ScopedManager) : ScopedManager :=
  { readSet := []
    trees := fun a => if a = .spanReadOnly then sm.readSet.foldl (fun t la => Btree.set la t) (sm.trees a) else sm.trees a }

/-- The latch is added to the read set or to the write tree. -/
def insert (sm : ScopedManager) (a : SpanAccess) (la : Latch) : ScopedManager :=
  match a with
  | .spanReadOnly => { sm with readSet := sm.readSet ++ [la] }
  | .spanReadWrite => sm.setTree a ((sm.trees a).set la)

def inReadSet (sm : ScopedManager) (la : Latch) : Bool := sm.readSet.any fun x => decide (x.id = la.id)

def remove (sm : ScopedManager) (a : SpanAccess) (la : Latch) : ScopedManager :=
  if sm.inReadSet la then { sm with readSet := sm.readSet.filter fun x => decide (x.id ≠ la.id) }
  else sm.setTree a ((sm.trees a).delete la)

end ScopedManager

namespace Manager

def setScope (m : Manager) (s : SpanScope) (sm : ScopedManager) : Manager :=
  { m with scopes := fun s' => if s' = s then sm else m.scopes s' }

/-- One scope of `snapshotLocked`: the read set is flushed for a writer. -/
def flushFor (m : Manager) (spans : SpanSet) (s : SpanScope) : ScopedManager :=
  if (spans s .spanReadWrite).length > 0 then (m.scopes s).flushReadSetLocked else m.scopes s

/-- `snapshotLocked`: the manager after it, and the trees cloned. -/
def snapshotLocked (m : Manager) (spans : SpanSet) : Manager × Snapshot :=
  ({ m with scopes := m.flushFor spans }, fun s a =>
      let reading := decide ((spans s .spanReadOnly).length > 0)
      let writing := decide ((spans s .spanReadWrite).length > 0)
      match a with
      | .spanReadOnly => if writing then (m.flushFor spans s).trees .spanReadOnly else []
      | .spanReadWrite => if writing || reading then (m.flushFor spans s).trees .spanReadWrite else [])

/-- The latch for one span, with the next id, in the manager and with the guard. -/
def insertLatch (owner : Nat) (st : Manager × Latches) (req : SpanScope × SpanAccess × Span × Timestamp) :
    Manager × Latches :=
  let la : Latch := ⟨owner, st.1.idAlloc - 1, req.2.2.1, req.2.2.2⟩
  let m := { st.1 with idAlloc := st.1.idAlloc - 1 }
  (m.setScope req.1 ((m.scopes req.1).insert req.2.1 la),
    fun s a => if s = req.1 ∧ a = req.2.1 then st.2 s a ++ [la] else st.2 s a)

/-- `insertLocked`, with the latches of the new guard. -/
def insertLocked (m : Manager) (owner : Nat) (spans : SpanSet) : Manager × Latches :=
  (inOrder spans).foldl (insertLatch owner) (m, fun _ _ => [])

def removeLocked (m : Manager) (latches : Latches) : Manager :=
  (inOrder latches).foldl (fun m req => m.setScope req.1 ((m.scopes req.1).remove req.2.1 req.2.2)) m

end Manager

/-! Waiting. -/

inductive IgnoreFn
  | ignoreLater
  | ignoreEarlier
  | ignoreNothing
deriving DecidableEq, Repr

def IgnoreFn.apply : IgnoreFn → Timestamp → Timestamp → Bool
  | .ignoreLater, ts, other => !ts.isEmpty && ts.less other
  | .ignoreEarlier, ts, other => !other.isEmpty && other.less ts
  | .ignoreNothing, _, _ => false

/-- One round of `iterAndWait`: a latch of the snapshot against one of the guard's. -/
structure Check where
  wait : Latch
  held : Latch
  ignore : IgnoreFn
deriving DecidableEq, Repr

/-- The rounds for one latch. -/
def checksOf (snap : Snapshot) (s : SpanScope) (a : SpanAccess) (la : Latch) : List Check :=
  match a with
  | .spanReadOnly => ((snap s .spanReadWrite).overlapping la).map fun held => ⟨la, held, .ignoreLater⟩
  | .spanReadWrite =>
    (((snap s .spanReadWrite).overlapping la).map fun held => ⟨la, held, .ignoreNothing⟩) ++
      ((snap s .spanReadOnly).overlapping la).map fun held => ⟨la, held, .ignoreEarlier⟩

/-- All rounds of `wait`. -/
def checks (latches : Latches) (snap : Snapshot) : List Check :=
  (inOrder latches).flatMap fun req => checksOf snap req.1 req.2.1 req.2.2

/-- Where the call of a guard is: it has returned with the snapshot retained, it is before its next
    round, it waits in `waitForSignal` (which may have stopped to listen for poison), it has the
    latches, or its wait has failed. The call of `WaitFor` ends without latches. -/
inductive Phase
  | retained (snap : Snapshot)
  | waiting (todo : List Check)
  | blocked (c : Check) (poisonCh : Bool) (todo : List Check)
  | acquired
  | failed
  | finished

/-- A guard with its two signals; `removed` once `Release` has taken its latches out. -/
structure Guard where
  latches : Latches
  pp : Policy
  inserted : Bool
  phase : Phase
  done : Bool
  poisoned : Bool
  removed : Bool

structure State where
  manager : Manager
  guards : List Guard

namespace State

/-- No guards; ids are handed out downwards. -/
def init : State := ⟨⟨0, fun _ => ⟨[], fun _ => []⟩⟩, []⟩

def setGuard (st : State) (g : Nat) (lg : Guard) : State := { st with guards := st.guards.set g lg }

/-- `sequence`: the snapshot and the insertion under the lock. -/
def sequence (st : State) (spans : SpanSet) (pp : Policy) (phase : Latches → Snapshot → Phase) : State :=
  let snapped := st.manager.snapshotLocked spans
  let inserted := snapped.1.insertLocked st.guards.length spans
  { manager := inserted.1
    guards := st.guards ++ [⟨inserted.2, pp, true, phase inserted.2 snapped.2, false, false, false⟩] }

/-- `WaitFor` up to the wait: latches that are not inserted. -/
def waitFor (st : State) (spans : SpanSet) (pp : Policy) : State :=
  let snapped := st.manager.snapshotLocked spans
  let latches : Latches := fun s a => (spans s a).map fun sp => ⟨st.guards.length, 0, sp.1, sp.2⟩
  { manager := snapped.1
    guards := st.guards ++ [⟨latches, pp, false, .waiting (checks latches snapped.2), false, false, false⟩] }

/-- The signal `done` of the guard a latch belongs to. -/
def signaled (st : State) (la : Latch) : Bool := (st.guards[la.owner]?.map Guard.done).getD false

def isPoisoned (st : State) (la : Latch) : Bool := (st.guards[la.owner]?.map Guard.poisoned).getD false

end State

inductive Action
  | acquire (spans : SpanSet) (pp : Policy)
  | acquireOptimistic (spans : SpanSet) (pp : Policy)
  | waitFor (spans : SpanSet) (pp : Policy)
  | waitUntilAcquired (g : Nat)
  /-- The next round of `iterAndWait`. -/
  | check (g : Nat)
  /-- `waitForSignal` receives that the latch is released, or that it is poisoned; the context is
      cancelled or the server stops. -/
  | receiveDone (g : Nat)
  | receivePoison (g : Nat)
  | cancel (g : Nat)
  /-- `wait` has gone through all rounds. -/
  | acquired (g : Nat)
  /-- `Release` signals, and then takes the latches out under the lock. -/
  | release (g : Nat)
  | remove (g : Nat)
  | poison (g : Nat)

/-- What a guard's own step makes of it; `none` if the step is not possible. -/
def guardStep (st : State) (lg : Guard) : Action → Option Guard
  | .waitUntilAcquired _ =>
    match lg.phase with
    | .retained snap => if lg.done then none else some { lg with phase := .waiting (checks lg.latches snap) }
    | _ => none
  | .check _ =>
    match lg.phase with
    | .waiting (c :: todo) =>
      if st.signaled c.held || c.ignore.apply c.wait.ts c.held.ts then some { lg with phase := .waiting todo }
      else some { lg with phase := .blocked c true todo }
    | _ => none
  | .receiveDone _ =>
    match lg.phase with
    | .blocked c _ todo => if st.signaled c.held then some { lg with phase := .waiting todo } else none
    | _ => none
  | .receivePoison _ =>
    match lg.phase with
    | .blocked c true todo =>
      if st.isPoisoned c.held then
        match lg.pp with
        | .error => some { lg with phase := .failed }
        | .wait => some { lg with phase := .blocked c false todo, poisoned := true }
      else none
    | _ => none
  | .cancel _ =>
    match lg.phase with
    | .blocked _ _ _ => some { lg with phase := .failed }
    | _ => none
  | .acquired _ =>
    match lg.phase with
    | .waiting [] => some { lg with phase := if lg.inserted then .acquired else .finished }
    | _ => none
  | .release _ =>
    match lg.phase with
    | .retained _ | .acquired | .failed => if lg.inserted && !lg.done then some { lg with done := true } else none
    | _ => none
  | .remove _ => if lg.done && !lg.removed then some { lg with removed := true } else none
  | .poison _ => some { lg with poisoned := true }
  | _ => none

/-- One step of a guard's call; the second half of `Release` also changes the manager. -/
def ownStep (st : State) (g : Nat) (act : Action) : Option State :=
  match st.guards[g]? with
  | none => none
  | some lg =>
    match guardStep st lg act with
    | none => none
    | some lg' =>
      match act with
      | .remove _ => some { st.setGuard g lg' with manager := st.manager.removeLocked lg.latches }
      | _ => some (st.setGuard g lg')

def step (st : State) : Action → Option State
  | .acquire spans pp => some (st.sequence spans pp fun latches snap => .waiting (checks latches snap))
  | .acquireOptimistic spans pp => some (st.sequence spans pp fun _ snap => .retained snap)
  | .waitFor spans pp => some (st.waitFor spans pp)
  | .waitUntilAcquired g => ownStep st g (.waitUntilAcquired g)
  | .check g => ownStep st g (.check g)
  | .receiveDone g => ownStep st g (.receiveDone g)
  | .receivePoison g => ownStep st g (.receivePoison g)
  | .cancel g => ownStep st g (.cancel g)
  | .acquired g => ownStep st g (.acquired g)
  | .release g => ownStep st g (.release g)
  | .remove g => ownStep st g (.remove g)
  | .poison g => ownStep st g (.poison g)

end Ratel.Spanlatch
