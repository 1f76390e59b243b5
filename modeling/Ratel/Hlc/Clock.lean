import Mathlib
import Ratel.Lib.Runs

/- The hybrid logical clock under concurrent calls. A step is one access to shared memory by one
   call: an atomic load, a store, a compare-and-swap, taking or releasing the mutex. The wall time
   and the logical part are stored one after the other, with the mutex held, and `Update` reads
   the wall time without it. A reading of the physical clock is an input of the step that takes
   it. What a call is, when it started, what it read and when it returned what is kept in its
   record. -/
namespace Ratel.Hlc

open Ratel.Lib

structure ClockTimestamp where
  wallTime : Int
  logical : Int
deriving DecidableEq, Repr

namespace ClockTimestamp

def Less (t s : ClockTimestamp) : Prop :=
  t.wallTime < s.wallTime ∨ t.wallTime = s.wallTime ∧ t.logical < s.logical

def LessEq (t s : ClockTimestamp) : Prop :=
  t.wallTime < s.wallTime ∨ t.wallTime = s.wallTime ∧ t.logical ≤ s.logical

end ClockTimestamp

/-- The value of an int64, and of an int32, computed without bound. -/
def wrap64 (n : Int) : Int := (n + 2 ^ 63) % 2 ^ 64 - 2 ^ 63
def wrap32 (n : Int) : Int := (n + 2 ^ 31) % 2 ^ 32 - 2 ^ 31

/-- The clock's settings, fixed while the calls run. -/
structure Config where
  maxOffset : Int
  forwardClockJumpCheckEnabled : Bool
  wallTimeUpperBound : Int

namespace Config

variable (cfg : Config)

def toleratedForwardClockJump : Int := cfg.maxOffset.tdiv 2

/-- `checkPhysicalClock` ends the process. -/
def ForwardJump (oldTime newTime : Int) : Prop :=
  oldTime ≠ 0 ∧ cfg.forwardClockJumpCheckEnabled = true ∧
    cfg.toleratedForwardClockJump ≤ wrap64 (-wrap64 (oldTime - newTime))

/-- `enforceWallTimeWithinBoundLocked` ends the process. -/
def OutOfBound (wallTime : Int) : Prop := cfg.wallTimeUpperBound ≠ 0 ∧ cfg.wallTimeUpperBound < wallTime

/-- `UpdateAndCheckMaxOffset` does not trust the remote wall time. -/
def TooFarAhead (rt : ClockTimestamp) (physicalClock : Int) : Prop :=
  0 < cfg.maxOffset ∧ cfg.maxOffset < wrap64 (rt.wallTime - physicalClock)

instance (a b : Int) : Decidable (cfg.ForwardJump a b) := inferInstanceAs (Decidable (_ ∧ _ ∧ _))
instance (a : Int) : Decidable (cfg.OutOfBound a) := inferInstanceAs (Decidable (_ ∧ _))
instance (rt : ClockTimestamp) (a : Int) : Decidable (cfg.TooFarAhead rt a) := inferInstanceAs (Decidable (_ ∧ _))

end Config

inductive Call
  | now
  | update (rt : ClockTimestamp)
  | updateAndCheckMaxOffset (rt : ClockTimestamp)
deriving DecidableEq, Repr

inductive Result
  | timestamp (ts : ClockTimestamp)
  | updated
  /-- `UpdateAndCheckMaxOffset` returned an error. -/
  | untrustworthy
deriving DecidableEq, Repr

/-- Where a call is: the access to shared memory it makes next, with its local variables. -/
inductive Pc
  -- getPhysicalClockAndCheck
  | loadLastPhysical
  | readWallClock (oldTime : Int)
  | swapLastPhysical (oldTime lastPhysTime newTime : Int)
  | reloadLastPhysical (oldTime newTime : Int)
  | checkPhysicalClock (oldTime newTime : Int)
  -- NowAsClockTimestamp
  | nowLock (physicalClock : Int)
  | nowCompare (physicalClock : Int)
  | nowTick (physicalClock : Int)
  | nowStoreWall (physicalClock : Int)
  | nowResetLogical (physicalClock : Int)
  | nowEnforce (physicalClock : Int)
  | nowUnlock (ts : ClockTimestamp)
  | nowReturn (ts : ClockTimestamp)
  -- UpdateAndCheckMaxOffset
  | checkOffset (physicalClock : Int)
  | refuse
  -- Update
  | updateLoad (rt : ClockTimestamp)
  | updateLock (rt : ClockTimestamp)
  | updateCompare (rt : ClockTimestamp)
  | updateStoreWall (rt : ClockTimestamp)
  | updateStoreLogical (rt : ClockTimestamp)
  | updateEnforce (rt : ClockTimestamp)
  | updateUnlock (rt : ClockTimestamp)
  | updateReturn (rt : ClockTimestamp)
  | returned (result : Result) (step : Nat)
deriving DecidableEq, Repr

/-- The next access increments the logical part. -/
def Pc.ticks : Pc → Bool
  | .nowTick _ => true
  | _ => false

structure Record where
  call : Call
  start : Nat
  reading : Option Int
  pc : Pc
deriving DecidableEq, Repr

variable {ι : Type} [DecidableEq ι]

structure State (ι : Type) where
  wallTime : Int
  logical : Int
  lastPhysicalTime : Int
  mu : Option ι
  calls : ι → Option Record
  steps : Nat
  /-- The process ended with `log.Fatalf`. -/
  dead : Bool

inductive Action (ι : Type)
  | start (id : ι) (call : Call)
  | advance (id : ι) (reading : Int)

namespace State

variable (s : State ι)

def timestamp : ClockTimestamp := ⟨s.wallTime, s.logical⟩

/-- The record of a call moves on to `pc`. -/
def goto (id : ι) (r : Record) (pc : Pc) : State ι :=
  { s with calls := Function.update s.calls id (some { r with pc := pc }) }

/-- One access to shared memory by a call, or `none` while it waits for the mutex. -/
def exec (cfg : Config) (id : ι) (reading : Int) (r : Record) : Option (State ι) :=
  match r.pc with
  | .loadLastPhysical => some (s.goto id r (.readWallClock s.lastPhysicalTime))
  | .readWallClock oldTime =>
    some (s.goto id { r with reading := some reading } (.swapLastPhysical oldTime oldTime reading))
  | .swapLastPhysical oldTime lastPhysTime newTime =>
    if s.lastPhysicalTime = lastPhysTime then
      some { s.goto id r (.checkPhysicalClock oldTime newTime) with lastPhysicalTime := newTime }
    else some (s.goto id r (.reloadLastPhysical oldTime newTime))
  | .reloadLastPhysical oldTime newTime =>
    if s.lastPhysicalTime ≥ newTime then some (s.goto id r (.checkPhysicalClock oldTime newTime))
    else some (s.goto id r (.swapLastPhysical oldTime s.lastPhysicalTime newTime))
  | .checkPhysicalClock oldTime newTime =>
    if cfg.ForwardJump oldTime newTime then some { s with dead := true }
    else match r.call with
      | .now => some (s.goto id r (.nowLock newTime))
      | .updateAndCheckMaxOffset _ => some (s.goto id r (.checkOffset newTime))
      | .update _ => none
  | .nowLock p => if s.mu = none then some { s.goto id r (.nowCompare p) with mu := some id } else none
  | .nowCompare p =>
    if s.wallTime ≥ p then some (s.goto id r (.nowTick p)) else some (s.goto id r (.nowStoreWall p))
  | .nowTick p => some { s.goto id r (.nowEnforce p) with logical := wrap32 (s.logical + 1) }
  | .nowStoreWall p => some { s.goto id r (.nowResetLogical p) with wallTime := p }
  | .nowResetLogical p => some { s.goto id r (.nowEnforce p) with logical := 0 }
  | .nowEnforce _ =>
    if cfg.OutOfBound s.wallTime then some { s with dead := true }
    else some (s.goto id r (.nowUnlock s.timestamp))
  | .nowUnlock ts => some { s.goto id r (.nowReturn ts) with mu := none }
  | .nowReturn ts => some (s.goto id r (.returned (.timestamp ts) s.steps))
  | .checkOffset p =>
    match r.call with
    | .updateAndCheckMaxOffset rt =>
      if cfg.TooFarAhead rt p then some (s.goto id r .refuse)
      else if p > rt.wallTime then some (s.goto id r (.updateLoad ⟨p, 0⟩))
      else some (s.goto id r (.updateLoad rt))
    | _ => none
  | .refuse => some (s.goto id r (.returned .untrustworthy s.steps))
  | .updateLoad rt =>
    if rt.wallTime < s.wallTime then some (s.goto id r (.updateReturn rt))
    else some (s.goto id r (.updateLock rt))
  | .updateLock rt => if s.mu = none then some { s.goto id r (.updateCompare rt) with mu := some id } else none
  | .updateCompare rt =>
    if rt.wallTime > s.wallTime then some (s.goto id r (.updateStoreWall rt))
    else if rt.wallTime = s.wallTime then
      if rt.logical > s.logical then some (s.goto id r (.updateStoreLogical rt))
      else some (s.goto id r (.updateEnforce rt))
    else some (s.goto id r (.updateEnforce rt))
  | .updateStoreWall rt => some { s.goto id r (.updateStoreLogical rt) with wallTime := rt.wallTime }
  | .updateStoreLogical rt => some { s.goto id r (.updateEnforce rt) with logical := rt.logical }
  | .updateEnforce rt =>
    if cfg.OutOfBound s.wallTime then some { s with dead := true }
    else some (s.goto id r (.updateUnlock rt))
  | .updateUnlock rt => some { s.goto id r (.updateReturn rt) with mu := none }
  | .updateReturn _ => some (s.goto id r (.returned .updated s.steps))
  | .returned _ _ => none

/-- Where a call begins. -/
def entry : Call → Pc
  | .now => .loadLastPhysical
  | .update rt => .updateLoad rt
  | .updateAndCheckMaxOffset _ => .loadLastPhysical

/-- A step of the clock, counted; `none` if it cannot be taken. -/
def step (cfg : Config) (s : State ι) (a : Action ι) : Option (State ι) :=
  if s.dead then none
  else match a with
    | .start id call =>
      match s.calls id with
      | none => some { s with
          calls := Function.update s.calls id (some ⟨call, s.steps, none, entry call⟩), steps := s.steps + 1 }
      | some _ => none
    | .advance id reading =>
      match s.calls id with
      | none => none
      | some r => (s.exec cfg id reading r).map fun s' => { s' with steps := s.steps + 1 }

/-- The step ticks the logical counter, and the counter wraps. -/
def Overflows (s : State ι) : Action ι → Prop
  | .start _ _ => False
  | .advance id _ => (s.calls id).any (·.pc.ticks) = true ∧ wrap32 (s.logical + 1) ≠ s.logical + 1

instance (s : State ι) : (a : Action ι) → Decidable (s.Overflows a)
  | .start _ _ => isFalse id
  | .advance _ _ => inferInstanceAs (Decidable (_ ∧ _))

/-- A clock before its first call. -/
def init (wallTime logical lastPhysicalTime : Int) : State ι :=
  ⟨wallTime, logical, lastPhysicalTime, none, fun _ => none, 0, false⟩

end State

end Ratel.Hlc
