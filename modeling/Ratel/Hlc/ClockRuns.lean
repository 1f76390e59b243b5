import Ratel.Hlc.Clock

/- Causality of the clock over every interleaving. While the mutex is free the clock's timestamp is
   what it was last left at, `base`; the call that holds the mutex moves the wall time first and
   the logical part after it, and leaves a timestamp that is not below `base`, strictly above it
   if the call is `Now`. What a call has been told is passed: it is at most `base`, or its wall
   time is below the one stored, which is all that the fast path of `Update` sees. A later `Now`
   takes the mutex once it is free, and then everything passed is at most `base`. -/
namespace Ratel.Hlc

open Ratel.Lib Function

variable {ι : Type} [DecidableEq ι]

namespace ClockTimestamp

variable {t s u : ClockTimestamp}

theorem LessEq.refl (t : ClockTimestamp) : t.LessEq t := .inr ⟨rfl, Int.le_refl _⟩

theorem Less.lessEq (h : t.Less s) : t.LessEq s := by
  unfold Less at h
  unfold LessEq
  omega

theorem LessEq.trans (h : t.LessEq s) (h' : s.LessEq u) : t.LessEq u := by
  unfold LessEq at *
  omega

theorem LessEq.trans_less (h : t.LessEq s) (h' : s.Less u) : t.Less u := by
  unfold LessEq at h
  unfold Less at *
  omega

theorem LessEq.wall_le (h : t.LessEq s) : t.wallTime ≤ s.wallTime := by
  unfold LessEq at h
  omega

theorem LessEq.ne_of_less (h : t.LessEq s) (h' : s.Less u) : t ≠ u := by
  intro he
  subst he
  unfold LessEq at h
  unfold Less at h'
  omega

end ClockTimestamp

/-! What is known of a call. -/

/-- The call holds the mutex. -/
def Pc.holds : Pc → Bool
  | .nowCompare _ | .nowTick _ | .nowStoreWall _ | .nowResetLogical _ | .nowEnforce _ | .nowUnlock _
  | .updateCompare _ | .updateStoreWall _ | .updateStoreLogical _ | .updateEnforce _ | .updateUnlock _ => true
  | _ => false

/-- The timestamp of a `Now` that has released the mutex. -/
def Pc.value? : Pc → Option ClockTimestamp
  | .nowReturn ts | .returned (.timestamp ts) _ => some ts
  | _ => none

/-- The call passes `rt` to the clock. -/
def Call.Passes : Call → ClockTimestamp → Prop
  | .now, _ => False
  | .update rt, x | .updateAndCheckMaxOffset rt, x => x = rt

/-- A call that returned `result` knows that the clock is not below `x`. -/
def Supplies (call : Call) (result : Result) (x : ClockTimestamp) : Prop :=
  match result with
  | .timestamp ts => x = ts
  | .updated => call.Passes x
  | .untrustworthy => False

/-- `x` is supplied by a call that returned before step `n`. -/
def State.Floor (s : State ι) (n : Nat) (x : ClockTimestamp) : Prop :=
  ∃ id r result m, s.calls id = some r ∧ r.pc = .returned result m ∧ m < n ∧ Supplies r.call result x

/-- The clock, last left at `base` and now at `cur`, has reached `x`. -/
def Passed (base cur x : ClockTimestamp) : Prop := x.LessEq base ∨ x.wallTime < cur.wallTime

/-- The timestamp handed to `Update` is not below what the call passes. -/
def Covers (call : Call) (rt : ClockTimestamp) : Prop := ∀ x, call.Passes x → x.LessEq rt

/-- A `Now` that has taken a reading and has the mutex; `F` is what was supplied before it
    started. -/
structure Holding (base : ClockTimestamp) (F : ClockTimestamp → Prop) (r : Record) (p : Int) : Prop where
  call : r.call = .now
  reading : r.reading = some p
  floor : ∀ x, F x → x.LessEq base

/-- A `Now` whose result is fixed. -/
structure Fixed (base : ClockTimestamp) (F : ClockTimestamp → Prop) (r : Record) (ts : ClockTimestamp) : Prop where
  call : r.call = .now
  reading : ∃ p, r.reading = some p ∧ p ≤ ts.wallTime
  floor : ∀ x, F x → x.Less ts
  le_base : ts.LessEq base

/-- What is known of a call at each point, with the clock last left at `base` and now at `cur`. -/
def Known (base cur : ClockTimestamp) (F : ClockTimestamp → Prop) (r : Record) : Prop :=
  match r.pc with
  | .loadLastPhysical | .readWallClock _ | .refuse | .checkOffset _ | .returned .untrustworthy _ => True
  | .swapLastPhysical _ _ n | .reloadLastPhysical _ n | .checkPhysicalClock _ n => r.reading = some n
  | .nowLock p => r.call = .now ∧ r.reading = some p
  | .nowCompare p => Holding base F r p ∧ base = cur
  | .nowTick p => Holding base F r p ∧ base = cur ∧ p ≤ cur.wallTime
  | .nowStoreWall p => Holding base F r p ∧ base = cur ∧ cur.wallTime < p
  | .nowResetLogical p => Holding base F r p ∧ base.wallTime < cur.wallTime ∧ cur.wallTime = p
  | .nowEnforce p => Holding base F r p ∧ base.Less cur ∧ p ≤ cur.wallTime
  | .nowUnlock ts => ∃ p, Holding base F r p ∧ base.Less ts ∧ p ≤ ts.wallTime ∧ ts = cur
  | .nowReturn ts | .returned (.timestamp ts) _ => Fixed base F r ts
  | .updateLoad rt | .updateLock rt => Covers r.call rt
  | .updateCompare rt => Covers r.call rt ∧ base = cur
  | .updateStoreWall rt => Covers r.call rt ∧ base = cur ∧ cur.wallTime < rt.wallTime
  | .updateStoreLogical rt => Covers r.call rt ∧ cur.wallTime = rt.wallTime ∧
      (base.wallTime < cur.wallTime ∨ base = cur ∧ cur.logical < rt.logical)
  | .updateEnforce rt | .updateUnlock rt => Covers r.call rt ∧ base.LessEq cur ∧ rt.LessEq cur
  | .updateReturn rt => Covers r.call rt ∧ Passed base cur rt
  | .returned .updated _ => ∀ x, r.call.Passes x → Passed base cur x

variable {base base' cur x : ClockTimestamp} {F : ClockTimestamp → Prop} {r : Record} {s s' : State ι} {id : ι}

theorem Passed.mono {cur' : ClockTimestamp} (h : Passed base cur x) (hb : base.LessEq base')
    (hc : cur.wallTime ≤ cur'.wallTime) : Passed base' cur' x := by
  rcases h with hx | hx
  · exact .inl (hx.trans hb)
  · exact .inr (Int.lt_of_lt_of_le hx hc)

theorem Passed.of_le {y : ClockTimestamp} (hxy : x.LessEq y) (h : Passed base cur y) :
    Passed base cur x := by
  rcases h with hy | hy
  · exact .inl (hxy.trans hy)
  · exact .inr (Int.lt_of_le_of_lt hxy.wall_le hy)

/-- Once the mutex is free, what has been passed is at most the timestamp. -/
theorem Passed.lessEq (h : Passed cur cur x) : x.LessEq cur := by
  rcases h with hx | hx
  · exact hx
  · exact .inl hx

theorem Fixed.mono {ts : ClockTimestamp} (h : Fixed base F r ts) (hb : base.LessEq base') : Fixed base' F r ts :=
  ⟨h.call, h.reading, h.floor, h.le_base.trans hb⟩

/-- What is known of a call without the mutex stays known as the clock moves on. -/
theorem Known.mono {cur' : ClockTimestamp}
    (h : Known base cur F r) (hfree : r.pc.holds = false) (hb : base.LessEq base')
    (hc : cur.wallTime ≤ cur'.wallTime) : Known base' cur' F r := by
  obtain ⟨call, start, reading, pc⟩ := r
  cases pc with
  | nowReturn ts => exact Fixed.mono h hb
  | updateReturn rt => exact ⟨h.1, h.2.mono hb hc⟩
  | returned result m =>
    cases result with
    | timestamp ts => exact Fixed.mono h hb
    | updated => exact fun x hx => (h x hx).mono hb hc
    | untrustworthy => trivial
  | nowCompare _ | nowTick _ | nowStoreWall _ | nowResetLogical _ | nowEnforce _ | nowUnlock _
  | updateCompare _ | updateStoreWall _ | updateStoreLogical _ | updateEnforce _ | updateUnlock _ => cases hfree
  | loadLastPhysical | readWallClock _ | swapLastPhysical _ _ _ | reloadLastPhysical _ _ | checkPhysicalClock _ _
  | nowLock _ | checkOffset _ | refuse | updateLoad _ | updateLock _ => exact h

/-- What a call supplies when it returns has been passed. -/
theorem Known.supplies {result : Result} {m : Nat}
    (h : Known base cur F r) (hpc : r.pc = .returned result m) (hx : Supplies r.call result x) :
    Passed base cur x := by
  simp only [Known, hpc] at h
  cases result with
  | timestamp ts =>
    cases hx
    exact .inl h.le_base
  | updated => exact h x hx
  | untrustworthy => exact hx.elim

theorem Known.value_le {ts : ClockTimestamp}
    (h : Known base cur F r) (hv : r.pc.value? = some ts) : ts.LessEq base := by
  obtain ⟨call, start, reading, pc⟩ := r
  cases pc with
  | nowReturn ts' =>
    cases hv
    exact Fixed.le_base h
  | returned result m =>
    cases result with
    | timestamp ts' =>
      cases hv
      exact Fixed.le_base h
    | updated => cases hv
    | untrustworthy => cases hv
  | _ => cases hv

/-! The invariant. -/

/-- The clock was last left at `base`. -/
structure InvAt (base : ClockTimestamp) (s : State ι) : Prop where
  holder : ∀ id r, s.calls id = some r → (r.pc.holds = true ↔ s.mu = some id)
  holder_called : ∀ id, s.mu = some id → s.calls id ≠ none
  free : s.mu = none → base = s.timestamp
  started : ∀ id r, s.calls id = some r → r.start < s.steps
  returned : ∀ id r result m, s.calls id = some r → r.pc = .returned result m → m < s.steps
  known : ∀ id r, s.calls id = some r → Known base s.timestamp (s.Floor r.start) r
  distinct : ∀ i j ri rj x y, i ≠ j → s.calls i = some ri → s.calls j = some rj →
    ri.pc.value? = some x → rj.pc.value? = some y → x ≠ y

omit [DecidableEq ι] in
theorem InvAt.passed (h : InvAt base s) {n : Nat} (hx : s.Floor n x) : Passed base s.timestamp x := by
  obtain ⟨id, r, result, m, hr, hpc, -, hsup⟩ := hx
  exact (h.known id r hr).supplies hpc hsup

/-- What was supplied before a step that has been taken is not changed by a move of one call that
    has not returned. -/
theorem floor_update {r' : Record} {n : Nat} (hcalls : s'.calls = update s.calls id (some r'))
    (hold : ∀ r result m, s.calls id = some r → r.pc ≠ .returned result m)
    (hnew : ∀ result m, r'.pc = .returned result m → n ≤ m) (x : ClockTimestamp) : s'.Floor n x ↔ s.Floor n x := by
  constructor
  · intro ⟨j, rj, result, m, hj, hpc, hlt, hsup⟩
    rw [hcalls] at hj
    by_cases hji : j = id
    · subst hji
      rw [update_self] at hj
      cases hj
      have := hnew result m hpc
      omega
    · rw [update_of_ne hji] at hj
      exact ⟨j, rj, result, m, hj, hpc, hlt, hsup⟩
  · intro ⟨j, rj, result, m, hj, hpc, hlt, hsup⟩
    have hji : j ≠ id := fun he => hold rj result m (he ▸ hj) hpc
    exact ⟨j, rj, result, m, by rw [hcalls, update_of_ne hji, hj], hpc, hlt, hsup⟩

theorem forall_calls_update {r' : Record} {P : ι → Record → Prop} (hcalls : s'.calls = update s.calls id (some r'))
    (hid : P id r') (hother : ∀ j rj, j ≠ id → s.calls j = some rj → P j rj) (j : ι) (rj : Record)
    (hj : s'.calls j = some rj) : P j rj := by
  rw [hcalls] at hj
  by_cases hji : j = id
  · subst hji
    rw [update_self] at hj
    cases hj
    exact hid
  · rw [update_of_ne hji] at hj
    exact hother j rj hji hj

/-- One call starts or moves on; the others keep what is known of them. -/
theorem InvAt.setCall {r' : Record} (h : InvAt base s) (hcalls : s'.calls = update s.calls id (some r'))
    (hsteps : s'.steps = s.steps + 1) (hold : ∀ r result m, s.calls id = some r → r.pc ≠ .returned result m)
    (hstart : r'.start ≤ s.steps) (hreturned : ∀ result m, r'.pc = .returned result m → m = s.steps)
    (hholds : r'.pc.holds = true ↔ s'.mu = some id) (hothers : ∀ j, j ≠ id → (s'.mu = some j ↔ s.mu = some j))
    (hfree : s'.mu = none → base' = s'.timestamp) (hnew : Known base' s'.timestamp (s.Floor r'.start) r')
    (hknown : ∀ j rj, j ≠ id → s.calls j = some rj → Known base' s'.timestamp (s.Floor rj.start) rj)
    (hvalue : ∀ j rj x y, j ≠ id → s.calls j = some rj → r'.pc.value? = some x → rj.pc.value? = some y → x ≠ y) :
    InvAt base' s' := by
  have hfloor : ∀ n, n ≤ s.steps → s'.Floor n = s.Floor n := fun n hn => funext fun x =>
    propext (floor_update hcalls hold (fun result m hpc => hreturned result m hpc ▸ hn) x)
  refine ⟨?_, ?_, hfree, ?_, ?_, ?_, ?_⟩
  · refine forall_calls_update hcalls hholds fun j rj hji hj => ?_
    rw [h.holder j rj hj, hothers j hji]
  · intro j hj
    rw [hcalls]
    by_cases hji : j = id
    · rw [hji, update_self]
      exact Option.some_ne_none r'
    · rw [update_of_ne hji]
      exact h.holder_called j ((hothers j hji).mp hj)
  · rw [hsteps]
    exact forall_calls_update hcalls (Nat.lt_succ_of_le hstart) fun j rj _ hj => Nat.lt_succ_of_lt (h.started j rj hj)
  · intro j rj result m hj
    rw [hsteps]
    refine forall_calls_update (P := fun _ rj => rj.pc = .returned result m → m < s.steps + 1) hcalls
      (fun hpc => ?_) (fun j rj _ hj hpc => ?_) j rj hj
    · exact hreturned result m hpc ▸ Nat.lt_succ_self _
    · exact Nat.lt_succ_of_lt (h.returned j rj result m hj hpc)
  · refine forall_calls_update hcalls ?_ fun j rj hji hj => ?_
    · rw [hfloor _ hstart]
      exact hnew
    · rw [hfloor _ (Nat.le_of_lt (h.started j rj hj))]
      exact hknown j rj hji hj
  · intro i j ri rj x y hij hi hj hx hy
    rw [hcalls] at hi hj
    by_cases hii : i = id
    · subst hii
      rw [update_self] at hi
      cases hi
      rw [update_of_ne hij.symm] at hj
      exact hvalue j rj x y hij.symm hj hx hy
    rw [update_of_ne hii] at hi
    by_cases hji : j = id
    · subst hji
      rw [update_self] at hj
      cases hj
      exact (hvalue i ri y x hii hi hy hx).symm
    · rw [update_of_ne hji] at hj
      exact h.distinct i j ri rj x y hij hi hj hx hy

/-- The record of `id` changes from `r` to `r'`, and the step is counted. -/
structure Stepped (base : ClockTimestamp) (s s' : State ι) (id : ι) (r r' : Record) : Prop where
  calls : s'.calls = update s.calls id (some r')
  steps : s'.steps = s.steps + 1
  start : r'.start = r.start
  not_returned : ∀ result m, r.pc ≠ .returned result m
  now_returned : ∀ result m, r'.pc = .returned result m → m = s.steps
  value : ∀ ts, r'.pc.value? = some ts → r.pc.value? = some ts ∨ base.Less ts

/-- What a move of the call `id` from `r` to `r'` has to respect. -/
structure Move (base base' : ClockTimestamp) (s s' : State ι) (id : ι) (r r' : Record) : Prop
    extends Stepped base s s' id r r' where
  base_le : base.LessEq base'
  wall_le : s.wallTime ≤ s'.wallTime
  /-- Only the holder of the mutex moves the clock. -/
  alone : r.pc.holds = true ∨ base' = base ∧ s'.timestamp = s.timestamp
  holds : r'.pc.holds = true ↔ s'.mu = some id
  others : ∀ j, j ≠ id → (s'.mu = some j ↔ s.mu = some j)
  free : s'.mu = none → base' = s'.timestamp
  known : Known base' s'.timestamp (s.Floor r.start) r'

theorem InvAt.move {r' : Record} (h : InvAt base s)
    (hr : s.calls id = some r) (hm : Move base base' s s' id r r') : InvAt base' s' := by
  refine h.setCall hm.calls hm.steps (fun r₀ result m hr₀ => ?_) (hm.start ▸ Nat.le_of_lt (h.started id r hr))
    hm.now_returned hm.holds hm.others hm.free (hm.start ▸ hm.known) (fun j rj hji hj => ?_)
    fun j rj x y hji hj hx hy => ?_
  · cases hr.symm.trans hr₀
    exact hm.not_returned result m
  · rcases hm.alone with hholds | hsame
    · -- the mutex is with `id`, so not with `j`
      have hmu := (h.holder id r hr).mp hholds
      have hfree : rj.pc.holds = false := by
        rw [Bool.eq_false_iff]
        intro hj'
        exact hji (Option.some.inj (((h.holder j rj hj).mp hj').symm.trans hmu))
      exact (h.known j rj hj).mono hfree hm.base_le hm.wall_le
    · rw [hsame.1, hsame.2]
      exact h.known j rj hj
  · -- a value that is new lies above all values so far
    rcases hm.value x hx with hold | hlt
    · exact h.distinct id j r rj x y (Ne.symm hji) hr hj hold hy
    · exact (((h.known j rj hj).value_le hy).ne_of_less hlt).symm

/-! The kinds of moves. -/

section Moves

variable {base base' : ClockTimestamp} {s s' : State ι} {id : ι} {r r' : Record}

/-- What one access to shared memory by `id` does: it ends the process, or it is a move. -/
def Moves (base : ClockTimestamp) (s s' : State ι) (id : ι) (r : Record) : Prop :=
  s' = { s with dead := true } ∨ ∃ base' r', Move base base' s { s' with steps := s.steps + 1 } id r r'

/-- A point at which a `Now` has no value yet and the call has not returned. -/
def Pc.quiet : Pc → Bool
  | .nowReturn _ | .returned _ _ => false
  | _ => true

theorem Pc.value?_of_quiet {pc : Pc} (h : pc.quiet = true) : pc.value? = none := by
  cases pc <;> first | rfl | cases h

theorem Pc.not_returned_of_quiet {pc : Pc} (h : pc.quiet = true) (result : Result) (m : Nat) :
    pc ≠ .returned result m := by
  intro he
  rw [he] at h
  cases h

theorem Stepped.quiet (hcalls : s'.calls = update s.calls id (some r')) (hstart : r'.start = r.start)
    (hold : r.pc.quiet = true) (hnew : r'.pc.quiet = true) :
    Stepped base s { s' with steps := s.steps + 1 } id r r' where
  calls := hcalls
  steps := rfl
  start := hstart
  not_returned := Pc.not_returned_of_quiet hold
  now_returned result m hpc := absurd hpc (Pc.not_returned_of_quiet hnew result m)
  value ts hv := by
    rw [Pc.value?_of_quiet hnew] at hv
    cases hv

variable (h : InvAt base s)

include h

/-- The mutex is taken, from one quiet point to another. In this and the other moves, what
    the points and the state are like holds by computation. -/
theorem Moves.lock (hcalls : s'.calls = update s.calls id (some r')) (hfree : s.mu = none)
    (hk : base = s.timestamp → (∀ x, s.Floor r.start x → x.LessEq base) → Known base s.timestamp (s.Floor r.start) r')
    (hold : r.pc.quiet = true := by exact rfl)
    (hnew : r'.pc.quiet = true ∧ r'.pc.holds = true ∧ r'.start = r.start := by exact ⟨rfl, rfl, rfl⟩)
    (hs : s'.mu = some id ∧ s'.timestamp = s.timestamp := by exact ⟨rfl, rfl⟩) : Moves base s s' id r := by
  obtain ⟨hmu, ht⟩ := hs
  refine .inr ⟨base, r', {
    toStepped := .quiet hcalls hnew.2.2 hold hnew.1
    base_le := .refl base
    wall_le := Int.le_of_eq (congrArg ClockTimestamp.wallTime ht).symm
    alone := .inr ⟨rfl, ht⟩
    holds := iff_of_true hnew.2.1 hmu
    others := fun j hj => ?_
    free := fun hnone => absurd (hmu.symm.trans hnone) (by simp)
    known := ?_ }⟩
  · simp [hmu, hfree, hj.symm]
  have hbase := h.free hfree
  refine ht.symm ▸ hk hbase fun x hx => ?_
  have hpassed := h.passed hx
  rw [← hbase] at hpassed
  exact hpassed.lessEq

variable (hr : s.calls id = some r)

include hr

theorem Move.outside (hs : Stepped base s s' id r r')
    (hmu : s'.mu = s.mu) (ht : s'.timestamp = s.timestamp) (hold : r.pc.holds = false) (hnew : r'.pc.holds = false)
    (hk : Known base s.timestamp (s.Floor r.start) r') : Move base base s s' id r r' where
  toStepped := hs
  base_le := .refl base
  wall_le := Int.le_of_eq (congrArg ClockTimestamp.wallTime ht).symm
  alone := .inr ⟨rfl, ht⟩
  holds := by
    have := h.holder id r hr
    rw [hold] at this
    rw [hnew, hmu, ← this]
  others j _ := by rw [hmu]
  free hnone := by
    rw [ht]
    exact h.free (hmu ▸ hnone)
  known := ht ▸ hk

theorem Moves.outside (hcalls : s'.calls = update s.calls id (some r'))
    (hk : Known base s.timestamp (s.Floor r.start) r')
    (hold : r.pc.quiet = true ∧ r.pc.holds = false := by exact ⟨rfl, rfl⟩)
    (hnew : r'.pc.quiet = true ∧ r'.pc.holds = false ∧ r'.start = r.start := by exact ⟨rfl, rfl, rfl⟩)
    (hs : s'.mu = s.mu ∧ s'.timestamp = s.timestamp := by exact ⟨rfl, rfl⟩) : Moves base s s' id r :=
  .inr ⟨base, r', .outside h hr (.quiet hcalls hnew.2.2 hold.1 hnew.1) hs.1 hs.2 hold.2 hnew.2.1 hk⟩

/-- The call returns; the value of a `Now` is the one it had. -/
theorem Moves.returns {result : Result} (hcalls : s'.calls = update s.calls id (some r'))
    (hk : Known base s.timestamp (s.Floor r.start) r') (hpc : r'.pc = .returned result s.steps)
    (hold : ∀ result m, r.pc ≠ .returned result m) (hvalue : r'.pc.value? = r.pc.value? := by exact rfl)
    (hholds : r.pc.holds = false := by exact rfl) (hstart : r'.start = r.start := by exact rfl)
    (hs : s'.mu = s.mu ∧ s'.timestamp = s.timestamp := by exact ⟨rfl, rfl⟩) : Moves base s s' id r := by
  have hstepped : Stepped base s { s' with steps := s.steps + 1 } id r r' := by
    refine ⟨hcalls, rfl, hstart, hold, fun _ _ he => ?_, fun _ hv => .inl (hvalue ▸ hv)⟩
    rw [hpc] at he
    cases he
    rfl
  exact .inr ⟨base, r', .outside h hr hstepped hs.1 hs.2 hholds (by rw [hpc]; rfl) hk⟩

theorem Moves.inside (hcalls : s'.calls = update s.calls id (some r'))
    (hk : Known base s'.timestamp (s.Floor r.start) r') (hwall : s.wallTime ≤ s'.wallTime := by exact Int.le_refl _)
    (hold : r.pc.quiet = true ∧ r.pc.holds = true := by exact ⟨rfl, rfl⟩)
    (hnew : r'.pc.quiet = true ∧ r'.pc.holds = true ∧ r'.start = r.start := by exact ⟨rfl, rfl, rfl⟩)
    (hmu : s'.mu = s.mu := by exact rfl) : Moves base s s' id r := by
  have hmine : s'.mu = some id := hmu.trans ((h.holder id r hr).mp hold.2)
  exact .inr ⟨base, r', {
    toStepped := .quiet hcalls hnew.2.2 hold.1 hnew.1
    base_le := .refl base
    wall_le := hwall
    alone := .inl hold.2
    holds := iff_of_true hnew.2.1 hmine
    others := fun j _ => by rw [← hmu]
    free := fun hnone => absurd (hmine.symm.trans hnone) (by simp)
    known := hk }⟩

/-- The mutex is released, and the clock left where it is. -/
theorem Moves.unlock (hs : Stepped base s { s' with steps := s.steps + 1 } id r r')
    (hle : base.LessEq s.timestamp) (hk : Known s.timestamp s.timestamp (s.Floor r.start) r')
    (hholds : r.pc.holds = true ∧ r'.pc.holds = false := by exact ⟨rfl, rfl⟩)
    (hmu : s'.mu = none ∧ s'.timestamp = s.timestamp := by exact ⟨rfl, rfl⟩) : Moves base s s' id r := by
  obtain ⟨hnone, ht⟩ := hmu
  exact .inr ⟨s.timestamp, r', {
    toStepped := hs
    base_le := hle
    wall_le := Int.le_of_eq (congrArg ClockTimestamp.wallTime ht).symm
    alone := .inl hholds.1
    holds := by simp [hholds.2, hnone]
    others := fun j hj => by simp [hnone, (h.holder id r hr).mp hholds.1, hj.symm]
    free := fun _ => ht.symm
    known := ht.symm ▸ hk }⟩

end Moves

/-! Steps. -/

theorem Holding.goto {p : Int} (h : Holding base F r p) (pc : Pc) : Holding base F { r with pc := pc } p :=
  ⟨h.1, h.2, h.3⟩

section
variable {cfg : Config} {reading : Int} (h : InvAt base s) (hr : s.calls id = some r)
  (hexec : s.exec cfg id reading r = some s')

include h hr hexec

/-- `Now` ticks the logical part, which does not wrap. -/
theorem nowTick_move {p : Int} (hpc : r.pc = .nowTick p) (hno : ¬ s.Overflows (.advance id reading)) :
    Moves base s s' id r := by
  have hk := h.known id r hr
  obtain ⟨call, start, taken, pc⟩ := r
  cases hpc
  cases hexec
  obtain ⟨hhold, hbase, hle⟩ := hk
  have hwrap : wrap32 (s.logical + 1) = s.logical + 1 := by
    by_contra hne
    exact hno ⟨by rw [hr]; rfl, hne⟩
  refine .inside h hr rfl ⟨hhold.goto _, ?_, hle⟩
  rw [hbase]
  refine .inr ⟨rfl, ?_⟩
  show s.logical < wrap32 (s.logical + 1)
  omega

/-- `Now` releases the mutex, and has its value. -/
theorem nowUnlock_move {ts : ClockTimestamp} (hpc : r.pc = .nowUnlock ts) : Moves base s s' id r := by
  have hk := h.known id r hr
  obtain ⟨call, start, taken, pc⟩ := r
  cases hpc
  cases hexec
  obtain ⟨p, hhold, hlt, hle, hts⟩ := hk
  refine .unlock h hr ⟨rfl, rfl, rfl, nofun, nofun, fun x hx => ?_⟩
    (hts ▸ hlt.lessEq) ⟨hhold.1, ⟨p, hhold.2, hle⟩, fun x hx => (hhold.3 x hx).trans_less hlt, hts ▸ .refl _⟩
  cases hx
  exact .inr hlt

/-- What `UpdateAndCheckMaxOffset` hands to `Update` is not below what it was passed. -/
theorem checkOffset_move {p : Int} (hpc : r.pc = .checkOffset p) : Moves base s s' id r := by
  obtain ⟨call, start, taken, pc⟩ := r
  cases hpc
  cases call with
  | updateAndCheckMaxOffset rt =>
    simp only [State.exec] at hexec
    split at hexec
    · cases hexec
      exact .outside h hr rfl trivial
    split at hexec <;> cases hexec
    · next hgt =>
      refine .outside h hr rfl ?_
      rintro x ⟨⟩
      exact .inl hgt
    · refine .outside h hr rfl ?_
      rintro x ⟨⟩
      exact .refl rt
  | now => cases hexec
  | update rt => cases hexec

/-- `Update` compares: the clock's timestamp is behind, ahead or the same. -/
theorem updateCompare_move {rt : ClockTimestamp} (hpc : r.pc = .updateCompare rt) : Moves base s s' id r := by
  have hk := h.known id r hr
  obtain ⟨call, start, taken, pc⟩ := r
  cases hpc
  obtain ⟨hcov, hbase⟩ := hk
  simp only [State.exec] at hexec
  split at hexec
  · next hgt =>
    cases hexec
    exact .inside h hr rfl ⟨hcov, hbase, hgt⟩
  next hng =>
  split at hexec
  · next heq =>
    split at hexec <;> cases hexec
    · next hgt => exact .inside h hr rfl ⟨hcov, heq.symm, .inr ⟨hbase, hgt⟩⟩
    · next hle => exact .inside h hr rfl ⟨hcov, hbase ▸ .refl _, .inr ⟨heq, Int.not_lt.mp hle⟩⟩
  next hne =>
  cases hexec
  have hlt : rt.wallTime < s.wallTime := by omega
  exact .inside h hr rfl ⟨hcov, hbase ▸ .refl _, .inl hlt⟩

theorem exec_move (hno : ¬ s.Overflows (.advance id reading)) : Moves base s s' id r := by
  have hk := h.known id r hr
  obtain ⟨call, start, taken, pc⟩ := r
  cases pc with
  | loadLastPhysical =>
    cases hexec
    exact .outside h hr rfl trivial
  | readWallClock oldTime =>
    cases hexec
    exact .outside h hr rfl rfl
  | swapLastPhysical _ _ _ | reloadLastPhysical _ _ =>
    simp only [State.exec] at hexec
    split at hexec <;> cases hexec
    · exact .outside h hr rfl hk
    · exact .outside h hr rfl hk
  | checkPhysicalClock oldTime newTime =>
    simp only [State.exec] at hexec
    split at hexec
    · cases hexec
      exact .inl rfl
    cases call with
    | now =>
      cases hexec
      exact .outside h hr rfl ⟨rfl, hk⟩
    | updateAndCheckMaxOffset rt =>
      cases hexec
      exact .outside h hr rfl trivial
    | update rt => cases hexec
  | nowLock p =>
    simp only [State.exec] at hexec
    split at hexec <;> cases hexec
    next hmu => exact .lock h rfl hmu fun hbase hfloor => ⟨⟨hk.1, hk.2, hfloor⟩, hbase⟩
  | nowCompare p =>
    obtain ⟨hhold, hbase⟩ := hk
    simp only [State.exec] at hexec
    split at hexec <;> cases hexec
    · next hge => exact .inside h hr rfl ⟨hhold.goto _, hbase, hge⟩
    · next hlt => exact .inside h hr rfl ⟨hhold.goto _, hbase, Int.not_le.mp hlt⟩
  | nowTick p => exact nowTick_move h hr hexec rfl hno
  | nowStoreWall p =>
    obtain ⟨hhold, hbase, hlt⟩ := hk
    cases hexec
    exact .inside h hr rfl ⟨hhold.goto _, hbase ▸ hlt, rfl⟩ (Int.le_of_lt hlt)
  | nowResetLogical p =>
    obtain ⟨hhold, hlt, hwall⟩ := hk
    cases hexec
    exact .inside h hr rfl ⟨hhold.goto _, .inl hlt, Int.le_of_eq hwall.symm⟩
  | nowEnforce p =>
    obtain ⟨hhold, hlt, hle⟩ := hk
    simp only [State.exec] at hexec
    split at hexec <;> cases hexec
    · exact .inl rfl
    · exact .inside h hr rfl ⟨p, hhold.goto _, hlt, hle, rfl⟩
  | nowUnlock ts => exact nowUnlock_move h hr hexec rfl
  | nowReturn ts =>
    cases hexec
    exact .returns h hr rfl ⟨hk.1, hk.2, hk.3, hk.4⟩ rfl nofun
  | checkOffset p => exact checkOffset_move h hr hexec rfl
  | refuse =>
    cases hexec
    exact .returns h hr rfl trivial rfl nofun
  | updateLoad rt =>
    simp only [State.exec] at hexec
    split at hexec <;> cases hexec
    · next hlt => exact .outside h hr rfl ⟨hk, .inr hlt⟩
    · exact .outside h hr rfl hk
  | updateLock rt =>
    simp only [State.exec] at hexec
    split at hexec <;> cases hexec
    next hmu => exact .lock h rfl hmu fun hbase _ => ⟨hk, hbase⟩
  | updateCompare rt => exact updateCompare_move h hr hexec rfl
  | updateStoreWall rt =>
    obtain ⟨hcov, hbase, hlt⟩ := hk
    cases hexec
    exact .inside h hr rfl ⟨hcov, rfl, .inl (hbase ▸ hlt)⟩ (Int.le_of_lt hlt)
  | updateStoreLogical rt =>
    obtain ⟨hcov, hwall, hbelow⟩ := hk
    cases hexec
    refine .inside h hr rfl ⟨hcov, ?_, .inr ⟨hwall.symm, Int.le_refl _⟩⟩
    rcases hbelow with hlt | hlog
    · exact .inl hlt
    · rw [hlog.1]
      exact .inr ⟨rfl, Int.le_of_lt hlog.2⟩
  | updateEnforce rt =>
    simp only [State.exec] at hexec
    split at hexec <;> cases hexec
    · exact .inl rfl
    · exact .inside h hr rfl hk
  | updateUnlock rt =>
    obtain ⟨hcov, hbase, hrt⟩ := hk
    cases hexec
    exact .unlock h hr (.quiet rfl rfl rfl rfl) hbase ⟨hcov, .inl hrt⟩
  | updateReturn rt =>
    obtain ⟨hcov, hpassed⟩ := hk
    cases hexec
    exact .returns h hr rfl (fun x hx => hpassed.of_le (hcov x hx)) rfl nofun
  | returned result m => cases hexec

end

theorem InvAt.start {call : Call} (h : InvAt base s) (hnew : s.calls id = none)
    (hcalls : s'.calls = update s.calls id (some ⟨call, s.steps, none, State.entry call⟩))
    (hsteps : s'.steps = s.steps + 1) (hmu : s'.mu = s.mu) (ht : s'.timestamp = s.timestamp) : InvAt base s' := by
  have hquiet : (State.entry call).quiet = true := by cases call <;> rfl
  have hholds : (State.entry call).holds = false := by cases call <;> rfl
  refine h.setCall hcalls hsteps (fun r result m hr => ?_) (Nat.le_refl _)
    (fun result m hpc => absurd hpc (Pc.not_returned_of_quiet hquiet result m)) ?_ (fun j _ => by rw [hmu]) ?_ ?_
    (fun j rj _ hj => ht ▸ h.known j rj hj) fun j rj x y _ _ hx _ => ?_
  · rw [hnew] at hr
    cases hr
  · rw [hmu]
    exact iff_of_false (by simp [hholds]) fun he => h.holder_called id he hnew
  · rw [hmu, ht]
    exact h.free
  · cases call with
    | now => trivial
    | update rt => exact fun x hx => hx ▸ .refl _
    | updateAndCheckMaxOffset rt => trivial
  · rw [Pc.value?_of_quiet hquiet] at hx
    cases hx

omit [DecidableEq ι] in
/-- The process ends. -/
theorem InvAt.die (h : InvAt base s) :
    InvAt base { s with dead := true, steps := s.steps + 1 } :=
  ⟨h.holder, h.holder_called, h.free, fun id r hr => Nat.lt_succ_of_lt (h.started id r hr),
    fun id r result m hr hpc => Nat.lt_succ_of_lt (h.returned id r result m hr hpc), h.known, h.distinct⟩

theorem step_inv {cfg : Config} {a : Action ι} (h : ∃ base, InvAt base s) (hno : ¬ s.Overflows a)
    (hstep : s.step cfg a = some s') : ∃ base, InvAt base s' := by
  obtain ⟨base, h⟩ := h
  unfold State.step at hstep
  split at hstep
  · cases hstep
  cases a with
  | start id call =>
    cases hid : s.calls id with
    | some r =>
      simp only [hid] at hstep
      cases hstep
    | none =>
      simp only [hid, Option.some.injEq] at hstep
      subst hstep
      exact ⟨base, h.start hid rfl rfl rfl rfl⟩
  | advance id reading =>
    cases hr : s.calls id with
    | none =>
      simp only [hr] at hstep
      cases hstep
    | some r =>
      simp only [hr] at hstep
      obtain ⟨t, hexec, rfl⟩ := Option.map_eq_some_iff.mp hstep
      rcases exec_move h hr hexec hno with hdead | hmove
      · subst hdead
        exact ⟨base, h.die⟩
      · obtain ⟨base', r', hm⟩ := hmove
        exact ⟨base', h.move hr hm⟩

omit [DecidableEq ι] in
theorem init_inv (wallTime logical lastPhysicalTime : Int) :
    InvAt ⟨wallTime, logical⟩ (State.init wallTime logical lastPhysicalTime : State ι) where
  holder _ _ h := nomatch h
  holder_called _ h := nomatch h
  free _ := rfl
  started _ _ h := nomatch h
  returned _ _ _ _ h := nomatch h
  known _ _ h := nomatch h
  distinct _ _ _ _ _ _ _ h := nomatch h

/-! Causality. -/

/-- The call `r` is a `Now` that returned `ts` at step `m`. -/
def Record.NowReturned (r : Record) (ts : ClockTimestamp) (m : Nat) : Prop :=
  r.call = .now ∧ r.pc = .returned (.timestamp ts) m

/-- The call `r` is an `Update` of `rt`, or a successful one that checks the offset, and returned at
    step `m`. -/
def Record.UpdateReturned (r : Record) (rt : ClockTimestamp) (m : Nat) : Prop :=
  (r.call = .update rt ∨ r.call = .updateAndCheckMaxOffset rt) ∧ r.pc = .returned .updated m

/-- What the clock promises about the calls that have returned. -/
structure Causal (s : State ι) : Prop where
  now_after_now : ∀ i j ri rj x y m n, s.calls i = some ri → s.calls j = some rj →
    ri.NowReturned x m → rj.NowReturned y n → m < rj.start → x.Less y
  now_ne_now : ∀ i j ri rj x y m n, i ≠ j → s.calls i = some ri → s.calls j = some rj →
    ri.NowReturned x m → rj.NowReturned y n → x ≠ y
  now_after_update : ∀ i j ri rj rt y m n, s.calls i = some ri → s.calls j = some rj →
    ri.UpdateReturned rt m → rj.NowReturned y n → m < rj.start → rt.Less y
  now_ge_reading : ∀ j rj y n, s.calls j = some rj → rj.NowReturned y n → ∃ p, rj.reading = some p ∧ p ≤ y.wallTime

omit [DecidableEq ι] in
theorem InvAt.causal (h : InvAt base s) : Causal s := by
  have hfixed : ∀ {j rj y n}, s.calls j = some rj → rj.NowReturned y n → Fixed base (s.Floor rj.start) rj y := by
    intro j rj y n hj hy
    have hk := h.known j rj hj
    simp only [Known, hy.2] at hk
    exact hk
  refine ⟨?_, ?_, ?_, ?_⟩
  · intro i j ri rj x y m n hi hj hx hy hlt
    exact (hfixed hj hy).floor x ⟨i, ri, _, m, hi, hx.2, hlt, rfl⟩
  · intro i j ri rj x y m n hij hi hj hx hy
    exact h.distinct i j ri rj x y hij hi hj (by rw [hx.2]; rfl) (by rw [hy.2]; rfl)
  · intro i j ri rj rt y m n hi hj hrt hy hlt
    refine (hfixed hj hy).floor rt ⟨i, ri, _, m, hi, hrt.2, hlt, ?_⟩
    rcases hrt.1 with hcall | hcall
    · rw [hcall]
      exact rfl
    · rw [hcall]
      exact rfl
  · intro j rj y n hj hy
    exact (hfixed hj hy).reading

/-- In every interleaving of calls in which the logical counter does not overflow, a `Now` is above
    every `Now` and every update that returned before it started, no two results are equal, and
    none is below the reading it took. -/
theorem clock_causality (cfg : Config) (wallTime logical lastPhysicalTime : Int) (as : List (Action ι)) (s : State ι)
    (hno : Along (State.step cfg) (fun s a => ¬ s.Overflows a) (State.init wallTime logical lastPhysicalTime) as)
    (hrun : run (State.step cfg) (State.init wallTime logical lastPhysicalTime) as = some s) : Causal s := by
  have hinv := run_inv (fun s : State ι => ∃ base, InvAt base s)
    (fun s a s' h hok hstep => step_inv h hok hstep) ⟨_, init_inv wallTime logical lastPhysicalTime⟩ hno hrun
  obtain ⟨base, h⟩ := hinv
  exact h.causal

/-- A `Now`, an update of its wall time with a larger logical part, and a `Now` whose reading has moved
    backward. -/
def backwardReading : List (Action (Fin 3)) :=
  .start 0 .now :: List.replicate 11 (.advance 0 5) ++ .start 1 (.update ⟨5, 7⟩) :: List.replicate 7 (.advance 1 0) ++
    .start 2 .now :: List.replicate 10 (.advance 2 3)

theorem clock_causality_backward :
    ∃ s : State (Fin 3), run (State.step ⟨500, true, 0⟩) (State.init 0 0 0) backwardReading = some s ∧
      s.calls 2 = some ⟨.now, 20, some 3, .returned (.timestamp ⟨5, 8⟩) 30⟩ ∧ Causal s :=
  ⟨_, rfl, by decide +kernel, clock_causality ⟨500, true, 0⟩ 0 0 0 backwardReading _ (by decide +kernel) rfl⟩

end Ratel.Hlc
