import Ratel.Storage.Scanner

/- One specification for each positioning function of the scanner. Whatever the function
   does on the way (bare range keys skipped, steps or seeks, a peek undone), it ends on
   a point the source names: the next point, the previous one, the newest record of a
   key. The only other traces it leaves are the number of iterations before a seek,
   which matters to no result, and the range-key signal. -/
namespace Ratel.Storage

open Encoding Keys Lib Source MVCCKey

variable {o : ScanOptions} {src : Source}

/-! Skipping bare range keys. -/

/-- Skipping has ended on the point `q`, with the range keys over it, or off the entries. -/
def Skipped (src : Source) (st : State) : Option MVCCKey → State × Bool → Prop
  | some q, r => ∃ changed, r =
      ({ st with parent := .on q, curRangeKeys := src.rangeAt q.key, rangeKeyChanged := changed }, true)
  | none, r => ∃ c ranges changed, r =
      ({ st with parent := c, curRangeKeys := ranges, rangeKeyChanged := changed }, false) ∧ src.rangesOn c = none

/-- The range keys at `p` are the scanner's, or will be loaded. -/
def Loaded (src : Source) (seeked : Bool) (st : State) (p : MVCCKey) : Prop :=
  ∀ s, src.rangeAt p.key = some s →
    st.rangeKeyChanged = true ∨ st.curRangeKeys = some s ∨ seeked = true ∧ st.curRangeKeys = none

/-- Without the signal, a forward step has landed on a point under the same range keys. -/
def Stepped (src : Source) (st : State) (p : MVCCKey) : Prop :=
  st.rangeKeyChanged = false → src.IsPoint p ∧ st.curRangeKeys = src.rangeAt p.key

variable {seeked reverse : Bool} {st st' : State} {p q : MVCCKey} {c : Cursor MVCCKey} {r : State × Bool}
    {k : Bytes}

theorem Loaded.load {s : RangeKeyStack} (h : Loaded src seeked st p) (hs : src.rangeAt p.key = some s) :
    st.loadRanges seeked s = { st with curRangeKeys := some s } := by
  unfold State.loadRanges
  rcases h s hs with h | h | ⟨h, h'⟩
  · simp [h]
  · split
    · rfl
    · rw [← h]
  · simp [h, h']

theorem rangesOn_of_moved (h : (st.moveTo src c).rangeKeyChanged = false) :
    src.rangesOn st.parent = src.rangesOn c := by
  simpa [State.moveTo] using h

theorem isPoint_or_range (h : p ∈ src.stops) : src.IsPoint p ∨ (src.rangeAt p.key).isSome := by
  rcases (src.mem_stops p).mp h with h | ⟨_, s, hs, _⟩
  · exact .inl h
  · exact .inr (by simp [hs])

/-- The step from a bare range key to the next stop in a direction. -/
theorem step_of_bare (reverse : Bool) (hn : ¬ src.IsPoint p) :
    (∃ q, (if reverse then Cursor.prev src.stops (.on p) else Cursor.next src.stops (.on p)) = .on q ∧
      q ∈ src.stops ∧ Ahead reverse p q ∧ src.pointOn reverse q = src.pointOn reverse p) ∨
    (if reverse then Cursor.prev src.stops (.on p) else Cursor.next src.stops (.on p)) = .found reverse none ∧
      src.pointOn reverse p = none := by
  have hsame : src.firstPoint reverse (Ahead reverse p) = src.pointOn reverse p :=
    firstPoint_congr reverse fun r hr => ⟨Ahead.upto, fun h => h.ahead fun h' => hn (h' ▸ hr)⟩
  have hmove : (if reverse then Cursor.prev src.stops (.on p) else Cursor.next src.stops (.on p)) =
      .found reverse (first reverse src.stops fun q => decide (Ahead reverse p q)) := by
    cases reverse <;> rfl
  rw [hmove, ← hsame]
  rcases src.move_spec reverse (Ahead reverse p) (fun _ _ => Ahead.trans_upto) with ⟨q, hq, h⟩ | ⟨hq, h⟩
  · rw [hq]
    exact .inl ⟨q, by cases reverse <;> rfl, h⟩
  · exact .inr ⟨by rw [hq], h⟩

/-- A forward step onto a bare range key signals it. -/
theorem stepped_of_lt (hparent : st.parent = .on p)
    (hranges : st.curRangeKeys = src.rangeAt p.key) (hmem : q ∈ src.stops) (hlt : p < q) :
    Stepped src (st.moveTo src (.on q)) q := by
  intro hch
  have hsame : src.rangeAt p.key = src.rangeAt q.key := by
    have h := rangesOn_of_moved hch
    rwa [hparent] at h
  refine ⟨?_, hranges.trans hsame⟩
  by_contra hbare
  obtain ⟨hts, s, hs, hstart⟩ := bare_stop hmem hbare
  exact rangeAt_ne_of_lt_start hs hstart hts hlt (hsame.trans hs)

theorem loaded_of_moved (hparent : st.parent = .on p)
    (hranges : st.curRangeKeys = src.rangeAt p.key) : Loaded src seeked (st.moveTo src (.on q)) q := by
  intro s hs
  cases hch : (st.moveTo src (.on q)).rangeKeyChanged with
  | true => exact .inl rfl
  | false =>
    have h := rangesOn_of_moved hch
    rw [hparent] at h
    exact .inr (.inl (hranges.trans (h.trans hs)))

theorem processRangeKeys_bare {n : Nat} {s : RangeKeyStack}
    (hparent : st.parent = .on p) (hslow : (!st.rangeKeyChanged && !reverse && !seeked) = false)
    (hload : Loaded src seeked st p) (hs : src.rangeAt p.key = some s) (hbare : ¬ src.IsPoint p)
    (hc : (if reverse then Cursor.prev src.stops (.on p) else Cursor.next src.stops (.on p)) = c) :
    processRangeKeys src seeked reverse (n + 1) st =
      let st' := State.moveTo src { st with curRangeKeys := some s } c
      if st'.valid then processRangeKeys src seeked reverse n st' else (st', false) := by
  rw [processRangeKeys, hslow]
  obtain ⟨parent, changed, peeked, cur, ranges, iters, fn, orig, out⟩ := st
  subst hparent
  simp only [hs, hload.load hs, if_neg hbare, hc, Bool.false_eq_true, if_false]

/-- On a point, `processRangeKeys` stays and takes over the range keys there. -/
theorem processRangeKeys_point {n : Nat}
    (hparent : st.parent = .on p) (hslow : (!st.rangeKeyChanged && !reverse && !seeked) = false)
    (hload : Loaded src seeked st p) (hpoint : src.IsPoint p) :
    processRangeKeys src seeked reverse (n + 1) st = ({ st with curRangeKeys := src.rangeAt p.key }, true) := by
  rw [processRangeKeys, hslow]
  obtain ⟨parent, changed, peeked, cur, ranges, iters, fn, orig, out⟩ := st
  subst hparent
  cases hs : src.rangeAt p.key with
  | none => simp only [hs, Bool.false_eq_true, if_false]
  | some s => simp only [hs, hload.load hs, if_pos hpoint, Bool.false_eq_true, if_false]

theorem Skipped.stay (hparent : st.parent = .on p) :
    Skipped src st (some p) ({ st with curRangeKeys := src.rangeAt p.key }, true) :=
  ⟨st.rangeKeyChanged, by rw [← hparent]⟩

theorem Skipped.of_moved {ranges : Option RangeKeyStack} {q : Option MVCCKey}
    (h : Skipped src (State.moveTo src { st with curRangeKeys := ranges } c) q r) :
    Skipped src st q r := by
  cases q with
  | none => exact h
  | some q => exact h

/-- `processRangeKeys` ends on the first point from the position on. -/
theorem processRangeKeys_spec (seeked reverse : Bool) : ∀ (n : Nat) (st : State) (p : MVCCKey), st.parent = .on p →
    (src.IsPoint p ∨ (src.rangeAt p.key).isSome) → Loaded src seeked st p →
    (reverse = false → seeked = false → Stepped src st p) →
    (src.stops.countP fun q => decide (Ahead reverse p q)) < n →
    Skipped src st (src.pointOn reverse p) (processRangeKeys src seeked reverse n st)
  | 0, _, _, _, _, _, _, hfuel => absurd hfuel (Nat.not_lt_zero _)
  | n + 1, st, p, hparent, hstop, hload, hstep, hfuel => by
    cases hquick : !st.rangeKeyChanged && !reverse && !seeked with
    | true =>
      obtain ⟨⟨hch, hforward⟩, hs⟩ : (st.rangeKeyChanged = false ∧ reverse = false) ∧ seeked = false := by
        simpa using hquick
      obtain ⟨hpoint, hranges⟩ := hstep hforward hs hch
      rw [processRangeKeys, if_pos hquick, pointOn_self reverse hpoint]
      exact ⟨st.rangeKeyChanged, by rw [← hparent, ← hranges]⟩
    | false =>
      by_cases hpoint : src.IsPoint p
      · rw [processRangeKeys_point hparent hquick hload hpoint, pointOn_self reverse hpoint]
        exact .stay hparent
      obtain ⟨s, hs⟩ := Option.isSome_iff_exists.mp (hstop.resolve_left hpoint)
      have hranges : ({ st with curRangeKeys := some s } : State).curRangeKeys = src.rangeAt p.key := hs.symm
      rcases step_of_bare reverse hpoint with ⟨q, hq, hmem, hahead, hon⟩ | ⟨hq, hon⟩
      · rw [processRangeKeys_bare hparent hquick hload hs hpoint hq, ← hon]
        refine .of_moved (processRangeKeys_spec seeked reverse n _ q rfl (isPoint_or_range hmem)
          (loaded_of_moved hparent hranges) (fun hforward _ => ?_) ?_)
        · subst hforward
          exact stepped_of_lt hparent hranges hmem hahead
        have hdrop := countP_lt_of_dropped (P := fun r => decide (Ahead reverse p r))
          (Q := fun r => decide (Ahead reverse q r)) hmem
          (fun r h => by simp only [decide_eq_true_eq] at h ⊢; exact hahead.trans_upto h.upto)
          (by simpa using hahead) (by simpa using not_ahead_self reverse q)
        omega
      · rw [processRangeKeys_bare hparent hquick hload hs hpoint hq, hon]
        cases reverse <;> exact ⟨_, _, _, rfl, rfl⟩

/-! Positioning operations. -/

/-- A positioning function has ended on the point `q`, which is now the current position,
    or off the entries. -/
def Landed (src : Source) (st : State) : Option MVCCKey → State × Bool → Prop
  | some q, r => ∃ changed, r = ({ st with
      parent := .on q, cur := q, curRangeKeys := src.rangeAt q.key, rangeKeyChanged := changed }, true)
  | none, r => ∃ c ranges changed, r =
      ({ st with parent := c, curRangeKeys := ranges, rangeKeyChanged := changed }, false) ∧ src.rangesOn c = none

theorem land_of_skipped {q : Option MVCCKey} (hvalid : st.valid = true)
    (h : Skipped src st q (processRangeKeys src seeked reverse (src.stops.length + 2) st)) :
    Landed src st q (land src seeked reverse st) := by
  rw [land, if_pos hvalid]
  cases q with
  | none =>
    obtain ⟨c, ranges, changed, h, hc⟩ := h
    rw [h]
    exact ⟨c, ranges, changed, rfl, hc⟩
  | some q =>
    obtain ⟨changed, h⟩ := h
    rw [h]
    exact ⟨changed, rfl⟩

theorem Landed.of_moved {q : Option MVCCKey} (h : Landed src (st.moveTo src c) q r) : Landed src st q r := by
  cases q with
  | none => exact h
  | some q => exact h

theorem land_invalid (hc : src.rangesOn c = none) (hvalid : (st.moveTo src c).valid = false) :
    Landed src st none (land src seeked reverse (st.moveTo src c)) := by
  rw [land, if_neg (by simp [hvalid])]
  exact ⟨c, _, _, rfl, hc⟩

theorem land_spec (reverse : Bool) (hparent : st.parent = .on p)
    (hstop : src.IsPoint p ∨ (src.rangeAt p.key).isSome) (hload : Loaded src seeked st p)
    (hstep : reverse = false → seeked = false → Stepped src st p) :
    Landed src st (src.pointOn reverse p) (land src seeked reverse st) := by
  refine land_of_skipped (by simp [State.valid, hparent])
    (processRangeKeys_spec seeked reverse _ st p hparent hstop hload hstep ?_)
  exact Nat.lt_of_le_of_lt List.countP_le_length (by omega)

/-- A move to the first stop that passes a test ends on the first point that does. -/
theorem land_move (reverse : Bool) (test : MVCCKey → Prop) [DecidablePred test]
    (hmono : ∀ q r, test q → Upto reverse q r → test r) (hload : ∀ q, Loaded src seeked (st.moveTo src (.on q)) q)
    (hstep : reverse = false → seeked = false → ∀ q ∈ src.stops, test q → Stepped src (st.moveTo src (.on q)) q) :
    Landed src st (src.firstPoint reverse test)
      (land src seeked reverse (st.moveTo src (.found reverse (first reverse src.stops fun q => decide (test q))))) := by
  rcases src.move_spec reverse test hmono with ⟨q, hq, hmem, htest, hon⟩ | ⟨hq, hnone⟩
  · have hfound : Cursor.found reverse (some q) = .on q := by cases reverse <;> rfl
    rw [hq, hfound, ← hon]
    exact .of_moved (land_spec reverse rfl (isPoint_or_range hmem) (hload q) fun hr hs => hstep hr hs q hmem htest)
  · rw [hq, hnone]
    cases reverse <;> exact land_invalid rfl rfl

/-- The scanner's range keys are those under the iterator, or one of the two has none. -/
def Coherent (src : Source) (st : State) : Prop :=
  src.rangesOn st.parent = none ∨ st.curRangeKeys = none ∨ st.curRangeKeys = src.rangesOn st.parent

theorem Coherent.loaded (h : Coherent src st) (p : MVCCKey) :
    Loaded src true (st.moveTo src (.on p)) p := by
  intro s hs
  cases hch : (st.moveTo src (.on p)).rangeKeyChanged with
  | true => exact .inl rfl
  | false =>
    have hsame : src.rangesOn st.parent = some s := (rangesOn_of_moved hch).trans hs
    rcases h with h | h | h
    · simp [h] at hsame
    · exact .inr (.inr ⟨rfl, h⟩)
    · exact .inr (.inl (h.trans hsame))

theorem seekGE_spec (h : Coherent src st) (p : MVCCKey) :
    Landed src st (src.pointFrom p) (land src true false (st.moveTo src (src.seekGE p))) := by
  unfold seekGE
  by_cases hp : src.IsPoint p ∨ (src.rangeAt p.key).isSome
  · rw [if_pos hp]
    exact .of_moved (land_spec false rfl hp (h.loaded p) (by simp))
  · rw [if_neg hp]
    exact land_move false (p ≤ ·) (fun _ _ => le_trans) h.loaded (by simp)

theorem seekLT_spec (h : Coherent src st) (p : MVCCKey) :
    Landed src st (src.pointBefore p) (land src true true (st.moveTo src (src.seekLT p))) :=
  land_move true (· < p) (fun _ _ h h' => lt_of_le_of_lt h' h) h.loaded (by simp)

/-! Stepping from a point. -/

/-- The scanner stands on the point `p`: its iterator is there, or has peeked back from
    there. A peek is only made when iterations before a seek are left. -/
structure At (o : ScanOptions) (src : Source) (p : MVCCKey) (st : State) : Prop where
  point : src.IsPoint p
  ranges : st.curRangeKeys = src.rangeAt p.key
  iters : st.itersBeforeSeek ≤ o.maxItersBeforeSeek
  cursor : st.peeked = false ∧ st.parent = .on p ∨ (st.peeked = true ∧ o.reverse = true ∧ 0 < st.itersBeforeSeek) ∧
      st.parent = .prev src.stops (.on p) ∧ st.rangeKeyChanged = decide (src.rangeAt p.key ≠ src.rangesOn st.parent)

/-- What positioning leaves alone. -/
structure Kept (st st' : State) : Prop where
  out : st'.out = st.out
  fn : st'.fn = st.fn
  origKey : st'.origKey = st.origKey

theorem Kept.trans {st'' : State} (h : Kept st st') (h' : Kept st' st'') : Kept st st'' :=
  ⟨h'.out.trans h.out, h'.fn.trans h.fn, h'.origKey.trans h.origKey⟩

theorem At.coherent (h : At o src p st) (hpeeked : st.peeked = false) : Coherent src st := by
  rcases h.cursor with ⟨_, hparent⟩ | ⟨⟨hp, _, _⟩, _⟩
  · exact .inr (.inr (by rw [h.ranges, hparent]; rfl))
  · simp [hpeeked] at hp

theorem At.iters_pos (h : At o src p st) (hpeeked : st.peeked = true) :
    0 < st.itersBeforeSeek := by
  rcases h.cursor with ⟨hp, _⟩ | ⟨⟨_, _, hi⟩, _⟩
  · simp [hpeeked] at hp
  · exact hi

/-- A state that has landed on a point stands on it. -/
theorem Landed.at (h : Landed src st (some q) r)
    (hpoint : src.IsPoint q) (hpeeked : st.peeked = false) (hiters : st.itersBeforeSeek ≤ o.maxItersBeforeSeek) :
    ∃ st', r = (st', true) ∧ Kept st st' ∧ At o src q st' ∧ st'.cur = q ∧ st'.peeked = false ∧
      st'.itersBeforeSeek = st.itersBeforeSeek := by
  obtain ⟨changed, h⟩ := h
  exact ⟨_, h, ⟨rfl, rfl, rfl⟩, ⟨hpoint, rfl, hiters, .inl ⟨hpeeked, rfl⟩⟩, rfl, hpeeked, rfl⟩

theorem Landed.off (h : Landed src st none r) :
    ∃ st', r = (st', false) ∧ Kept st st' ∧ src.rangesOn st'.parent = none ∧ st'.peeked = st.peeked ∧
      st'.itersBeforeSeek = st.itersBeforeSeek ∧ st'.cur = st.cur := by
  obtain ⟨c, ranges, changed, h, hc⟩ := h
  exact ⟨_, h, ⟨rfl, rfl, rfl⟩, hc, rfl, rfl, rfl⟩

theorem eq_unpeeked (h : st.peeked = false) : { st with peeked := false } = st := by
  obtain ⟨parent, changed, peeked, cur, ranges, iters, fn, orig, out⟩ := st
  simp only at h
  rw [h]

/-- Stepping forward from a point ends on the next one. -/
theorem next_spec (hparent : st.parent = .on p) (hranges : st.curRangeKeys = src.rangeAt p.key) :
    Landed src st (src.pointAfter p) (land src false false (st.moveTo src (st.parent.next src.stops))) := by
  rw [hparent]
  exact land_move false (p < ·) (fun _ _ => lt_of_lt_of_le) (fun _ => loaded_of_moved hparent hranges)
    fun _ _ _ => stepped_of_lt hparent hranges

theorem iterNext_spec (h : At o src p st) :
    Landed src { st with peeked := false } (src.pointAfter p) (iterNext o src st) := by
  unfold iterNext
  rcases h.cursor with ⟨hpeeked, hparent⟩ | ⟨⟨hpeeked, hreverse, _⟩, hparent, _⟩
  · rw [eq_unpeeked hpeeked, if_neg (by simp [hpeeked])]
    exact next_spec hparent h.ranges
  rw [if_pos (by simp [hpeeked, hreverse])]
  have hback : st.parent.next src.stops = .on p := by rw [hparent, Cursor.next_prev h.point.mem_stops]
  simp only [hback]
  exact .of_moved (next_spec rfl h.ranges)

theorem iterPrev_spec (h : At o src p st) :
    Landed src { st with peeked := false } (src.pointBefore p) (iterPrev src st) := by
  have hmono : ∀ q r, q < p → Upto true q r → r < p := fun _ _ h h' => lt_of_le_of_lt h' h
  unfold iterPrev
  rcases h.cursor with ⟨hpeeked, hparent⟩ | ⟨⟨hpeeked, _, _⟩, hparent, hch⟩
  · rw [eq_unpeeked hpeeked, if_neg (by simp [hpeeked]), hparent]
    exact land_move true (· < p) hmono (fun _ => loaded_of_moved hparent h.ranges) (by simp)
  -- The iterator is already there, and its signal is the one of the peek.
  rw [if_pos hpeeked]
  rcases src.move_spec true (· < p) hmono with ⟨q, hq, hmem, _, hfrom⟩ | ⟨hq, hfrom⟩
  · have hon : st.parent = .on q := hparent.trans (congrArg Cursor.orBefore hq)
    show Landed src _ (src.firstPoint true (· < p)) _
    rw [← hfrom]
    refine land_spec true hon (isPoint_or_range hmem) (fun s hs => ?_) (by simp)
    by_cases hsame : src.rangeAt p.key = some s
    · exact .inr (.inl (h.ranges.trans hsame))
    refine .inl (hch.trans ?_)
    rw [hon, decide_eq_true_eq, rangesOn, hs]
    exact hsame
  · have hoff : st.parent = .before := hparent.trans (congrArg Cursor.orBefore hq)
    rw [show src.pointBefore p = none from hfrom, land, if_neg (by simp [State.valid, hoff])]
    exact ⟨.before, st.curRangeKeys, st.rangeKeyChanged, by rw [← hoff], rfl⟩

theorem nextKey_spec (h : At o src p st) (hreverse : o.reverse = false) :
    Landed src st (src.pointPast p.key) (nextKey o src st) := by
  have hparent : st.peeked = false ∧ st.parent = .on p := by
    rcases h.cursor with h | ⟨⟨_, hr, _⟩, _⟩
    · exact h
    · simp [hreverse] at hr
  unfold nextKey
  rw [if_neg (by simp [hreverse])]
  beta_reduce
  rw [hparent.2]
  exact land_move false (fun q => p.key < q.key) (fun _ _ h h' => lt_of_lt_of_le h (key_le h'))
    (fun _ => loaded_of_moved hparent.2 h.ranges)
    fun _ _ _ hmem hlt => stepped_of_lt hparent.2 h.ranges hmem (lt_of_key_lt hlt)

/-! Moving to the newest record of a key. -/

/-- `p` is the newest record of the user key `k`. -/
def First (src : Source) (k : Bytes) (p : MVCCKey) : Prop := src.pointFrom ⟨k, 0⟩ = some p ∧ p.key = k

/-- The scanner is ready to read the user key `k`. -/
def Ready (o : ScanOptions) (src : Source) (k : Bytes) (st : State) : Prop :=
  ∃ p, First src k p ∧ At o src p st ∧ st.cur = p

/-- A point with no point of the same key before it is the newest record of its key. -/
theorem first_of_not_before (hp : src.IsPoint p)
    (h : ∀ r, src.IsPoint r → r.key = p.key → p ≤ r) : First src p.key p := by
  refine ⟨Source.pointFrom_eq_some_iff.mpr ⟨⟨hp, bare_le p⟩, fun r hr hle => ?_⟩, rfl⟩
  rcases (MVCCKey.bare_le_iff.mp hle).lt_or_eq with hlt | heq
  · exact (lt_of_key_lt hlt).le
  · exact h r hr heq.symm

theorem exists_first (hp : src.IsPoint p) : ∃ q, First src p.key q := by
  cases hq : src.pointFrom ⟨p.key, 0⟩ with
  | none => exact absurd (bare_le p) (Source.pointFrom_eq_none_iff.mp hq p hp)
  | some q =>
    obtain ⟨⟨_, hle⟩, hmin⟩ := Source.pointFrom_eq_some_iff.mp hq
    exact ⟨q, hq, le_antisymm (key_le (hmin p hp (bare_le p))) (MVCCKey.bare_le_iff.mp hle)⟩

/-- What a peek sees, and that it leaves the scanner on the same point. -/
theorem iterPeekPrev_spec (h : At o src p st) (hpeeked : st.peeked = false)
    (hreverse : o.reverse = true) (hiters : 0 < st.itersBeforeSeek) :
    ∃ st', Kept st st' ∧ At o src p st' ∧ st'.cur = st.cur ∧ st'.itersBeforeSeek = st.itersBeforeSeek ∧
      ((iterPeekPrev src st = (st', none) ∧ src.pointBefore p = none) ∨
        ∃ j, iterPeekPrev src st = (st', some (j.key, decide (src.IsPoint j))) ∧ j ∈ src.stops ∧ j < p ∧
          (src.IsPoint j → src.pointBefore p = some j) ∧ ∀ r, src.IsPoint r → r < p → r ≤ j) := by
  have hparent : st.parent = .on p := by
    rcases h.cursor with h | ⟨⟨hp, _⟩, _⟩
    · exact h.2
    · simp [hpeeked] at hp
  refine ⟨State.moveTo src { st with peeked := true } (st.parent.prev src.stops), ⟨rfl, rfl, rfl⟩,
    ⟨h.point, h.ranges, h.iters, .inr ⟨⟨rfl, hreverse, hiters⟩, by rw [hparent]; rfl, ?_⟩⟩, rfl, rfl, ?_⟩
  · simp only [State.moveTo, hparent, rangesOn]
  unfold iterPeekPrev
  rw [if_neg (by simp [hpeeked]), hparent, Cursor.prev]
  rcases src.move_spec true (· < p) (fun _ _ h h' => lt_of_le_of_lt h' h) with
    ⟨q, hq, hmem, hlt, hfrom⟩ | ⟨hq, hfrom⟩ <;> simp only [first] at hq
  · refine .inr ⟨q, ?_, hmem, hlt, fun hpoint => ?_, fun r hr hr' => ?_⟩
    · rw [hq]
      simp only [Cursor.orBefore, State.moveTo, Prod.mk.injEq, Option.some.injEq, true_and]
      split
      · rfl
      rename_i hts
      symm
      rw [decide_eq_true_eq]
      by_contra hbare
      exact hts (bare_stop hmem hbare).1
    · exact hfrom.symm.trans (pointOn_self true hpoint)
    · have := (greatest_eq_some_iff.mp hq).2 r hr.mem_stops
      exact this (by simpa using hr')
  · exact .inl ⟨by rw [hq]; rfl, hfrom⟩

theorem increment_at (h : At o src p st) : At o src p (st.incrementItersBeforeSeek o) := by
  refine ⟨h.point, h.ranges, Nat.min_le_right _ _, ?_⟩
  rcases h.cursor with hc | ⟨⟨hp, hr, hi⟩, hc⟩
  · exact .inl hc
  refine .inr ⟨⟨hp, hr, ?_⟩, hc⟩
  have hmax := h.iters
  simp only [State.incrementItersBeforeSeek]
  omega

theorem decrement_iters (h : st.itersBeforeSeek ≤ o.maxItersBeforeSeek) :
    (st.decrementItersBeforeSeek o).itersBeforeSeek ≤ o.maxItersBeforeSeek := by
  simp only [State.decrementItersBeforeSeek]
  split
  · split <;> omega
  · omega

theorem backwardLoop_spec (hreverse : o.reverse = true) : ∀ (n : Nat) {st : State} {p : MVCCKey},
    At o src p st → st.peeked = false → st.cur = p → p.key = k → n ≤ st.itersBeforeSeek →
    (∃ st', backwardLoop o src k n st = (st', some true) ∧ Kept st st' ∧ Ready o src k st') ∨
      ∃ st' q, backwardLoop o src k n st = (st', none) ∧ Kept st st' ∧ At o src q st' ∧ st'.peeked = false ∧ q.key = k
  | 0, st, p, h, hpeeked, _, hk, _ => .inr ⟨st, p, rfl, ⟨rfl, rfl, rfl⟩, h, hpeeked, hk⟩
  | n + 1, st, p, h, hpeeked, hcur, hk, hn => by
    rw [backwardLoop]
    obtain ⟨st', hkept, hat, hcur', hiters, hpeek⟩ := iterPeekPrev_spec h hpeeked hreverse (by omega)
    rcases hpeek with ⟨hpeek, hnone⟩ | ⟨j, hpeek, hmem, hjp, hprev, hmax⟩
    · rw [hpeek]
      have hfirst := first_of_not_before h.point fun r hr _ => not_lt.mp (Source.pointBefore_eq_none_iff.mp hnone r hr)
      exact .inl ⟨st', rfl, hkept, p, hk ▸ hfirst, hat, hcur'.trans hcur⟩
    simp only [hpeek]
    by_cases hstop : j.key ≠ k ∨ ¬ decide (src.IsPoint j) = true
    · rw [if_pos hstop]
      refine .inl ⟨_, rfl, ⟨hkept.out, hkept.fn, hkept.origKey⟩, p, hk ▸ first_of_not_before h.point ?_,
        increment_at hat, hcur'.trans hcur⟩
      intro r hr hkey
      by_contra hlt
      have hrj := hmax r hr (not_le.mp hlt)
      -- The stop before `p` lies between two points of one key, so it is of that key too.
      have hj : j.key = p.key := le_antisymm (key_le hjp.le) (hkey ▸ key_le hrj)
      rcases hstop with hne | hbare
      · exact hne (hj.trans hk)
      have hbare : ¬ src.IsPoint j := by simpa using hbare
      have hjr : j ≤ r := by
        rw [le_iff]
        exact .inr ⟨hj.trans hkey.symm, .inl (bare_stop hmem hbare).1⟩
      exact hbare (le_antisymm hjr hrj ▸ hr)
    rw [if_neg hstop]
    simp only [ne_eq, not_or, not_not, decide_eq_true_eq] at hstop
    have hland := iterPrev_spec hat
    rw [hprev hstop.2] at hland
    obtain ⟨st'', hst'', hkept', hat', hcur'', hpeeked', hiters'⟩ := hland.at hstop.2 rfl hat.iters
    simp only [hst'']
    have hkept'' : Kept st st'' := hkept.trans ⟨hkept'.out, hkept'.fn, hkept'.origKey⟩
    have hn' : n ≤ st''.itersBeforeSeek := by
      rw [hiters']
      simp only [hiters]
      omega
    rcases backwardLoop_spec hreverse n hat' hpeeked' hcur'' hstop.1 hn' with
      ⟨st₃, h₃, hk₃, hr₃⟩ | ⟨st₃, q, h₃, hk₃, hq⟩
    · exact .inl ⟨st₃, h₃, hkept''.trans hk₃, hr₃⟩
    · exact .inr ⟨st₃, q, h₃, hkept''.trans hk₃, hq⟩

theorem clearPeeked_kept : Kept st (clearPeeked o st) := by
  unfold clearPeeked
  split <;> exact ⟨rfl, rfl, rfl⟩

theorem clearPeeked_reverse (h : o.reverse = true) : (clearPeeked o st).peeked = false := by
  simp [clearPeeked, h]

theorem clearPeeked_unpeeked (h : st.peeked = false) : (clearPeeked o st).peeked = false := by
  unfold clearPeeked
  split
  · rfl
  · exact h

theorem clearPeeked_iters : (clearPeeked o st).itersBeforeSeek = st.itersBeforeSeek := by
  unfold clearPeeked
  split <;> rfl

theorem decrement_kept : Kept st (st.decrementItersBeforeSeek o) := ⟨rfl, rfl, rfl⟩

theorem Coherent.clearPeeked (h : Coherent src st) : Coherent src (clearPeeked o st) := by
  unfold Storage.clearPeeked
  split <;> exact h

theorem iterSeek_spec (h : Coherent src st) (key : MVCCKey) :
    Landed src (clearPeeked o st) (src.pointFrom key) (iterSeek o src key st) := seekGE_spec h.clearPeeked key

theorem backwardLatestVersion_spec {i : Nat} (hreverse : o.reverse = true)
    (h : At o src p st) (hpeeked : st.peeked = false) (hcur : st.cur = p) (hk : p.key = k) :
    ∃ st', backwardLatestVersion o src k i st = (st', true) ∧ Kept st st' ∧ Ready o src k st' := by
  unfold backwardLatestVersion
  rcases backwardLoop_spec hreverse (st.itersBeforeSeek - i) h hpeeked hcur hk (Nat.sub_le _ _) with
    ⟨st', hloop, hkept, hready⟩ | ⟨st', q, hloop, hkept, hat, hpeeked', hq⟩
  · exact ⟨st', by rw [hloop], hkept, hready⟩
  simp only [hloop]
  have hcoherent : Coherent src (st'.decrementItersBeforeSeek o) := hat.coherent hpeeked'
  have hland := iterSeek_spec (o := o) hcoherent ⟨k, 0⟩
  obtain ⟨x, hx⟩ := exists_first hat.point
  rw [hq] at hx
  rw [hx.1] at hland
  obtain ⟨st'', hst'', hkept', hat', hcur', _⟩ := hland.at (o := o) (Source.pointFrom_eq_some_iff.mp hx.1).1.1
    (clearPeeked_reverse hreverse) (clearPeeked_iters.trans_le (decrement_iters hat.iters))
  exact ⟨st'', hst'', hkept.trans (decrement_kept.trans (clearPeeked_kept.trans hkept')), x, hx, hat', hcur'⟩

/-- The end of a move to an earlier key: ready for the key of the point, or out of entries. -/
def MovedBack (o : ScanOptions) (src : Source) (st : State) : Option MVCCKey → State × Bool → Prop
  | some q, r => ∃ st', r = (st', true) ∧ Kept st st' ∧ Ready o src q.key st'
  | none, r => ∃ st', r = (st', false) ∧ Kept st st'

theorem MovedBack.of_kept {q : Option MVCCKey} (hkept : Kept st st')
    (h : MovedBack o src st' q r) : MovedBack o src st q r := by
  cases q with
  | none =>
    obtain ⟨st'', hr, h⟩ := h
    exact ⟨st'', hr, hkept.trans h⟩
  | some q =>
    obtain ⟨st'', hr, h, hready⟩ := h
    exact ⟨st'', hr, hkept.trans h, hready⟩

theorem iterSeekReverse_spec (hreverse : o.reverse = true) (h : Coherent src st)
    (hiters : st.itersBeforeSeek ≤ o.maxItersBeforeSeek) (key : MVCCKey) :
    MovedBack o src st (src.pointBefore key) (iterSeekReverse o src key st) := by
  have hland := seekLT_spec (h.clearPeeked (o := o)) key
  unfold iterSeekReverse
  cases hq : src.pointBefore key with
  | none =>
    rw [hq] at hland
    obtain ⟨st', hst', hkept, _⟩ := hland.off
    exact ⟨st', by rw [hst'], clearPeeked_kept.trans hkept⟩
  | some q =>
    rw [hq] at hland
    have hpoint := (Source.pointBefore_eq_some_iff.mp hq).1.1
    obtain ⟨st', hst', hkept, hat, hcur, hpeeked, _⟩ :=
      hland.at (o := o) hpoint (clearPeeked_reverse hreverse) (clearPeeked_iters.trans_le hiters)
    have hkept := (clearPeeked_kept (o := o)).trans hkept
    simp only [hst']
    by_cases hts : st'.cur.ts = 0
    · rw [if_pos hts]
      refine ⟨st', rfl, hkept, q, first_of_not_before hpoint fun r _ hkey => ?_, hat, hcur⟩
      exact MVCCKey.le_iff.mpr (.inr ⟨hkey.symm, .inl (hcur ▸ hts)⟩)
    rw [if_neg hts, hcur]
    obtain ⟨st'', hst'', hkept', hready⟩ := backwardLatestVersion_spec (i := 0) hreverse hat hpeeked hcur rfl
    exact ⟨st'', hst'', hkept.trans hkept', hready⟩

/-- `prevKey` may start anywhere on `k` or on the first record after it. -/
structure Leaving (src : Source) (k : Bytes) (p : MVCCKey) : Prop where
  le : k ≤ p.key
  below : ∀ r, src.IsPoint r → r < p → r.key ≤ k

theorem Leaving.before_eq (h : Leaving src k p) (hq : src.pointBefore p = some q)
    (hne : q.key ≠ k) : src.pointBefore ⟨k, 0⟩ = some q := by
  obtain ⟨⟨hpoint, hlt⟩, hmax⟩ := Source.pointBefore_eq_some_iff.mp hq
  refine Source.pointBefore_eq_some_iff.mpr ⟨⟨hpoint, ?_⟩, fun r hr hrk => ?_⟩
  · exact MVCCKey.lt_bare_iff.mpr (lt_of_le_of_ne (h.below q hpoint hlt) hne)
  · exact hmax r hr (lt_of_key_lt (lt_of_lt_of_le (MVCCKey.lt_bare_iff.mp hrk) h.le))

theorem Leaving.before_eq_none (h : Leaving src k p) (hq : src.pointBefore p = none) :
    src.pointBefore ⟨k, 0⟩ = none := by
  refine Source.pointBefore_eq_none_iff.mpr fun r hr hrk => Source.pointBefore_eq_none_iff.mp hq r hr ?_
  exact lt_of_key_lt (lt_of_lt_of_le (MVCCKey.lt_bare_iff.mp hrk) h.le)

theorem Leaving.prev (h : Leaving src k p) (hq : src.pointBefore p = some q) (hk : q.key = k) : Leaving src k q := by
  obtain ⟨⟨_, hlt⟩, _⟩ := Source.pointBefore_eq_some_iff.mp hq
  exact ⟨hk.ge, fun r hr hrq => h.below r hr (hrq.trans hlt)⟩

theorem prevKeyLoop_spec (hreverse : o.reverse = true) : ∀ (n i : Nat) {st : State} {p : MVCCKey},
    At o src p st → Leaving src k p → (st.peeked = true → 0 < n) →
    (∃ st' ok, prevKeyLoop o src k n i st = (st', some ok) ∧ MovedBack o src st (src.pointBefore ⟨k, 0⟩) (st', ok)) ∨
      ∃ st' q, prevKeyLoop o src k n i st = (st', none) ∧ Kept st st' ∧ At o src q st' ∧ st'.peeked = false
  | 0, _, st, p, h, _, hpeeked => by
    refine .inr ⟨st, p, rfl, ⟨rfl, rfl, rfl⟩, h, ?_⟩
    cases hp : st.peeked with
    | false => rfl
    | true => exact absurd (hpeeked hp) (Nat.lt_irrefl 0)
  | n + 1, i, st, p, h, hleave, _ => by
    rw [prevKeyLoop]
    have hland := iterPrev_spec h
    cases hq : src.pointBefore p with
    | none =>
      rw [hq] at hland
      obtain ⟨st', hst', hkept, _⟩ := hland.off
      refine .inl ⟨st', false, by rw [hst'], ?_⟩
      rw [hleave.before_eq_none hq]
      exact ⟨st', rfl, ⟨hkept.out, hkept.fn, hkept.origKey⟩⟩
    | some q =>
      rw [hq] at hland
      obtain ⟨st', hst', hkept, hat, hcur, hpeeked, _⟩ :=
        hland.at (o := o) (Source.pointBefore_eq_some_iff.mp hq).1.1 rfl h.iters
      have hkept : Kept st st' := ⟨hkept.out, hkept.fn, hkept.origKey⟩
      simp only [hst', hcur]
      by_cases hne : q.key ≠ k
      · rw [if_pos hne, hleave.before_eq hq hne]
        obtain ⟨st'', hst'', hkept', hready⟩ := backwardLatestVersion_spec (i := i + 1) hreverse hat hpeeked hcur rfl
        exact .inl ⟨st'', true, by rw [hst''], st'', rfl, hkept.trans hkept', hready⟩
      rw [if_neg hne]
      have hk : q.key = k := not_not.mp hne
      rcases prevKeyLoop_spec hreverse n (i + 1) hat (hleave.prev hq hk) (by simp [hpeeked]) with
        ⟨st₃, ok, h₃, hmoved⟩ | ⟨st₃, q', h₃, hk₃, hat₃⟩
      · exact .inl ⟨st₃, ok, h₃, hmoved.of_kept hkept⟩
      · exact .inr ⟨st₃, q', h₃, hkept.trans hk₃, hat₃⟩

theorem prevKey_spec (hreverse : o.reverse = true) (h : At o src p st)
    (hleave : Leaving src k p) : MovedBack o src st (src.pointBefore ⟨k, 0⟩) (prevKey o src k st) := by
  unfold prevKey
  rcases prevKeyLoop_spec hreverse st.itersBeforeSeek 0 h hleave h.iters_pos with
    ⟨st', ok, hloop, hmoved⟩ | ⟨st', q, hloop, hkept, hat, hpeeked'⟩
  · rw [hloop]
    exact hmoved
  simp only [hloop]
  have hcoherent : Coherent src (st'.decrementItersBeforeSeek o) := hat.coherent hpeeked'
  exact .of_kept (hkept.trans decrement_kept)
    (iterSeekReverse_spec hreverse hcoherent (decrement_iters hat.iters) ⟨k, 0⟩)

/-! Advancing from a key that was read. -/

/-- The scanner is on a record of the user key `k`, to be advanced from there. -/
def OnKey (o : ScanOptions) (src : Source) (k : Bytes) (st : State) : Prop :=
  (∃ p, At o src p st ∧ p.key = k) ∧ st.cur.key = k ∧ st.fn = if o.reverse then .keyReverse else .keyForward

/-- Where reading the user key `k` may leave the scanner: on a record of `k`, on the first
    record after `k`, or at the end. -/
inductive Left (o : ScanOptions) (src : Source) (k : Bytes) (st : State) : Prop
  | on (h : OnKey o src k st)
  | past (p : MVCCKey) (hat : At o src p st) (hpast : src.pointPast k = some p) (hcur : st.cur = p)
      (hfn : st.fn = if o.reverse then .keyAtNewKeyReverse else .keyAtNewKeyForward) (horig : st.origKey = k)
  | off (hpast : src.pointPast k = none) (hoff : src.rangesOn st.parent = none)
      (hiters : st.itersBeforeSeek ≤ o.maxItersBeforeSeek)
      (hfn : st.fn = if o.reverse then .keyAtEndReverse else .keyAtEndForward)

/-- The first record of the key a scan visits after `k`. -/
def following (o : ScanOptions) (src : Source) (k : Bytes) : Option MVCCKey :=
  if o.reverse then src.pointBefore ⟨k, 0⟩ else src.pointPast k

/-- An advance has ended ready for the key of the point, or out of entries. -/
def Advanced (o : ScanOptions) (src : Source) (st : State) : Option MVCCKey → State × Bool → Prop
  | some q, r => ∃ st', r = (st', true) ∧ st'.out = st.out ∧ Ready o src q.key st' ∧
      st'.fn = if o.reverse then .keyReverse else .keyForward
  | none, r => ∃ st', r = (st', false) ∧ st'.out = st.out

theorem MovedBack.advanced {q : Option MVCCKey}
    (h : MovedBack o src st' q r) (hreverse : o.reverse = true) (hfn : st'.fn = .keyReverse) (hout : st'.out = st.out) :
    Advanced o src st q r := by
  cases q with
  | none =>
    obtain ⟨st'', hr, hkept⟩ := h
    exact ⟨st'', hr, hkept.out.trans hout⟩
  | some q =>
    obtain ⟨st'', hr, hkept, hready⟩ := h
    exact ⟨st'', hr, hkept.out.trans hout, hready, by rw [hkept.fn, hfn, if_pos hreverse]⟩

theorem leaving_on : Leaving src p.key p :=
  ⟨le_refl _, fun _ _ h => key_le h.le⟩

theorem leaving_past (h : src.pointPast k = some p) : Leaving src k p := by
  obtain ⟨⟨_, hlt⟩, hmin⟩ := Source.pointPast_eq_some_iff.mp h
  exact ⟨hlt.le, fun r hr hrp => not_lt.mp fun hkr => absurd (hmin r hr hkr) (not_le.mpr hrp)⟩

theorem first_past (h : src.pointPast k = some p) : First src p.key p := by
  obtain ⟨⟨hpoint, hlt⟩, hmin⟩ := Source.pointPast_eq_some_iff.mp h
  exact first_of_not_before hpoint fun r hr hkey => hmin r hr (hkey ▸ hlt)

theorem advanceKeyForward_spec (hreverse : o.reverse = false) (h : At o src p st)
    (hfn : st.fn = .keyForward) : Advanced o src st (src.pointPast p.key) (advanceKeyForward o src st) := by
  have hland := nextKey_spec h hreverse
  have hpeeked : st.peeked = false := by
    rcases h.cursor with h | ⟨⟨_, hr, _⟩, _⟩
    · exact h.1
    · simp [hreverse] at hr
  cases hq : src.pointPast p.key with
  | none =>
    rw [hq] at hland
    obtain ⟨st', hst', hkept, _⟩ := hland.off
    exact ⟨st', hst', hkept.out⟩
  | some q =>
    rw [hq] at hland
    obtain ⟨st', hst', hkept, hat, hcur, _⟩ :=
      hland.at (o := o) (Source.pointPast_eq_some_iff.mp hq).1.1 hpeeked h.iters
    refine ⟨st', hst', hkept.out, ⟨q, first_past hq, hat, hcur⟩, ?_⟩
    rw [hkept.fn, hfn, hreverse]
    rfl

theorem advanceKeyReverse_spec (hreverse : o.reverse = true) (h : OnKey o src k st) :
    Advanced o src st (src.pointBefore ⟨k, 0⟩) (advanceKeyReverse o src st) := by
  obtain ⟨⟨p, hat, hpk⟩, hcur, hfn⟩ := h
  have hfn : st.fn = .keyReverse := by rw [hfn, hreverse]; rfl
  unfold advanceKeyReverse
  rw [hcur]
  exact (prevKey_spec hreverse hat (hpk ▸ leaving_on)).advanced hreverse hfn rfl

/-- `advance` goes to the next key of the scan, from wherever reading `k` left the scanner. -/
theorem advance_spec (hbound : ∀ r, src.IsPoint r → r.key < o.stop)
    (hk : ∃ p, First src k p) (h : Left o src k st) : Advanced o src st (following o src k) (advance o src st) := by
  unfold following
  cases hreverse : o.reverse with
  | false =>
    cases h with
    | on h =>
      obtain ⟨⟨p, hat, hpk⟩, _, hfn⟩ := h
      have hfn : st.fn = .keyForward := by rw [hfn, hreverse]; rfl
      rw [advance, hfn, ← hpk]
      exact advanceKeyForward_spec hreverse hat hfn
    | past p hat hpast hcur hfn _ =>
      have hfn : st.fn = .keyAtNewKeyForward := by rw [hfn, hreverse]; rfl
      rw [advance, hfn, hpast]
      exact ⟨_, rfl, rfl, ⟨p, first_past hpast, ⟨hat.point, hat.ranges, hat.iters, hat.cursor⟩, hcur⟩,
        by rw [hreverse]; rfl⟩
    | off hpast _ _ hfn =>
      have hfn : st.fn = .keyAtEndForward := by rw [hfn, hreverse]; rfl
      rw [advance, hfn, hpast]
      exact ⟨st, rfl, rfl⟩
  | true =>
    cases h with
    | on h =>
      have hfn : st.fn = .keyReverse := by rw [h.2.2, hreverse]; rfl
      rw [advance, hfn]
      exact advanceKeyReverse_spec hreverse h
    | past p hat hpast hcur hfn horig =>
      have hfn : st.fn = .keyAtNewKeyReverse := by rw [hfn, hreverse]; rfl
      subst horig
      rw [advance, hfn]
      have hat' : At o src p { st with fn := .keyReverse } := ⟨hat.point, hat.ranges, hat.iters, hat.cursor⟩
      exact (prevKey_spec hreverse hat' (leaving_past hpast)).advanced hreverse rfl rfl
    | off hpast hoff hiters hfn =>
      have hfn : st.fn = .keyAtEndReverse := by rw [hfn, hreverse]; rfl
      rw [advance, hfn]
      simp only [advanceKeyAtEndReverse]
      obtain ⟨x, hx, hxk⟩ := hk
      have hxpoint := (Source.pointFrom_eq_some_iff.mp hx).1.1
      -- The last record before the end is one of `k`, since no later key has any.
      have hcoherent : Coherent src { st with fn := .keyReverse, peeked := false } := .inl hoff
      have hland := seekLT_spec hcoherent ⟨o.stop, 0⟩
      cases hq : src.pointBefore ⟨o.stop, 0⟩ with
      | none =>
        exact absurd (MVCCKey.lt_bare_iff.mpr (hbound x hxpoint)) (Source.pointBefore_eq_none_iff.mp hq x hxpoint)
      | some q =>
        rw [hq] at hland
        obtain ⟨⟨hqpoint, _⟩, hmax⟩ := Source.pointBefore_eq_some_iff.mp hq
        have hqk : q.key = k := le_antisymm (not_lt.mp (Source.pointPast_eq_none_iff.mp hpast q hqpoint))
          (hxk ▸ key_le (hmax x hxpoint (MVCCKey.lt_bare_iff.mpr (hbound x hxpoint))))
        obtain ⟨st', hst', hkept, hat, hcur, _⟩ := hland.at (o := o) hqpoint rfl hiters
        simp only [hst', advanceKeyReverse, hcur, hqk]
        exact (prevKey_spec hreverse hat (hqk ▸ leaving_on)).advanced hreverse hkept.fn hkept.out

end Ratel.Storage
