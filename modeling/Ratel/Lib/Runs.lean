import Mathlib.Logic.Function.Basic

/- Runs of a machine whose steps are a partial function of a state and an action. -/
namespace Ratel.Lib

variable {σ α : Type*}

/-- The state after a list of actions, if each of them can be taken. -/
def run (step : σ → α → Option σ) : σ → List α → Option σ
  | s, [] => some s
  | s, a :: as => (step s a).bind fun s' => run step s' as

/-- Every action of a run is taken in a state that meets `ok`. -/
def Along (step : σ → α → Option σ) (ok : σ → α → Prop) : σ → List α → Prop
  | _, [] => True
  | s, a :: as => ok s a ∧ ∀ s', step s a = some s' → Along step ok s' as

instance Along.decidable (step : σ → α → Option σ) (ok : σ → α → Prop) [∀ s a, Decidable (ok s a)] :
    (s : σ) → (as : List α) → Decidable (Along step ok s as)
  | _, [] => isTrue trivial
  | s, a :: as =>
    match hs : step s a with
    | none => decidable_of_iff (ok s a) ⟨fun h => ⟨h, fun s' h' => by rw [hs] at h'; cases h'⟩, And.left⟩
    | some t =>
      haveI := Along.decidable step ok t as
      decidable_of_iff (ok s a ∧ Along step ok t as)
        ⟨fun h => ⟨h.1, fun s' h' => by rw [hs] at h'; cases h'; exact h.2⟩, fun h => ⟨h.1, h.2 t hs⟩⟩

variable {step : σ → α → Option σ} {ok : σ → α → Prop}

/-- What every step keeps, a run keeps. -/
theorem run_inv (Inv : σ → Prop) (hstep : ∀ s a s', Inv s → ok s a → step s a = some s' → Inv s') :
    ∀ {as : List α} {s t : σ}, Inv s → Along step ok s as → run step s as = some t → Inv t
  | [], s, t, hs, _, h => by
    cases h
    exact hs
  | a :: as, s, t, hs, hok, h => by
    obtain ⟨s', hs', ht⟩ := Option.bind_eq_some_iff.mp h
    exact run_inv Inv hstep (hstep s a s' hs hok.1 hs') (hok.2 s' hs') ht

theorem along_of_forall (h : ∀ s a, ok s a) : ∀ (s : σ) (as : List α), Along step ok s as
  | _, [] => trivial
  | s, a :: as => ⟨h s a, fun s' _ => along_of_forall h s' as⟩

end Ratel.Lib
