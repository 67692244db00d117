/-
Runs of a state machine.

A machine is a function `step` that gives the next state for an event, if the event
is possible.  `run` takes a list of events, `Along` says that every event of a list
meets a condition in the state in which it happens, and `run_invariant` is the rule
for invariants: what holds at the start and is kept by every step that meets the
condition holds after every run whose steps meet it.  `along_iff` compares two conditions,
and `along_keeps_iff` a condition with an invariant.
-/
import Mathlib.Tactic

namespace Runs

variable {σ ε : Type} {step : σ → ε → Option σ}

/-- The state after a list of events, if all of them are possible. -/
def run (step : σ → ε → Option σ) : σ → List ε → Option σ
  | s, [] => some s
  | s, e :: es => (step s e).bind fun s => run step s es

theorem run_append (s : σ) (es es' : List ε) :
    run step s (es ++ es') = (run step s es).bind fun s' => run step s' es' := by
  induction es generalizing s with
  | nil => rfl
  | cons e es ih =>
    rw [List.cons_append, run, run, Option.bind_assoc]
    exact congrArg _ (funext ih)

/-- Every event meets `C` in the state in which it happens. -/
def Along (step : σ → ε → Option σ) (C : σ → ε → Prop) : σ → List ε → Prop
  | _, [] => True
  | s, e :: es => C s e ∧ ∀ s' ∈ step s e, Along step C s' es

instance Along.decide (C : σ → ε → Prop) [∀ s e, Decidable (C s e)] :
    ∀ s es, Decidable (Along step C s es)
  | _, [] => isTrue trivial
  | s, e :: es =>
    match h : step s e with
    | none => decidable_of_iff (C s e) ⟨fun hc => ⟨hc, fun s' hs' => by
        rw [h] at hs'
        cases hs'⟩, fun ha => ha.1⟩
    | some s₁ =>
      have := Along.decide C s₁ es
      decidable_of_iff (C s e ∧ Along step C s₁ es) ⟨fun hc => ⟨hc.1, fun s' hs' => by
        rw [h] at hs'
        cases hs'
        exact hc.2⟩, fun ha => ⟨ha.1, ha.2 s₁ h⟩⟩

variable {C : σ → ε → Prop}

/-- What holds of every event in every state holds along every run. -/
theorem along_of_forall (hc : ∀ s e, C s e) (s : σ) (es : List ε) :
    Along step C s es := by
  induction es generalizing s with
  | nil => trivial
  | cons e es ih => exact ⟨hc s e, fun s' _ => ih s'⟩

variable {s : σ} {I : σ → Prop} {es : List ε}

section

variable (hstep : ∀ {s e s'}, I s → C s e → step s e = some s' → I s')
include hstep

/-- **The rule for invariants.** -/
theorem run_invariant {s' : σ}
    (hs : I s) (ha : Along step C s es) (hr : run step s es = some s') : I s' := by
  induction es generalizing s with
  | nil =>
    cases hr
    exact hs
  | cons e es ih =>
    obtain ⟨s₁, h₁, hr₁⟩ := Option.bind_eq_some_iff.mp hr
    exact ih (hstep hs ha.1 h₁) (ha.2 s₁ h₁) hr₁

variable {Q : σ → ε → Prop} {P : σ → ε → Prop}

/-- **Two conditions are the same along a run** if they are in every state of an invariant. -/
theorem along_iff
    (hiff : ∀ {s e}, I s → C s e → (P s e ↔ Q s e)) (hs : I s) (hc : Along step C s es) :
    Along step P s es ↔ Along step Q s es := by
  induction es generalizing s with
  | nil => exact Iff.rfl
  | cons e es ih =>
    rw [Along, Along, hiff hs hc.1]
    refine and_congr_right fun _ => forall₂_congr fun s' hs' => ?_
    exact ih (hstep hs hc.1 hs') (hc.2 s' hs')

variable {J : σ → Prop}

/-- **An invariant holds all along a run** if and only if every step meets a condition that is
exact for steps from the invariant; for runs whose steps meet a condition `C` that keeps another
one. -/
theorem along_keeps_iff_of
    (hiff : ∀ {s e}, I s → C s e → J s → ((∀ s' ∈ step s e, J s') ↔ Q s e)) (hi : I s) (hj : J s)
    (hc : Along step C s es) :
    Along step (fun s e => ∀ s' ∈ step s e, J s') s es ↔ Along step Q s es := by
  induction es generalizing s with
  | nil => exact Iff.rfl
  | cons e es ih =>
    rw [Along, Along, ← hiff hi hc.1 hj]
    refine and_congr_right fun hkeeps => forall₂_congr fun s' hs' => ?_
    exact ih (hstep hi hc.1 hs') (hkeeps s' hs') (hc.2 s' hs')

end

/-- The same for any run. -/
theorem along_keeps_iff (hiff : ∀ {s e}, I s → ((∀ s' ∈ step s e, I s') ↔ Q s e)) (hs : I s)
    (es : List ε) :
    Along step (fun s e => ∀ s' ∈ step s e, I s') s es ↔ Along step Q s es :=
  along_keeps_iff_of (I := fun _ => True) (fun _ _ _ => trivial) (fun _ _ => hiff) trivial hs
    (along_of_forall (fun _ _ => trivial) s es)

/-- A run comes to its end if the condition on its steps makes them possible. -/
theorem run_ne_none (hp : ∀ {s e}, P s e → ∃ s', step s e = some s') (ha : Along step P s es) :
    run step s es ≠ none := by
  induction es generalizing s with
  | nil => exact Option.some_ne_none s
  | cons e es ih =>
    obtain ⟨s', hs'⟩ := hp ha.1
    rw [run, hs']
    exact ih (ha.2 s' hs')

end Runs
