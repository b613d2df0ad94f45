import Mathlib.Logic.Basic

/-!
# Properties that hold throughout a history

A state machine is a function of states and events. A property of its states holds
throughout a history when it holds in the first state and after every event. Where
an event keeps it exactly under a condition on the state before, it holds throughout
exactly when every event of the history meets its condition.
-/

namespace Vx68k.Histories

variable {σ ι : Type}

/-- The property holds in every state of the history. -/
def Throughout (step : σ → ι → σ) (good : σ → Prop) : σ → List ι → Prop
  | state, [] => good state
  | state, event :: rest => good state ∧ Throughout step good (step state event) rest

/-- Every event of the history meets the condition in the state it comes in. -/
def EveryEvent (step : σ → ι → σ) (condition : σ → ι → Prop) : σ → List ι → Prop
  | _, [] => True
  | state, event :: rest =>
    condition state event ∧ EveryEvent step condition (step state event) rest

/-- Runs can be checked state by state. -/
instance decidableThroughout (step : σ → ι → σ) (good : σ → Prop) [DecidablePred good] :
    ∀ state events, Decidable (Throughout step good state events)
  | state, [] => inferInstanceAs (Decidable (good state))
  | state, event :: rest =>
    haveI := decidableThroughout step good (step state event) rest
    inferInstanceAs (Decidable (_ ∧ _))

/-- Runs can be checked event by event. -/
instance decidableEveryEvent (step : σ → ι → σ) (condition : σ → ι → Prop)
    [∀ state event, Decidable (condition state event)] :
    ∀ state events, Decidable (EveryEvent step condition state events)
  | _, [] => inferInstanceAs (Decidable True)
  | state, event :: rest =>
    haveI := decidableEveryEvent step condition (step state event) rest
    inferInstanceAs (Decidable (_ ∧ _))

/-- A property that holds throughout a history holds in each of its states. -/
theorem throughout_state {step : σ → ι → σ} {good : σ → Prop} {state : σ} {front back : List ι}
    (holds : Throughout step good state (front ++ back)) : good (front.foldl step state) := by
  induction front generalizing state with
  | nil =>
    cases back with
    | nil => exact holds
    | cons event rest => exact holds.1
  | cons event rest inductionHypothesis => exact inductionHypothesis holds.2

/-- Under an invariant, where an event keeps the property exactly if it meets its
condition, the property holds throughout exactly if every event does. -/
theorem throughout_iff {step : σ → ι → σ} {good invariant : σ → Prop} {condition : σ → ι → Prop}
    {admissible : ι → Prop}
    (kept : ∀ state event, admissible event → invariant state → invariant (step state event))
    (decides : ∀ state event, admissible event → invariant state → good state →
      (good (step state event) ↔ condition state event))
    {state : σ} (initial : invariant state) (start : good state) (events : List ι)
    (allowed : ∀ event ∈ events, admissible event) :
    Throughout step good state events ↔ EveryEvent step condition state events := by
  induction events generalizing state with
  | nil => exact ⟨fun _ => trivial, fun _ => start⟩
  | cons event rest inductionHypothesis =>
    have permitted : admissible event := allowed event (by simp)
    have others : ∀ other ∈ rest, admissible other := fun other member => allowed other (by simp [member])
    have next := kept state event permitted initial
    have exactly := decides state event permitted initial start
    constructor
    · rintro ⟨-, later⟩
      have after : good (step state event) := @throughout_state _ _ step good _ [] rest later
      exact ⟨exactly.mp after, (inductionHypothesis next after others).mp later⟩
    · rintro ⟨meets, later⟩
      have after := exactly.mpr meets
      exact ⟨start, (inductionHypothesis next after others).mpr later⟩

end Vx68k.Histories
