import Muon.Foundation.Transition

/-!
# Forward simulations

A system is explained by another one when every step of it is matched by the steps
that can be observed of it: none, one or several.  The observations of a run are then
a run of the other system, so whatever holds of the runs of the other system holds of
what can be observed of this one.

Observations are given step by step, in the order of the run.
-/

namespace Muon
namespace Foundation

variable {σ τ ε δ : Type}

/-- The steps of a system with the given labels, in this order. -/
inductive Path (system : TransitionSystem τ δ) : τ → List δ → τ → Prop where
  | nil {state : τ} : Path system state [] state
  | cons {state state' final : τ} {label : δ} {labels : List δ} :
      system.step state label state' → Path system state' labels final →
      Path system state (label :: labels) final

namespace Path

variable {system : TransitionSystem τ δ} {state state' final : τ} {label : δ}
  {labels labels' : List δ}

theorem single (hstep : system.step state label state') : Path system state [label] state' :=
  .cons hstep .nil

/-- One run after the other. -/
theorem append (hfirst : Path system state labels state')
    (hsecond : Path system state' labels' final) :
    Path system state (labels ++ labels') final := by
  induction hfirst with
  | nil => exact hsecond
  | cons hstep _ ih => exact .cons hstep (ih hsecond)

/-- A run is cut in front of any of its labels. -/
theorem of_append (hpath : Path system state (labels ++ labels') final) :
    ∃ state', Path system state labels state' ∧ Path system state' labels' final := by
  induction labels generalizing state with
  | nil => exact ⟨state, .nil, hpath⟩
  | cons label labels ih =>
      cases hpath with
      | cons hstep hrest =>
          obtain ⟨middle, hfirst, hsecond⟩ := ih hrest
          exact ⟨middle, .cons hstep hfirst, hsecond⟩

end Path

/-- What is observed of a run, the first step first. -/
def observed (observe : Step σ ε → List δ) (steps : List (Step σ ε)) : List δ :=
  steps.reverse.flatMap observe

theorem observed_cons (observe : Step σ ε → List δ) (step : Step σ ε)
    (steps : List (Step σ ε)) :
    observed observe (step :: steps) = observed observe steps ++ observe step := by
  rw [observed, List.reverse_cons, List.flatMap_append, List.flatMap_singleton]
  rfl

/-- Every reachable state has a run. -/
theorem Reachable.exists_history {system : TransitionSystem σ ε} {state : σ}
    (hreach : Reachable system state) : ∃ steps, History system steps state := by
  induction hreach with
  | initial hstate => exact ⟨[], .initial hstate⟩
  | step _ hnext ih =>
      obtain ⟨steps, hhistory⟩ := ih
      exact ⟨_, .step hhistory hnext⟩

/-- Every step is matched by what is observed of it. -/
structure Simulation (concrete : TransitionSystem σ ε) (abstract : TransitionSystem τ δ)
    (observe : Step σ ε → List δ) (Related : σ → τ → Prop) : Prop where
  initial : ∀ state, concrete.initial state →
    ∃ image, abstract.initial image ∧ Related state image
  step : ∀ state event state' image, Reachable concrete state → Related state image →
    concrete.step state event state' →
      ∃ image', Path abstract image (observe ⟨state, event, state'⟩) image' ∧
        Related state' image'

/-- The observations of a run of the one system are a run of the other. -/
theorem Simulation.history {concrete : TransitionSystem σ ε}
    {abstract : TransitionSystem τ δ} {observe : Step σ ε → List δ} {Related : σ → τ → Prop}
    (hsimulation : Simulation concrete abstract observe Related)
    {steps : List (Step σ ε)} {state : σ} (hhistory : History concrete steps state) :
    ∃ first image, abstract.initial first ∧ Path abstract first (observed observe steps) image ∧
      Related state image := by
  induction hhistory with
  | initial hstate =>
      obtain ⟨image, hinitial, hrelated⟩ := hsimulation.initial _ hstate
      exact ⟨image, image, hinitial, .nil, hrelated⟩
  | step hhistory hnext ih =>
      obtain ⟨first, image, hinitial, hpath, hrelated⟩ := ih
      obtain ⟨image', hstep, hrelated'⟩ :=
        hsimulation.step _ _ _ image hhistory.reachable hrelated hnext
      refine ⟨first, image', hinitial, ?_, hrelated'⟩
      rw [observed_cons]
      exact hpath.append hstep

/-- Every step is matched by one that is observed alike, or it is hidden: then nothing is
observed of it. -/
structure Hiding {κ : Type} (concrete : TransitionSystem σ ε) (abstract : TransitionSystem τ δ)
    (observe : Step σ ε → List κ) (observe' : Step τ δ → List κ) (Related : σ → τ → Prop) :
    Prop where
  initial : ∀ state, concrete.initial state →
    ∃ image, abstract.initial image ∧ Related state image
  step : ∀ state event state' image, Reachable abstract image → Related state image →
    concrete.step state event state' →
      (observe ⟨state, event, state'⟩ = [] ∧ Related state' image) ∨
        ∃ event' image', abstract.step image event' image' ∧ Related state' image' ∧
          observe' ⟨image, event', image'⟩ = observe ⟨state, event, state'⟩

/-- Without the hidden steps there is a run of the other system that is observed alike. -/
theorem Hiding.history {κ : Type} {concrete : TransitionSystem σ ε}
    {abstract : TransitionSystem τ δ} {observe : Step σ ε → List κ}
    {observe' : Step τ δ → List κ} {Related : σ → τ → Prop}
    (hhiding : Hiding concrete abstract observe observe' Related)
    {steps : List (Step σ ε)} {state : σ} (hhistory : History concrete steps state) :
    ∃ steps' image, History abstract steps' image ∧ Related state image ∧
      observed observe' steps' = observed observe steps := by
  induction hhistory with
  | initial hstate =>
      obtain ⟨image, hinitial, hrelated⟩ := hhiding.initial _ hstate
      exact ⟨[], image, .initial hinitial, hrelated, rfl⟩
  | step _ hnext ih =>
      obtain ⟨steps', image, hrun, hrelated, hobserved⟩ := ih
      rcases hhiding.step _ _ _ image hrun.reachable hrelated hnext with
        ⟨hnothing, hrelated'⟩ | ⟨event', image', hstep, hrelated', halike⟩
      · refine ⟨steps', image, hrun, hrelated', ?_⟩
        rw [observed_cons, hnothing, List.append_nil, hobserved]
      · refine ⟨_, image', .step hrun hstep, hrelated', ?_⟩
        rw [observed_cons, observed_cons, hobserved, halike]

end Foundation
end Muon
