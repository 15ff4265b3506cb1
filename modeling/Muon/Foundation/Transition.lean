import Mathlib.Tactic.Common

/-!
# Transition systems

A system is given by its initial states and a step relation labelled with
events.  What holds of every initial state and is preserved by every step holds
of every reachable state, and a system whose steps are steps of another one
reaches no more states.

A history is a run with its steps, for what depends on how a state was reached:
which steps keep a property, and what has happened since.
-/

namespace Muon
namespace Foundation

/-- Initial states and labelled steps. -/
structure TransitionSystem (σ ε : Type) where
  initial : σ → Prop
  step : σ → ε → σ → Prop

/-- The states some run reaches. -/
inductive Reachable {σ ε : Type} (system : TransitionSystem σ ε) : σ → Prop where
  | initial {state : σ} : system.initial state → Reachable system state
  | step {state state' : σ} {event : ε} : Reachable system state →
      system.step state event state' → Reachable system state'

variable {σ τ ε δ : Type} {system : TransitionSystem σ ε}

/-- The rule of invariants.  A step may use that it starts from a reachable
state. -/
theorem Reachable.invariant (Inv : σ → Prop) {state : σ} (hreach : Reachable system state)
    (hinitial : ∀ state, system.initial state → Inv state)
    (hstep : ∀ state event state', Reachable system state → Inv state →
      system.step state event state' → Inv state') : Inv state := by
  induction hreach with
  | initial hstate => exact hinitial _ hstate
  | step hreach hnext ih => exact hstep _ _ _ hreach ih hnext

/-- The image of a run under a map of states, when every step maps to a step or
leaves the image alone. -/
theorem Reachable.map {system' : TransitionSystem τ δ} (image : σ → τ) {state : σ}
    (hreach : Reachable system state)
    (hinitial : ∀ state, system.initial state → system'.initial (image state))
    (hstep : ∀ state event state', system.step state event state' →
      image state' = image state ∨ ∃ event', system'.step (image state) event' (image state')) :
    Reachable system' (image state) := by
  induction hreach with
  | initial hstate => exact .initial (hinitial _ hstate)
  | step hreach hnext ih =>
      rcases hstep _ _ _ hnext with hsame | ⟨event', hnext'⟩
      · rw [hsame]
        exact ih
      · exact .step ih hnext'

/-- Carry out a list of events with an executable step. -/
def run (next : σ → ε → Option σ) : σ → List ε → Option σ
  | state, [] => some state
  | state, event :: events =>
      match next state event with
      | none => none
      | some state' => run next state' events

/-- A run of executed steps reaches its last state. -/
theorem Reachable.run {next : σ → ε → Option σ}
    (hnext : ∀ state event state', next state event = some state' →
      system.step state event state')
    {state final : σ} {events : List ε} (hreach : Reachable system state)
    (hrun : Foundation.run next state events = some final) : Reachable system final := by
  induction events generalizing state with
  | nil =>
      cases hrun
      exact hreach
  | cons event events ih =>
      simp only [Foundation.run] at hrun
      split at hrun
      · cases hrun
      · next state' hstep => exact ih (.step hreach (hnext _ _ _ hstep)) hrun

/-! ## Histories -/

/-- One step of a run. -/
structure Step (σ ε : Type) where
  before : σ
  event : ε
  after : σ

/-- A run: its steps, the latest first, and the state it has reached. -/
inductive History (system : TransitionSystem σ ε) : List (Step σ ε) → σ → Prop where
  | initial {state : σ} : system.initial state → History system [] state
  | step {steps : List (Step σ ε)} {state state' : σ} {event : ε} :
      History system steps state → system.step state event state' →
      History system (⟨state, event, state'⟩ :: steps) state'

/-- The states of a run, the latest first. -/
def visited (steps : List (Step σ ε)) (state : σ) : List σ := state :: steps.map Step.before

theorem History.reachable {steps : List (Step σ ε)} {state : σ}
    (hhistory : History system steps state) : Reachable system state := by
  induction hhistory with
  | initial hstate => exact .initial hstate
  | step _ hnext ih => exact .step ih hnext

/-- A step of a run starts from a reachable state. -/
theorem History.step_of_mem {steps : List (Step σ ε)} {state : σ}
    (hhistory : History system steps state) {step : Step σ ε} (hmem : step ∈ steps) :
    Reachable system step.before ∧ system.step step.before step.event step.after := by
  induction hhistory with
  | initial hstate => cases hmem
  | step hhistory hnext ih =>
      rcases List.mem_cons.mp hmem with rfl | hearlier
      · exact ⟨hhistory.reachable, hnext⟩
      · exact ih hearlier

/-- Every state of a run is reachable. -/
theorem History.reachable_of_mem {steps : List (Step σ ε)} {state state' : σ}
    (hhistory : History system steps state) (hmem : state' ∈ visited steps state) :
    Reachable system state' := by
  rcases List.mem_cons.mp hmem with rfl | hearlier
  · exact hhistory.reachable
  · obtain ⟨step, hstep, rfl⟩ := List.mem_map.mp hearlier
    exact (hhistory.step_of_mem hstep).1

/-- Executed steps prolong a history by their events. -/
theorem History.run {next : σ → ε → Option σ}
    (hnext : ∀ state event state', next state event = some state' →
      system.step state event state')
    {steps : List (Step σ ε)} {state final : σ} {events : List ε}
    (hhistory : History system steps state)
    (hrun : Foundation.run next state events = some final) :
    ∃ later, History system (later ++ steps) final ∧
      later.map Step.event = events.reverse := by
  induction events generalizing state steps with
  | nil =>
      cases hrun
      exact ⟨[], hhistory, rfl⟩
  | cons event events ih =>
      simp only [Foundation.run] at hrun
      split at hrun
      · cases hrun
      · next state' hstep =>
          obtain ⟨later, hlater, hevents⟩ := ih (.step hhistory (hnext _ _ _ hstep)) hrun
          refine ⟨later ++ [⟨state, event, state'⟩], ?_, ?_⟩
          · rwa [List.append_assoc]
          · rw [List.map_append, hevents, List.reverse_cons]
            rfl

/-- Executed steps from an initial state have a history. -/
theorem exists_history_of_run {next : σ → ε → Option σ}
    (hnext : ∀ state event state', next state event = some state' →
      system.step state event state')
    {initial final : σ} {events : List ε} (hinitial : system.initial initial)
    (hrun : run next initial events = some final) :
    ∃ steps, History system steps final ∧ steps.map Step.event = events.reverse := by
  have hstart : History system [] initial := .initial hinitial
  obtain ⟨steps, hhistory, hevents⟩ := hstart.run hnext hrun
  rw [List.append_nil] at hhistory
  exact ⟨steps, hhistory, hevents⟩

/-- The rule of exact guards.  When a step that starts with the property keeps it
exactly when it meets the guard, a run has the property throughout exactly when all
of its steps meet the guard. -/
theorem History.forall_visited_iff (P : σ → Prop) (guard : σ → ε → Prop)
    (hinitial : ∀ state, system.initial state → P state)
    (hstep : ∀ state event state', Reachable system state → P state →
      system.step state event state' → (P state' ↔ guard state event))
    {steps : List (Step σ ε)} {state : σ} (hhistory : History system steps state) :
    (∀ state' ∈ visited steps state, P state') ↔
      ∀ step ∈ steps, guard step.before step.event := by
  induction hhistory with
  | initial hstate => simpa [visited] using hinitial _ hstate
  | @step steps state state' event hhistory hnext ih =>
      have hsplit : visited (⟨state, event, state'⟩ :: steps) state' =
          state' :: visited steps state := rfl
      rw [hsplit, List.forall_mem_cons, List.forall_mem_cons, ← ih]
      constructor
      · rintro ⟨hlast, hearlier⟩
        have hbefore : P state := hearlier state List.mem_cons_self
        exact ⟨(hstep _ _ _ hhistory.reachable hbefore hnext).mp hlast, hearlier⟩
      · rintro ⟨hguard, hearlier⟩
        have hbefore : P state := hearlier state List.mem_cons_self
        exact ⟨(hstep _ _ _ hhistory.reachable hbefore hnext).mpr hguard, hearlier⟩

/-- The same rule for a property of steps. -/
theorem History.forall_steps_iff (Q : Step σ ε → Prop) (guard : σ → ε → Prop)
    (hstep : ∀ state event state', Reachable system state →
      system.step state event state' → (Q ⟨state, event, state'⟩ ↔ guard state event))
    {steps : List (Step σ ε)} {state : σ} (hhistory : History system steps state) :
    (∀ step ∈ steps, Q step) ↔ ∀ step ∈ steps, guard step.before step.event := by
  induction hhistory with
  | initial => simp
  | step hhistory hnext ih =>
      rw [List.forall_mem_cons, List.forall_mem_cons, ih,
        hstep _ _ _ hhistory.reachable hnext]

end Foundation
end Muon
