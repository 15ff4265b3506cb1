import Muon.Foundation.Simulation

/-!
# What a system can still do

A state can reach a property when the run can go on, by allowed events, to a state that
has it.  This says nothing about what has to happen, but that the system is not stuck
before it.

Goals are reached in stages: a stage may use that its state is reachable, and a stage
that lowers a measure is repeated until the measure is zero.
-/

namespace Muon
namespace Foundation

variable {σ ε : Type} {system : TransitionSystem σ ε} {allowed : ε → Prop}
  {P Q : σ → Prop} {state state' : σ}

/-- The run can go on by allowed events to a state with the property. -/
def CanReach (system : TransitionSystem σ ε) (allowed : ε → Prop) (P : σ → Prop)
    (state : σ) : Prop :=
  ∃ events final, Path system state events final ∧ (∀ event ∈ events, allowed event) ∧ P final

/-- What a run goes on to is reachable. -/
theorem Reachable.path {events : List ε} (hreach : Reachable system state)
    (hpath : Path system state events state') : Reachable system state' := by
  induction hpath with
  | nil => exact hreach
  | cons hstep _ ih => exact ih (.step hreach hstep)

namespace CanReach

theorem here (hstate : P state) : CanReach system allowed P state :=
  ⟨[], state, .nil, List.forall_mem_nil _, hstate⟩

/-- One event first. -/
theorem next {event : ε} (hstep : system.step state event state') (hallowed : allowed event)
    (hrest : CanReach system allowed P state') : CanReach system allowed P state := by
  obtain ⟨events, final, hpath, hevents, hfinal⟩ := hrest
  exact ⟨event :: events, final, .cons hstep hpath, List.forall_mem_cons.mpr ⟨hallowed, hevents⟩,
    hfinal⟩

/-- One stage after the other. -/
theorem trans (hreach : Reachable system state) (hfirst : CanReach system allowed P state)
    (hsecond : ∀ state, Reachable system state → P state → CanReach system allowed Q state) :
    CanReach system allowed Q state := by
  obtain ⟨events, middle, hpath, hevents, hmiddle⟩ := hfirst
  obtain ⟨events', final, hpath', hevents', hfinal⟩ :=
    hsecond middle (hreach.path hpath) hmiddle
  exact ⟨events ++ events', final, hpath.append hpath',
    List.forall_mem_append.mpr ⟨hevents, hevents'⟩, hfinal⟩

/-- The rule of descent. -/
theorem descend (P : σ → Prop) (measure : σ → Nat) {state : σ}
    (hstage : ∀ state, Reachable system state → P state → measure state ≠ 0 →
      CanReach system allowed (fun state' => P state' ∧ measure state' < measure state) state)
    (hreach : Reachable system state) (hstate : P state) :
    CanReach system allowed (fun state' => P state' ∧ measure state' = 0) state := by
  induction hmeasure : measure state using Nat.strongRecOn generalizing state with
  | ind n ih =>
      subst hmeasure
      by_cases hzero : measure state = 0
      · exact here ⟨hstate, hzero⟩
      · exact (hstage state hreach hstate hzero).trans hreach
          fun state' hreach' hlower => ih _ hlower.2 hreach' hlower.1 rfl

end CanReach

end Foundation
end Muon
