import Mathlib.Data.Nat.ModEq
import Muon.Foundation.Transition

/-!
# Counters and what they count

A counter of fixed width is stepped along a run and wraps.  What it was stepped by in all
is the tally of the steps, a number without bound; the counter is the tally modulo its
width, and the difference to a mark is the tally of the steps since the mark was set.
-/

namespace Muon
namespace Foundation

variable {σ ε : Type} {system : TransitionSystem σ ε}

/-- The amounts of the steps, added up. -/
def tally (amount : Step σ ε → Nat) (steps : List (Step σ ε)) : Nat := (steps.map amount).sum

@[simp] theorem tally_nil (amount : Step σ ε → Nat) : tally amount [] = 0 := rfl

@[simp] theorem tally_cons (amount : Step σ ε → Nat) (step : Step σ ε)
    (steps : List (Step σ ε)) :
    tally amount (step :: steps) = amount step + tally amount steps := by
  simp [tally]

/-- The steps after the last marked one; the latest step is the first of the list. -/
def since (marks : ε → Bool) (steps : List (Step σ ε)) : List (Step σ ε) :=
  steps.takeWhile fun step => !marks step.event

theorem since_cons_of_marks {marks : ε → Bool} {step : Step σ ε} (hmarks : marks step.event = true)
    (steps : List (Step σ ε)) : since marks (step :: steps) = [] := by
  simp [since, hmarks]

theorem since_cons_of_not_marks {marks : ε → Bool} {step : Step σ ε}
    (hmarks : marks step.event = false) (steps : List (Step σ ε)) :
    since marks (step :: steps) = step :: since marks steps := by
  simp [since, hmarks]

/-- Without marks it is the whole run. -/
theorem since_of_forall_not_marks {marks : ε → Bool} (hmarks : ∀ event, marks event = false)
    (steps : List (Step σ ε)) : since marks steps = steps := by
  induction steps with
  | nil => rfl
  | cons step steps ih => rw [since_cons_of_not_marks (hmarks _), ih]

/-- The rule of counters.  When every step moves the counter on by its amount, modulo the
width, and a marked step moves the mark up to it, then the counter is ahead of the mark by
the tally since. -/
theorem History.counter_modEq (count mark : σ → Nat) (amount : Step σ ε → Nat)
    (marks : ε → Bool) (width : Nat)
    (hinitial : ∀ state, system.initial state → count state < width ∧ mark state = count state)
    (hstep : ∀ state event state', Reachable system state → count state < width →
      system.step state event state' →
        (marks event = true → count state' = count state ∧ mark state' = count state') ∧
        (marks event = false → mark state' = mark state ∧
          count state' = (count state + amount ⟨state, event, state'⟩) % width))
    {steps : List (Step σ ε)} {state : σ} (hhistory : History system steps state) :
    count state < width ∧
      count state ≡ mark state + tally amount (since marks steps) [MOD width] := by
  induction hhistory with
  | initial hstate =>
      obtain ⟨hbound, hmark⟩ := hinitial _ hstate
      exact ⟨hbound, by rw [hmark]; exact Nat.ModEq.refl _⟩
  | @step steps state state' event hhistory hnext ih =>
      obtain ⟨hbound, hahead⟩ := ih
      obtain ⟨hmarked, hcounted⟩ := hstep _ _ _ hhistory.reachable hbound hnext
      cases hmarks : marks event with
      | true =>
          obtain ⟨hsame, hmark⟩ := hmarked hmarks
          rw [since_cons_of_marks hmarks, hmark, hsame]
          exact ⟨hbound, Nat.ModEq.refl _⟩
      | false =>
          obtain ⟨hmark, hcount⟩ := hcounted hmarks
          rw [since_cons_of_not_marks hmarks, tally_cons, hmark, hcount]
          refine ⟨Nat.mod_lt _ (Nat.zero_lt_of_lt hbound), (Nat.mod_modEq _ _).trans ?_⟩
          rw [Nat.add_comm (amount _), ← Nat.add_assoc]
          exact hahead.add_right _

end Foundation
end Muon
