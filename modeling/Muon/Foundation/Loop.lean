import Mathlib.Tactic.Common

/-!
# Loops with an early return

A C loop whose body may return from the enclosing function.  `Iteration` is what
one test of the condition and one run of the body do; `whileLoop` repeats it
with a bound on the number of iterations, and yields `none` when the bound is
too small.  A loop that ends within some bound ends the same way within every
larger one, so a result about one sufficient bound is a result about the loop.
-/

namespace Muon
namespace Foundation

/-- One iteration of a loop over `σ` in a function that returns `ρ`. -/
inductive Iteration (ρ σ : Type) where
  /-- The condition is false. -/
  | exit
  /-- The body ran to its end. -/
  | next (state : σ)
  /-- The body returned from the function. -/
  | leave (result : ρ)

variable {ρ σ : Type}

/-- Repeat an iteration at most `fuel` times: the state the loop exits with, or
the result it leaves the function with. -/
def whileLoop (iterate : σ → Iteration ρ σ) : Nat → σ → Option (Except ρ σ)
  | 0, _ => none
  | fuel + 1, state =>
      match iterate state with
      | .exit => some (.ok state)
      | .next state => whileLoop iterate fuel state
      | .leave result => some (.error result)

theorem whileLoop_exit {iterate : σ → Iteration ρ σ} {state : σ}
    (hexit : iterate state = .exit) (fuel : Nat) :
    whileLoop iterate (fuel + 1) state = some (.ok state) := by
  simp only [whileLoop, hexit]

theorem whileLoop_next {iterate : σ → Iteration ρ σ} {state state' : σ}
    (hnext : iterate state = .next state') (fuel : Nat) :
    whileLoop iterate (fuel + 1) state = whileLoop iterate fuel state' := by
  simp only [whileLoop, hnext]

theorem whileLoop_leave {iterate : σ → Iteration ρ σ} {state : σ} {result : ρ}
    (hleave : iterate state = .leave result) (fuel : Nat) :
    whileLoop iterate (fuel + 1) state = some (.error result) := by
  simp only [whileLoop, hleave]

/-- The rule of variants: a loop whose every full iteration keeps the invariant and
lowers the variant ends within the variant. -/
theorem whileLoop_isSome {iterate : σ → Iteration ρ σ} (Inv : σ → Prop) (variant : σ → Nat)
    (hnext : ∀ state state', Inv state → iterate state = .next state' →
      Inv state' ∧ variant state' < variant state)
    {fuel : Nat} {state : σ} (hinv : Inv state) (hfuel : variant state < fuel) :
    (whileLoop iterate fuel state).isSome = true := by
  induction fuel generalizing state with
  | zero => omega
  | succ fuel ih =>
      cases hiterate : iterate state with
      | exit => simp only [whileLoop_exit hiterate, Option.isSome_some]
      | leave result => simp only [whileLoop_leave hiterate, Option.isSome_some]
      | next state' =>
          obtain ⟨hinv', hlower⟩ := hnext state state' hinv hiterate
          rw [whileLoop_next hiterate]
          exact ih hinv' (by omega)

/-- The states at which a loop that starts in `first` tests its condition. -/
inductive Visited (iterate : σ → Iteration ρ σ) (first : σ) : σ → Prop where
  | first : Visited iterate first first
  | next {state state' : σ} : Visited iterate first state → iterate state = .next state' →
      Visited iterate first state'

/-- The rule of loop invariants: what holds at first and is kept by every full
iteration holds whenever the condition is tested. -/
theorem Visited.invariant {iterate : σ → Iteration ρ σ} {first state : σ} (Inv : σ → Prop)
    (hvisited : Visited iterate first state) (hfirst : Inv first)
    (hnext : ∀ state state', Inv state → iterate state = .next state' → Inv state') :
    Inv state := by
  induction hvisited with
  | first => exact hfirst
  | next _ hiterate ih => exact hnext _ _ ih hiterate

end Foundation
end Muon
