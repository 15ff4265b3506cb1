import Mathlib.Data.Int.CardIntervalMod

/-!
# Round robin

Places on a ring, some of them ready.  Whoever always moves on to the first ready place
behind the one it is at, visits the ready places in turn: counted among the ready places,
each move goes one place further.  So of any number of moves every ready place gets the
same share, up to the one that does not divide evenly.
-/

namespace Muon
namespace Foundation

/-- `next` is the first ready place strictly behind `last`, around a ring of `size`
places; `last` itself comes last. -/
def FirstBehind (size : Nat) (ready : Nat → Prop) (last next : Nat) : Prop :=
  ∃ k, 1 ≤ k ∧ k ≤ size ∧ next = (last + k) % size ∧ ready next ∧
    ∀ j, 1 ≤ j → j < k → ¬ ready ((last + j) % size)

/-- A run of moves: the places visited, the latest first, and the current place. -/
inductive Rounds (size : Nat) (ready : Nat → Prop) (start : Nat) : List Nat → Nat → Prop where
  | start : Rounds size ready start [] start
  | next {places : List Nat} {last next : Nat} : Rounds size ready start places last →
      FirstBehind size ready last next → Rounds size ready start (next :: places) next

variable {size last next start : Nat} {ready : Nat → Prop}

theorem FirstBehind.ready_next (hfirst : FirstBehind size ready last next) : ready next := by
  obtain ⟨k, -, -, -, hready, -⟩ := hfirst
  exact hready

theorem FirstBehind.lt (hlast : last < size) (hfirst : FirstBehind size ready last next) :
    next < size := by
  obtain ⟨k, -, -, rfl, -⟩ := hfirst
  exact Nat.mod_lt _ (by omega)

section Rank

variable [DecidablePred ready]

/-- No ready place in an interval: the count does not move. -/
theorem count_eq_of_none {first last : Nat} (hle : first ≤ last)
    (hnone : ∀ place, first ≤ place → place < last → ¬ ready place) :
    Nat.count ready first = Nat.count ready last := by
  obtain ⟨length, rfl⟩ := Nat.exists_eq_add_of_le hle
  rw [Nat.count_add, left_eq_add, Nat.count_iff_forall_not]
  intro place hplace
  exact hnone _ (Nat.le_add_right _ _) (by omega)

/-- The number of ready places before the next one: those up to the last place, or none,
when the move goes around the ring. -/
theorem count_firstBehind (hlast : last < size) (hfirst : FirstBehind size ready last next) :
    Nat.count ready next = Nat.count ready (last + 1) % Nat.count ready size := by
  have hsize := hfirst.lt hlast
  obtain ⟨k, hlow, hhigh, hnext, hready, hnone⟩ := hfirst
  have hrank : Nat.count ready next < Nat.count ready size := Nat.count_strict_mono hready hsize
  rcases Nat.lt_or_ge (last + k) size with hinside | hwrap
  · -- the places between the two are not ready
    rw [Nat.mod_eq_of_lt hinside] at hnext
    have hsame : Nat.count ready (last + 1) = Nat.count ready next := by
      apply count_eq_of_none
      · omega
      · intro place hplace hbefore
        have hmissed := hnone (place - last) (by omega) (by omega)
        rwa [Nat.add_sub_cancel' (by omega), Nat.mod_eq_of_lt (by omega)] at hmissed
    rw [hsame, Nat.mod_eq_of_lt hrank]
  · -- neither are those up to the end of the ring, nor those from its start
    have hturn : next = last + k - size := by
      rw [hnext, Nat.mod_eq_sub_mod hwrap, Nat.mod_eq_of_lt (by omega)]
    have hend : Nat.count ready (last + 1) = Nat.count ready size := by
      apply count_eq_of_none
      · omega
      · intro place hplace hbefore
        have hmissed := hnone (place - last) (by omega) (by omega)
        rwa [Nat.add_sub_cancel' (by omega), Nat.mod_eq_of_lt hbefore] at hmissed
    have hstart : Nat.count ready 0 = Nat.count ready next := by
      apply count_eq_of_none
      · omega
      · intro place _ hbefore
        have hmissed := hnone (place + size - last) (by omega) (by omega)
        rwa [Nat.add_sub_cancel' (by omega), Nat.add_mod_right,
          Nat.mod_eq_of_lt (by omega)] at hmissed
    rw [hend, Nat.mod_self, ← hstart, Nat.count_zero]

/-- The current place of a run, counted among the ready ones. -/
theorem Rounds.count_last (hstart : start < size) {places : List Nat}
    (hrounds : Rounds size ready start (next :: places) last) :
    next < size ∧ ready next ∧ Nat.count ready next =
      (Nat.count ready (start + 1) + places.length) % Nat.count ready size := by
  induction places generalizing next last with
  | nil =>
      cases hrounds with
      | next hbefore hfirst =>
          cases hbefore
          exact ⟨hfirst.lt hstart, hfirst.ready_next, count_firstBehind hstart hfirst⟩
  | cons place places ih =>
      cases hrounds with
      | next hbefore hfirst =>
          obtain ⟨hplace, hready, hcount⟩ := ih hbefore
          cases hbefore
          refine ⟨hfirst.lt hplace, hfirst.ready_next, ?_⟩
          rw [count_firstBehind hplace hfirst, Nat.count_succ, if_pos hready, hcount,
            List.length_cons, Nat.mod_add_mod, Nat.add_assoc]

/-- How often a ready place is visited: as often as its turn comes up. -/
theorem Rounds.count_place (hstart : start < size) {places : List Nat}
    (hrounds : Rounds size ready start places last) {place : Nat} (hready : ready place) :
    places.count place = Nat.count (fun i => (Nat.count ready (start + 1) + i) %
      Nat.count ready size = Nat.count ready place) places.length := by
  induction places generalizing last with
  | nil => rfl
  | cons next places ih =>
      obtain ⟨-, hnext, hcount⟩ := hrounds.count_last hstart
      have hbefore : ∃ last', Rounds size ready start places last' := by
        cases hrounds with
        | next hbefore hfirst => exact ⟨_, hbefore⟩
      obtain ⟨last', hbefore⟩ := hbefore
      have hsame : (next == place) = true ↔ Nat.count ready next = Nat.count ready place := by
        rw [beq_iff_eq]
        exact ⟨congrArg _, Nat.count_injective hnext hready⟩
      rw [List.count_cons, List.length_cons, Nat.count_succ, ih hbefore, ← hcount]
      simp only [hsame]

end Rank

/-- Of `moves` numbers in a row, every remainder modulo `turns` gets its share. -/
theorem count_mod_share {turns rank : Nat} (hrank : rank < turns) (offset moves : Nat) :
    Nat.count (fun i => (offset + i) % turns = rank) moves = moves / turns ∨
      Nat.count (fun i => (offset + i) % turns = rank) moves = (moves + turns - 1) / turns := by
  have hturns : 0 < turns := by omega
  have hcongr : ∀ i, (offset + i) % turns = rank ↔
      i ≡ rank + (turns - offset % turns) [MOD turns] := by
    intro i
    have hoffset := Nat.mod_add_div offset turns
    have hlt := Nat.mod_lt offset hturns
    have hrest : offset + (rank + (turns - offset % turns)) =
        rank + turns * (offset / turns + 1) := by
      rw [Nat.mul_add, Nat.mul_one]
      omega
    have hclass : offset + (rank + (turns - offset % turns)) ≡ rank [MOD turns] := by
      rw [hrest]
      exact Nat.add_mul_mod_self_left rank turns _
    constructor
    · intro hmod
      have hsame : offset + i ≡ rank [MOD turns] := by
        rw [Nat.ModEq, hmod, Nat.mod_eq_of_lt hrank]
      exact Nat.ModEq.add_left_cancel' offset (hsame.trans hclass.symm)
    · intro hmod
      have hsame := (hmod.add_left offset).trans hclass
      rw [Nat.ModEq, Nat.mod_eq_of_lt hrank] at hsame
      exact hsame
  simp only [hcongr]
  rw [Nat.count_modEq_card moves hturns]
  split
  · -- one more for a remainder that is left over
    right
    have hdivision := Nat.mod_add_div moves turns
    have hlt := Nat.mod_lt moves hturns
    have hrounded : moves + turns - 1 = moves % turns - 1 + turns * (moves / turns + 1) := by
      rw [Nat.mul_add, Nat.mul_one]
      omega
    have hsmall : (moves % turns - 1) / turns = 0 := Nat.div_eq_of_lt (by omega)
    rw [hrounded, Nat.add_mul_div_left _ _ hturns, hsmall, Nat.zero_add]
  · exact Or.inl rfl

/-- **Every ready place gets its share of the moves**, rounded down or up. -/
theorem Rounds.share [DecidablePred ready] (hstart : start < size) {places : List Nat}
    (hrounds : Rounds size ready start places last) {place : Nat} (hplace : place < size)
    (hready : ready place) :
    places.count place = places.length / Nat.count ready size ∨
      places.count place =
        (places.length + Nat.count ready size - 1) / Nat.count ready size := by
  rw [hrounds.count_place hstart hready]
  exact count_mod_share (Nat.count_strict_mono hready hplace) _ _

end Foundation
end Muon
