import Mathlib.Data.List.Nodup
import Mathlib.Logic.Function.Basic

/-!
# Sequences of assignments

A loop that fills an array, one element after the other.  An element that is
assigned once holds that value in the end, wherever in the sequence the
assignment stands; an element that is never assigned keeps its old value.
-/

namespace Muon
namespace Foundation

variable {κ α : Type} [DecidableEq κ]

/-- The array after the assignments, made from left to right. -/
def assignAll (array : κ → α) (assignments : List (κ × α)) : κ → α :=
  assignments.foldl (fun array assignment =>
    Function.update array assignment.1 assignment.2) array

theorem assignAll_cons (array : κ → α) (assignment : κ × α)
    (assignments : List (κ × α)) :
    assignAll array (assignment :: assignments) =
      assignAll (Function.update array assignment.1 assignment.2) assignments := rfl

theorem assignAll_of_not_mem (array : κ → α) {assignments : List (κ × α)} {key : κ}
    (hkey : key ∉ assignments.map Prod.fst) : assignAll array assignments key = array key := by
  induction assignments generalizing array with
  | nil => rfl
  | cons assignment assignments ih =>
      rw [List.map_cons, List.mem_cons, not_or] at hkey
      obtain ⟨hne, hkey⟩ := hkey
      rw [assignAll_cons, ih _ hkey, Function.update_of_ne hne]

theorem assignAll_of_mem (array : κ → α) {assignments : List (κ × α)} {key : κ} {value : α}
    (hnodup : (assignments.map Prod.fst).Nodup) (hmem : (key, value) ∈ assignments) :
    assignAll array assignments key = value := by
  induction assignments generalizing array with
  | nil => cases hmem
  | cons assignment assignments ih =>
      obtain ⟨hfresh, hnodup⟩ := List.nodup_cons.mp hnodup
      rw [assignAll_cons]
      rcases List.mem_cons.mp hmem with rfl | hmem
      · rw [assignAll_of_not_mem _ hfresh, Function.update_self]
      · exact ih _ hnodup hmem

end Foundation
end Muon
