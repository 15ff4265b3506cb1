import Mathlib.Data.List.Induction
import Mathlib.Tactic.Common

/-!
# Checked accesses

An array is the list of its elements, and pointers into it are integers: a C program
may form one that is outside and is only wrong to use it.  Each access checks its
index, and reports one that is outside as a fault.

`scan` and `clearBack` are the loops that walk over an array: forwards to the first
element of a kind, and backwards while there are elements of a kind, which they
overwrite.  The lemmas describe an array by what stands before and behind the pointer.
-/

namespace Muon
namespace Foundation
namespace CheckedArray

variable {α ε : Type} (fault : Int → ε)

/-- `array[index]`. -/
def load (array : List α) (index : Int) : Except ε α :=
  if hindex : 0 ≤ index ∧ index.toNat < array.length then
    .ok (array.get ⟨index.toNat, hindex.2⟩)
  else
    .error (fault index)

/-- `array[index] = a`. -/
def write (array : List α) (index : Int) (a : α) : Except ε (List α) :=
  if 0 ≤ index ∧ index.toNat < array.length then .ok (array.set index.toNat a)
  else .error (fault index)

variable {fault}

theorem lt_of_load {array : List α} {index : Int} {a : α}
    (hload : load fault array index = .ok a) : index < array.length := by
  unfold load at hload
  split at hload
  · omega
  · cases hload

variable (fault)

/-- Advance to the first element that stops the scan. -/
def scan (stops : α → Bool) (array : List α) (index : Int) : Except ε Int :=
  match hload : load fault array index with
  | .error outside => .error outside
  | .ok a => if stops a then .ok index else scan stops array (index + 1)
termination_by (array.length - index).toNat
decreasing_by
  have hlt := lt_of_load hload
  omega

/-- Overwrite the elements of a kind in front of a pointer, from the last one back. -/
def clearBack (clears : α → Bool) (zero : α) (array : List α) (first last : Int) :
    Except ε (List α) :=
  if first ≤ last then
    match load fault array last with
    | .error outside => .error outside
    | .ok a =>
        if clears a then
          match write fault array last zero with
          | .error outside => .error outside
          | .ok array => clearBack clears zero array first (last - 1)
        else
          .ok array
  else
    .ok array
termination_by (last - first + 1).toNat

theorem load_append (before : List α) (a : α) (rest : List α) :
    load fault (before ++ a :: rest) before.length = .ok a := by
  have hinside : before.length < (before ++ a :: rest).length := by
    rw [List.length_append, List.length_cons]
    omega
  unfold load
  rw [dif_pos ⟨Int.natCast_nonneg _, hinside⟩]
  simp

/-- In front of the array there is nothing. -/
theorem load_of_neg (array : List α) {index : Int} (hneg : index < 0) :
    load fault array index = .error (fault index) := by
  unfold load
  exact dif_neg fun hinside => absurd hinside.1 (Int.not_le.mpr hneg)

theorem write_append (before : List α) (a : α) (rest : List α) (b : α) :
    write fault (before ++ a :: rest) before.length b = .ok (before ++ b :: rest) := by
  have hinside : before.length < (before ++ a :: rest).length := by
    rw [List.length_append, List.length_cons]
    omega
  unfold write
  rw [if_pos ⟨Int.natCast_nonneg _, hinside⟩]
  simp

/-! ## Scans -/

theorem scan_stop {stops : α → Bool} {array : List α} {index : Int} {a : α}
    (hload : load fault array index = .ok a) (hstop : stops a = true) :
    scan fault stops array index = .ok index := by
  rw [scan]
  split
  · next outside hfails =>
      rw [hload] at hfails
      cases hfails
  · next b hloads =>
      rw [hload] at hloads
      cases hloads
      exact if_pos hstop

theorem scan_next {stops : α → Bool} {array : List α} {index : Int} {a : α}
    (hload : load fault array index = .ok a) (hpassed : stops a = false) :
    scan fault stops array index = scan fault stops array (index + 1) := by
  conv_lhs => rw [scan]
  split
  · next outside hfails =>
      rw [hload] at hfails
      cases hfails
  · next b hloads =>
      rw [hload] at hloads
      cases hloads
      rw [hpassed]
      rfl

/-- A scan stops at the first element it is looking for. -/
theorem scan_append {stops : α → Bool} (before : List α) {passed : List α} {a : α}
    (rest : List α) (hpassed : ∀ b ∈ passed, stops b = false) (hstop : stops a = true) :
    scan fault stops (before ++ (passed ++ a :: rest)) before.length =
      .ok ((before ++ passed).length : Int) := by
  induction passed generalizing before with
  | nil =>
      rw [List.append_nil, List.nil_append]
      exact scan_stop fault (load_append fault before a rest) hstop
  | cons b passed ih =>
      rw [List.forall_mem_cons] at hpassed
      have hahead := ih (before ++ [b]) hpassed.2
      rw [List.append_assoc, List.append_assoc, List.singleton_append, List.singleton_append,
        List.length_append, List.length_singleton] at hahead
      rw [List.cons_append,
        scan_next fault (load_append fault before b (passed ++ a :: rest)) hpassed.1]
      exact hahead

theorem clearBack_stop {clears : α → Bool} {zero : α} {array : List α} {first last : Int} {a : α}
    (hload : load fault array last = .ok a) (hkept : clears a = false) :
    clearBack fault clears zero array first last = .ok array := by
  rw [clearBack]
  split
  · rw [hload]
    dsimp only
    rw [hkept]
    rfl
  · rfl

theorem clearBack_next {clears : α → Bool} {zero : α} {array array' : List α}
    {first last : Int} {a : α} (hle : first ≤ last) (hload : load fault array last = .ok a)
    (hcleared : clears a = true) (hwrite : write fault array last zero = .ok array') :
    clearBack fault clears zero array first last =
      clearBack fault clears zero array' first (last - 1) := by
  conv_lhs => rw [clearBack]
  rw [if_pos hle, hload]
  dsimp only
  rw [if_pos hcleared, hwrite]

/-- The run of elements of the kind at the end is overwritten, and nothing else. -/
theorem clearBack_append {clears : α → Bool} (zero : α) (before : List α) {kept : List α}
    (cleared rest : List α) (hcleared : ∀ a ∈ cleared, clears a = true)
    (hkept : ∀ a ∈ kept.getLast?, clears a = false) :
    clearBack fault clears zero (before ++ kept ++ cleared ++ rest) before.length
        ((before ++ kept ++ cleared).length - 1 : Int) =
      .ok (before ++ kept ++ List.replicate cleared.length zero ++ rest) := by
  induction cleared using List.reverseRecOn generalizing rest with
  | nil =>
      rw [List.length_nil, List.replicate_zero, List.append_nil]
      obtain rfl | ⟨init, last, rfl⟩ := List.eq_nil_or_concat kept
      · -- the pointer is in front of the first element already
        rw [clearBack, if_neg]
        rw [List.append_nil]
        omega
      · rw [List.concat_eq_append] at hkept ⊢
        have hlast : clears last = false := hkept last List.getLast?_concat
        have hindex : ((before ++ (init ++ [last])).length - 1 : Int) =
            ((before ++ init).length : Int) := by
          simp only [List.length_append, List.length_singleton]
          omega
        rw [hindex, ← List.append_assoc, List.append_assoc _ [last]]
        exact clearBack_stop fault (load_append fault (before ++ init) last rest) hlast
  | append_singleton cleared a ih =>
      rw [List.forall_mem_append, List.forall_mem_singleton] at hcleared
      have hindex : ((before ++ kept ++ (cleared ++ [a])).length - 1 : Int) =
          ((before ++ kept ++ cleared).length : Int) := by
        simp only [List.length_append, List.length_singleton]
        omega
      have hle : (before.length : Int) ≤ ((before ++ kept ++ cleared).length : Int) := by
        simp only [List.length_append]
        omega
      have hreplicate : List.replicate (cleared ++ [a]).length zero =
          List.replicate cleared.length zero ++ [zero] := by
        rw [List.length_append, List.length_singleton, List.replicate_succ']
      rw [hindex, ← List.append_assoc, List.append_assoc _ [a], List.singleton_append,
        clearBack_next fault hle (load_append fault (before ++ kept ++ cleared) a rest)
          hcleared.2 (write_append fault (before ++ kept ++ cleared) a rest zero),
        ih (zero :: rest) hcleared.1, hreplicate, ← List.append_assoc, List.append_assoc _ [zero],
        List.singleton_append]

end CheckedArray
end Foundation
end Muon
