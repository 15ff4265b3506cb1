import Mathlib.Algebra.Group.Int.Defs
import Mathlib.Algebra.Group.Nat.Defs
import Mathlib.Tactic.Common

/-!
# Dyadic blocks

The block of level `k` of a number is the set of numbers with the same quotient
by `2 ^ k`.  Each block of level `k + 1` consists of two of level `k`: the one a
number lies in and its sibling.  Any two different numbers part at exactly one
level, where each lies in the other's sibling block.
-/

namespace Muon
namespace Foundation

/-- The first number of the block of `n` at a level. -/
def blockBase (n level : Nat) : Nat := n / 2 ^ level * 2 ^ level

/-- The first number of the sibling of `n`'s block at a level. -/
def siblingBase (n level : Nat) : Nat :=
  if n / 2 ^ level % 2 = 1 then blockBase n (level + 1)
  else blockBase n (level + 1) + 2 ^ level

/-! ## The block of a number -/

theorem div_two_pow_succ (n level : Nat) : n / 2 ^ (level + 1) = n / 2 ^ level / 2 := by
  rw [Nat.pow_succ, Nat.div_div_eq_div_mul]

theorem blockBase_zero (n : Nat) : blockBase n 0 = n := by
  simp [blockBase]

theorem blockBase_of_lt {n level : Nat} (hlt : n < 2 ^ level) : blockBase n level = 0 := by
  rw [blockBase, Nat.div_eq_of_lt hlt, Nat.zero_mul]

theorem blockBase_le (n level : Nat) : blockBase n level ≤ n := Nat.div_mul_le_self _ _

theorem lt_blockBase_add (n level : Nat) : n < blockBase n level + 2 ^ level :=
  Nat.lt_div_mul_add (Nat.two_pow_pos level)

/-- A block starts in the half of the next larger block that it is. -/
theorem blockBase_eq_add (n level : Nat) :
    blockBase n level = blockBase n (level + 1) + n / 2 ^ level % 2 * 2 ^ level := by
  have hquot : n / 2 ^ level = n / 2 ^ level / 2 * 2 + n / 2 ^ level % 2 := by omega
  calc n / 2 ^ level * 2 ^ level
      = (n / 2 ^ level / 2 * 2 + n / 2 ^ level % 2) * 2 ^ level := by rw [← hquot]
    _ = n / 2 ^ level / 2 * (2 ^ level * 2) + n / 2 ^ level % 2 * 2 ^ level := by
        rw [Nat.add_mul, Nat.mul_assoc, Nat.mul_comm 2 (2 ^ level)]
    _ = blockBase n (level + 1) + n / 2 ^ level % 2 * 2 ^ level := by
        rw [blockBase, div_two_pow_succ, Nat.pow_succ]

theorem blockBase_of_odd {n level : Nat} (hodd : n / 2 ^ level % 2 = 1) :
    blockBase n level = blockBase n (level + 1) + 2 ^ level := by
  rw [blockBase_eq_add, hodd, Nat.one_mul]

theorem blockBase_of_even {n level : Nat} (heven : n / 2 ^ level % 2 = 0) :
    blockBase n level = blockBase n (level + 1) := by
  rw [blockBase_eq_add, heven, Nat.zero_mul, Nat.add_zero]

/-- The blocks of the numbers below a power of two stay below it. -/
theorem blockBase_add_le {n width level : Nat} (hn : n < 2 ^ width)
    (hlevel : level ≤ width) : blockBase n level + 2 ^ level ≤ 2 ^ width := by
  have hwidth : 2 ^ (width - level) * 2 ^ level = 2 ^ width := by
    rw [← Nat.pow_add, Nat.sub_add_cancel hlevel]
  have hquot : n / 2 ^ level < 2 ^ (width - level) := by
    rwa [Nat.div_lt_iff_lt_mul (Nat.two_pow_pos level), hwidth]
  calc n / 2 ^ level * 2 ^ level + 2 ^ level
      = (n / 2 ^ level + 1) * 2 ^ level := by rw [Nat.add_mul, Nat.one_mul]
    _ ≤ 2 ^ (width - level) * 2 ^ level := Nat.mul_le_mul_right _ hquot
    _ = 2 ^ width := hwidth

/-! ## The sibling block -/

theorem siblingBase_of_odd {n level : Nat} (hodd : n / 2 ^ level % 2 = 1) :
    siblingBase n level = blockBase n (level + 1) := if_pos hodd

theorem siblingBase_of_even {n level : Nat} (heven : n / 2 ^ level % 2 = 0) :
    siblingBase n level = blockBase n (level + 1) + 2 ^ level :=
  if_neg (by omega)

/-- The quotient of the sibling differs in the last bit. -/
theorem siblingBase_div (n level : Nat) :
    siblingBase n level / 2 ^ level =
      n / 2 ^ level / 2 * 2 + (1 - n / 2 ^ level % 2) := by
  have hpos : 0 < 2 ^ level := Nat.two_pow_pos level
  have hsplit : blockBase n (level + 1) = n / 2 ^ level / 2 * 2 * 2 ^ level := by
    rw [blockBase, div_two_pow_succ, Nat.pow_succ, Nat.mul_comm (2 ^ level) 2, Nat.mul_assoc]
  rcases Nat.mod_two_eq_zero_or_one (n / 2 ^ level) with heven | hodd
  · rw [siblingBase_of_even heven, hsplit, Nat.add_div_right _ hpos,
      Nat.mul_div_cancel _ hpos, heven]
  · rw [siblingBase_of_odd hodd, hsplit, Nat.mul_div_cancel _ hpos, hodd, Nat.sub_self,
      Nat.add_zero]

/-- A number lies in the sibling block when it parts from `n` at this level. -/
theorem div_eq_siblingBase_div_iff (n level m : Nat) :
    m / 2 ^ level = siblingBase n level / 2 ^ level ↔
      m / 2 ^ (level + 1) = n / 2 ^ (level + 1) ∧ m / 2 ^ level ≠ n / 2 ^ level := by
  rw [siblingBase_div, div_two_pow_succ, div_two_pow_succ]
  omega

/-- Different numbers in one block part at some lower level. -/
theorem exists_level_of_ne {m n : Nat} (hne : m ≠ n) (width : Nat)
    (hsame : m / 2 ^ width = n / 2 ^ width) :
    ∃ level, level < width ∧ m / 2 ^ (level + 1) = n / 2 ^ (level + 1) ∧
      m / 2 ^ level ≠ n / 2 ^ level := by
  induction width with
  | zero => exact absurd (by simpa using hsame) hne
  | succ width ih =>
      by_cases hlower : m / 2 ^ width = n / 2 ^ width
      · obtain ⟨level, hlevel, hpart⟩ := ih hlower
        exact ⟨level, by omega, hpart⟩
      · exact ⟨width, by omega, hsame, hlower⟩

/-- The sibling block starts at a multiple of its length. -/
theorem two_pow_dvd_siblingBase (n level : Nat) : 2 ^ level ∣ siblingBase n level := by
  have hhalf : 2 ^ level ∣ 2 ^ (level + 1) := Nat.pow_dvd_pow 2 (Nat.le_succ level)
  have hbase : 2 ^ level ∣ blockBase n (level + 1) :=
    Nat.dvd_trans hhalf (Nat.dvd_mul_left _ _)
  rcases Nat.mod_two_eq_zero_or_one (n / 2 ^ level) with heven | hodd
  · rw [siblingBase_of_even heven]
    exact Nat.dvd_add hbase (Nat.dvd_refl _)
  · rw [siblingBase_of_odd hodd]
    exact hbase

/-- Numbers in one block are in one block at every higher level. -/
theorem div_two_pow_eq_of_le {m n level level' : Nat} (hlevel : level ≤ level')
    (hsame : m / 2 ^ level = n / 2 ^ level) : m / 2 ^ level' = n / 2 ^ level' := by
  obtain ⟨d, rfl⟩ := Nat.exists_eq_add_of_le hlevel
  rw [Nat.pow_add, ← Nat.div_div_eq_div_mul, ← Nat.div_div_eq_div_mul, hsame]

/-- Sibling blocks of different levels have no number in common. -/
theorem sibling_disjoint {n level level' : Nat} (hne : level ≠ level') (m : Nat) :
    ¬ (m / 2 ^ level = siblingBase n level / 2 ^ level ∧
      m / 2 ^ level' = siblingBase n level' / 2 ^ level') := by
  rw [div_eq_siblingBase_div_iff, div_eq_siblingBase_div_iff]
  rintro ⟨⟨hsame, hother⟩, hsame', hother'⟩
  rcases Nat.lt_or_gt_of_ne hne with hlower | hhigher
  · exact hother' (div_two_pow_eq_of_le hlower hsame)
  · exact hother (div_two_pow_eq_of_le hhigher hsame')

end Foundation
end Muon
