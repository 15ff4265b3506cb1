import Mathlib.Algebra.Group.Int.Defs
import Mathlib.Algebra.Group.Nat.Defs
import Mathlib.Tactic.Common

/-!
# Shell commands and the routing table

The `shell` macro of `utils.c` returns from the enclosing function when a
command fails.  The commands of `route` are `ip route add` for one subnet or for
all of IPv6; they act on the routing table of the host, which refuses a second
entry for the same destination.
-/

namespace Muon
namespace Utils

/-- `shell(cmd)`: the status and the machine when the enclosing function
returns, the machine when it goes on. -/
def shell {κ σ : Type} (system : κ → σ → Int × σ) (cmd : κ) (machine : σ) :
    Except (Int × σ) σ :=
  let (r, machine) := system cmd machine
  if r ≠ 0 then .error (r, machine) else .ok machine

/-- A function ended by `shell` does not return 0. -/
theorem shell_error {κ σ : Type} {system : κ → σ → Int × σ} {cmd : κ} {machine : σ}
    {result : Int × σ} (hshell : shell system cmd machine = .error result) :
    result.1 ≠ 0 := by
  simp only [shell] at hshell
  split at hshell
  · next hstatus =>
      cases hshell
      exact hstatus
  · cases hshell

/-- A CIDR block as `sprintf` writes it to `subnet`: four octets and a mask. -/
structure Subnet where
  first : Nat
  second : Nat
  third : Nat
  fourth : Nat
  mask : Nat
  deriving DecidableEq, Repr

namespace Subnet

/-- `"%u.%u.%u.%u/%d"`. -/
def text : Subnet → String
  | ⟨first, second, third, fourth, mask⟩ => s!"{first}.{second}.{third}.{fourth}/{mask}"

/-- The address the octets stand for. -/
def base (subnet : Subnet) : Nat :=
  subnet.first * 2 ^ 24 + subnet.second * 2 ^ 16 + subnet.third * 2 ^ 8 + subnet.fourth

/-- The address has the prefix of the block. -/
def Contains (subnet : Subnet) (address : Nat) : Prop :=
  address / 2 ^ (32 - subnet.mask) = subnet.base / 2 ^ (32 - subnet.mask)

instance (subnet : Subnet) (address : Nat) : Decidable (subnet.Contains address) :=
  inferInstanceAs (Decidable (_ = _))

/-- The block `route` formats from a base address and a mask. -/
def ofBase (start mask : Nat) : Subnet where
  first := start >>> 24
  second := (start >>> 16) &&& 0xff
  third := (start >>> 8) &&& 0xff
  fourth := start &&& 0xff
  mask := mask

theorem base_ofBase (start mask : Nat) : (ofBase start mask).base = start := by
  have hmask : ∀ value, value &&& 0xff = value % 256 := fun value =>
    Nat.and_two_pow_sub_one_eq_mod value 8
  simp only [base, ofBase, hmask, Nat.shiftRight_eq_div_pow]
  omega

@[simp] theorem mask_ofBase (start mask : Nat) : (ofBase start mask).mask = mask := rfl

/-- The formatted text determines the base address and the mask. -/
theorem ofBase_inj {start start' mask mask' : Nat} :
    ofBase start mask = ofBase start' mask' ↔ start = start' ∧ mask = mask' := by
  constructor
  · intro heq
    have hbase := congrArg base heq
    rw [base_ofBase, base_ofBase] at hbase
    exact ⟨hbase, congrArg Subnet.mask heq⟩
  · rintro ⟨rfl, rfl⟩
    rfl

end Subnet

/-- What a route leads to. -/
inductive Destination where
  /-- An IPv4 block. -/
  | subnet (subnet : Subnet)
  /-- `::/0`. -/
  | ipv6
  deriving DecidableEq, Repr

/-- One `ip route add` command, and the entry it makes. -/
structure RouteAdd where
  destination : Destination
  dev : String
  deriving DecidableEq, Repr

/-- The string `route` passes to `system`. -/
def RouteAdd.text : RouteAdd → String
  | ⟨.subnet subnet, tunif⟩ =>
      let subnet := subnet.text
      s!"/bin/sh -c 'ip route add {subnet} dev {tunif}'"
  | ⟨.ipv6, tunif⟩ => s!"/bin/sh -c 'ip -6 route add ::/0 dev {tunif}'"

/-- The entries of the host's routing table, the oldest first. -/
abbrev RouteTable := List RouteAdd

/-- The table has an entry for the destination. -/
def RouteTable.Present (table : RouteTable) (destination : Destination) : Prop :=
  ∃ entry ∈ table, entry.destination = destination

instance (table : RouteTable) (destination : Destination) :
    Decidable (table.Present destination) :=
  inferInstanceAs (Decidable (∃ entry ∈ table, entry.destination = destination))

/-- `system` on an `ip route add` command.  A destination that has an entry is
refused: `ip` exits with 2, which `system` reports as 512. -/
def system (cmd : RouteAdd) (table : RouteTable) : Int × RouteTable :=
  if table.Present cmd.destination then (512, table) else (0, table ++ [cmd])

theorem shell_system (cmd : RouteAdd) (table : RouteTable) :
    shell system cmd table =
      if table.Present cmd.destination then .error (512, table)
      else .ok (table ++ [cmd]) := by
  unfold shell system
  by_cases hpresent : table.Present cmd.destination
  · simp [hpresent]
  · simp [hpresent]

end Utils
end Muon
