import Muon.Foundation.Dyadic
import Muon.Foundation.Loop
import Muon.Foundation.MachineInteger
import Muon.Utils.Shell

/-!
# Splitting the address space around a server

`route` of `utils.c` (Linux).  Two loops run through the prefix lengths: the
first adds the blocks below the server's address, the second those above it.
What they add is `splitting`: for every level the sibling of the block the
address lies in, the lower siblings before the upper ones.  The first command
that fails ends the function.
-/

namespace Muon
namespace Utils

open Foundation

/-- `1U << shift`. -/
def oneShl (shift : Nat) : Nat := 2 ^ shift

/-- The state of a loop of `route`: `start` or `ip_end`, `mask`, and the routing
table the commands act on. -/
structure Walk where
  bound : Nat
  mask : Nat
  table : RouteTable

/-- One iteration of the loop over the blocks below the server. -/
def walkBelow (tunif : String) (ip : Nat) (walk : Walk) :
    Iteration (Int × RouteTable) Walk :=
  let ⟨start, mask, table⟩ := walk
  if mask ≤ 32 then
    if toUInt64 ((start : Int) + oneShl (32 - mask) - 1) < ip then
      let subnet := Subnet.ofBase start mask
      let start := toUInt32 ((start : Int) + oneShl (32 - mask))
      match shell system ⟨.subnet subnet, tunif⟩ table with
      | .error result => .leave result
      | .ok table => .next ⟨start, mask, table⟩
    else
      .next ⟨start, mask + 1, table⟩
  else
    .exit

/-- One iteration of the loop over the blocks above the server. -/
def walkAbove (tunif : String) (ip : Nat) (walk : Walk) :
    Iteration (Int × RouteTable) Walk :=
  let ⟨ipEnd, mask, table⟩ := walk
  if mask ≤ 32 then
    if toUInt64 ((ipEnd : Int) - oneShl (32 - mask) + 1) > ip then
      let ipEnd := toUInt32 ((ipEnd : Int) - oneShl (32 - mask))
      let subnet := Subnet.ofBase (toUInt32 ((ipEnd : Int) + 1)) mask
      match shell system ⟨.subnet subnet, tunif⟩ table with
      | .error result => .leave result
      | .ok table => .next ⟨ipEnd, mask, table⟩
    else
      .next ⟨ipEnd, mask + 1, table⟩
  else
    .exit

/-- The loops of `route` for a resolved address. -/
def routeAround (fuel : Nat) (tunif : String) (ip : Nat) (table : RouteTable) :
    Option (Except (Int × RouteTable) RouteTable) :=
  match whileLoop (walkBelow tunif ip) fuel ⟨0, 1, table⟩ with
  | none => none
  | some (.error result) => some (.error result)
  | some (.ok walk) =>
      match whileLoop (walkAbove tunif ip) fuel ⟨2 ^ 32 - 1, 1, walk.table⟩ with
      | none => none
      | some (.error result) => some (.error result)
      | some (.ok walk) => some (.ok walk.table)

/-- The IPv6 command at the end of `route`. -/
def routeIpv6 (tunif : String) (ipv6 : Bool) (table : RouteTable) : Int × RouteTable :=
  if ipv6 then
    match shell system ⟨.ipv6, tunif⟩ table with
    | .error result => result
    | .ok table => (0, table)
  else
    (0, table)

/-- `route(tunif, server, ipv4, ipv6)`: the status and the routing table.
`ipremote` gives the IPv4 address of a server in host order, or sets `errno`. -/
def route (fuel : Nat) (ipremote : String → Option UInt32) (tunif server : String)
    (ipv4 ipv6 : Bool) (table : RouteTable) : Option (Int × RouteTable) :=
  let around : Option (Except (Int × RouteTable) RouteTable) :=
    if ipv4 then
      match ipremote server with
      | none => some (.error (-1, table))
      | some ip => routeAround fuel tunif ip.toNat table
    else
      some (.ok table)
  match around with
  | none => none
  | some (.error result) => some result
  | some (.ok table) => some (routeIpv6 tunif ipv6 table)

/-! ## The blocks the loops add -/

/-- The siblings on one side of the address at the levels below `level`, the
largest first: those below the address have parity 1, those above it 0. -/
def sideBlocks (ip parity : Nat) : Nat → List Subnet
  | 0 => []
  | level + 1 =>
      if ip / 2 ^ level % 2 = parity then
        Subnet.ofBase (siblingBase ip level) (32 - level) :: sideBlocks ip parity level
      else
        sideBlocks ip parity level

/-- The blocks `route` adds around an address, in its order. -/
def splitting (ip : Nat) : List Subnet := sideBlocks ip 1 32 ++ sideBlocks ip 0 32

/-- Add blocks one after the other until one is refused. -/
def installAll (tunif : String) : List Subnet → RouteTable →
    Except (Int × RouteTable) RouteTable
  | [], table => .ok table
  | subnet :: subnets, table =>
      match shell system ⟨.subnet subnet, tunif⟩ table with
      | .error result => .error result
      | .ok table => installAll tunif subnets table

theorem installAll_append (tunif : String) (first second : List Subnet)
    (table : RouteTable) :
    installAll tunif (first ++ second) table =
      match installAll tunif first table with
      | .error result => .error result
      | .ok table => installAll tunif second table := by
  induction first generalizing table with
  | nil => rfl
  | cons subnet first ih =>
      simp only [List.cons_append, installAll]
      cases shell system ⟨.subnet subnet, tunif⟩ table with
      | error result => rfl
      | ok table => exact ih table

theorem mem_sideBlocks {ip parity level : Nat} {subnet : Subnet} :
    subnet ∈ sideBlocks ip parity level ↔
      ∃ k, k < level ∧ ip / 2 ^ k % 2 = parity ∧
        subnet = Subnet.ofBase (siblingBase ip k) (32 - k) := by
  induction level with
  | zero => simp [sideBlocks]
  | succ level ih =>
      have hsplit : (∃ k, k < level + 1 ∧ ip / 2 ^ k % 2 = parity ∧
            subnet = Subnet.ofBase (siblingBase ip k) (32 - k)) ↔
          (ip / 2 ^ level % 2 = parity ∧
            subnet = Subnet.ofBase (siblingBase ip level) (32 - level)) ∨
          ∃ k, k < level ∧ ip / 2 ^ k % 2 = parity ∧
            subnet = Subnet.ofBase (siblingBase ip k) (32 - k) := by
        constructor
        · rintro ⟨k, hk, hblock⟩
          rcases Nat.lt_succ_iff_lt_or_eq.mp hk with hlower | rfl
          · exact Or.inr ⟨k, hlower, hblock⟩
          · exact Or.inl hblock
        · rintro (hblock | ⟨k, hk, hblock⟩)
          · exact ⟨level, Nat.lt_succ_self level, hblock⟩
          · exact ⟨k, Nat.lt_succ_of_lt hk, hblock⟩
      rw [hsplit, ← ih, sideBlocks]
      split
      · next hparity => rw [List.mem_cons, and_iff_right hparity]
      · next hparity => simp [hparity]

theorem mem_splitting {ip : Nat} {subnet : Subnet} :
    subnet ∈ splitting ip ↔
      ∃ k, k < 32 ∧ subnet = Subnet.ofBase (siblingBase ip k) (32 - k) := by
  rw [splitting, List.mem_append, mem_sideBlocks, mem_sideBlocks]
  constructor
  · rintro (⟨k, hk, -, hblock⟩ | ⟨k, hk, -, hblock⟩)
    · exact ⟨k, hk, hblock⟩
    · exact ⟨k, hk, hblock⟩
  · rintro ⟨k, hk, hblock⟩
    rcases Nat.mod_two_eq_zero_or_one (ip / 2 ^ k) with heven | hodd
    · exact Or.inr ⟨k, hk, heven, hblock⟩
    · exact Or.inl ⟨k, hk, hodd, hblock⟩

/-- No block of the splitting contains the address. -/
theorem not_contains_of_mem_splitting {ip : Nat} {subnet : Subnet}
    (hmem : subnet ∈ splitting ip) : ¬ subnet.Contains ip := by
  obtain ⟨k, hk, rfl⟩ := mem_splitting.mp hmem
  have hlevel : 32 - (32 - k) = k := by omega
  simp only [Subnet.Contains, Subnet.base_ofBase, Subnet.mask_ofBase, hlevel]
  exact fun hcontains => ((div_eq_siblingBase_div_iff ip k ip).mp hcontains).2 rfl

/-- Every other address lies in one. -/
theorem exists_mem_splitting_contains {ip other : Nat} (hip : ip < 2 ^ 32)
    (hother : other < 2 ^ 32) (hne : other ≠ ip) :
    ∃ subnet ∈ splitting ip, subnet.Contains other := by
  have hsame : other / 2 ^ 32 = ip / 2 ^ 32 := by
    rw [Nat.div_eq_of_lt hip, Nat.div_eq_of_lt hother]
  obtain ⟨k, hk, hpart⟩ := exists_level_of_ne hne 32 hsame
  have hlevel : 32 - (32 - k) = k := by omega
  refine ⟨_, mem_splitting.mpr ⟨k, hk, rfl⟩, ?_⟩
  simp only [Subnet.Contains, Subnet.base_ofBase, Subnet.mask_ofBase, hlevel]
  exact (div_eq_siblingBase_div_iff ip k other).mpr hpart

theorem nodup_sideBlocks (ip parity : Nat) {level : Nat} (hlevel : level ≤ 32) :
    (sideBlocks ip parity level).Nodup := by
  induction level with
  | zero => exact List.nodup_nil
  | succ level ih =>
      rw [sideBlocks]
      split
      · refine List.nodup_cons.mpr ⟨fun hmem => ?_, ih (by omega)⟩
        obtain ⟨k, hk, -, heq⟩ := mem_sideBlocks.mp hmem
        obtain ⟨-, hmask⟩ := Subnet.ofBase_inj.mp heq
        omega
      · exact ih (by omega)

/-- The blocks of the splitting have different prefix lengths. -/
theorem nodup_splitting (ip : Nat) : (splitting ip).Nodup := by
  refine List.nodup_append.mpr ⟨nodup_sideBlocks ip 1 (Nat.le_refl 32),
    nodup_sideBlocks ip 0 (Nat.le_refl 32), fun subnet hbelow subnet' habove heq => ?_⟩
  obtain ⟨k, hk, hodd, rfl⟩ := mem_sideBlocks.mp hbelow
  obtain ⟨k', hk', heven, rfl⟩ := mem_sideBlocks.mp habove
  obtain ⟨-, hmask⟩ := Subnet.ofBase_inj.mp heq
  have hlevel : k = k' := by omega
  subst hlevel
  omega

/-! ## Adding blocks -/

/-- The routing table when adding blocks ends. -/
def tableAfter : Except (Int × RouteTable) RouteTable → RouteTable
  | .error (_, table) => table
  | .ok table => table

/-- Adding blocks appends entries for some of them. -/
theorem tableAfter_installAll (tunif : String) (subnets : List Subnet)
    (table : RouteTable) :
    ∃ added, tableAfter (installAll tunif subnets table) = table ++ added ∧
      ∀ entry ∈ added, ∃ subnet ∈ subnets, entry.destination = .subnet subnet := by
  induction subnets generalizing table with
  | nil => exact ⟨[], (List.append_nil table).symm, by simp⟩
  | cons subnet subnets ih =>
      rw [installAll, shell_system]
      by_cases hpresent : table.Present (.subnet subnet)
      · rw [if_pos hpresent]
        exact ⟨[], (List.append_nil table).symm, by simp⟩
      · rw [if_neg hpresent]
        obtain ⟨added, hadded, hfrom⟩ := ih (table ++ [⟨.subnet subnet, tunif⟩])
        refine ⟨⟨.subnet subnet, tunif⟩ :: added, ?_, ?_⟩
        · simpa using hadded
        · intro entry hentry
          rcases List.mem_cons.mp hentry with rfl | hentry
          · exact ⟨subnet, List.mem_cons_self, rfl⟩
          · obtain ⟨other, hother, hdestination⟩ := hfrom entry hentry
            exact ⟨other, List.mem_cons_of_mem _ hother, hdestination⟩

/-- Different blocks without an entry are all added. -/
theorem installAll_fresh (tunif : String) {subnets : List Subnet} {table : RouteTable}
    (hnodup : subnets.Nodup)
    (hfresh : ∀ subnet ∈ subnets, ¬ table.Present (.subnet subnet)) :
    installAll tunif subnets table =
      .ok (table ++ subnets.map fun subnet => ⟨.subnet subnet, tunif⟩) := by
  induction subnets generalizing table with
  | nil => simp [installAll]
  | cons subnet subnets ih =>
      obtain ⟨hnotMem, hnodup⟩ := List.nodup_cons.mp hnodup
      rw [installAll, shell_system, if_neg (hfresh subnet List.mem_cons_self)]
      dsimp only
      rw [ih hnodup]
      · simp
      · rintro other hother ⟨entry, hentry, hdestination⟩
        rcases List.mem_append.mp hentry with hold | hnew
        · exact hfresh other (List.mem_cons_of_mem _ hother) ⟨entry, hold, hdestination⟩
        · rw [List.mem_singleton.mp hnew] at hdestination
          cases hdestination
          exact hnotMem hother

/-! ## The loops add these blocks -/

/-- The largest block of a level is half the address space. -/
private theorem two_pow_le_half {k : Nat} (hk : k < 32) : 2 ^ k ≤ 2 ^ 31 :=
  Nat.pow_le_pow_right (by omega) (by omega)

/-- At an odd level the loop below the address adds the sibling. -/
theorem walkBelow_odd (tunif : String) {ip k : Nat} (table : RouteTable)
    (hip : ip < 2 ^ 32) (hk : k < 32) (hodd : ip / 2 ^ k % 2 = 1) :
    walkBelow tunif ip ⟨blockBase ip (k + 1), 32 - k, table⟩ =
      match shell system
          ⟨.subnet (Subnet.ofBase (siblingBase ip k) (32 - k)), tunif⟩ table with
      | .error result => .leave result
      | .ok table => .next ⟨blockBase ip k, 32 - k, table⟩ := by
  have hpow := two_pow_le_half hk
  have hpos := Nat.two_pow_pos k
  have hle := blockBase_le ip k
  have hbase := blockBase_of_odd hodd
  have hlevel : 32 - (32 - k) = k := by omega
  have htest : toUInt64 ((blockBase ip (k + 1) : Int) + (2 ^ k : Nat) - 1) < ip := by
    rw [toUInt64_of_nonneg (by omega) (by omega)]
    omega
  have hnext : toUInt32 ((blockBase ip (k + 1) : Int) + (2 ^ k : Nat)) =
      blockBase ip k := by
    rw [hbase]
    exact toUInt32_natCast (by omega)
  simp only [walkBelow, oneShl, hlevel]
  rw [if_pos (by omega), if_pos htest, hnext, siblingBase_of_odd hodd]

/-- Then it goes on to the next level, as it does at once at an even level. -/
theorem walkBelow_skip (tunif : String) {ip k : Nat} (table : RouteTable)
    (hip : ip < 2 ^ 32) (hk : k < 32) :
    walkBelow tunif ip ⟨blockBase ip k, 32 - k, table⟩ =
      .next ⟨blockBase ip k, 33 - k, table⟩ := by
  have hpow := two_pow_le_half hk
  have hpos := Nat.two_pow_pos k
  have hle := blockBase_le ip k
  have hlt := lt_blockBase_add ip k
  have hlevel : 32 - (32 - k) = k := by omega
  have hmask : 32 - k + 1 = 33 - k := by omega
  have htest : ¬ toUInt64 ((blockBase ip k : Int) + (2 ^ k : Nat) - 1) < ip := by
    rw [toUInt64_of_nonneg (by omega) (by omega)]
    omega
  simp only [walkBelow, oneShl, hlevel]
  rw [if_pos (by omega), if_neg htest, hmask]

/-- At an even level the loop above the address adds the sibling. -/
theorem walkAbove_even (tunif : String) {ip k : Nat} (table : RouteTable)
    (hip : ip < 2 ^ 32) (hk : k < 32) (heven : ip / 2 ^ k % 2 = 0) :
    walkAbove tunif ip ⟨blockBase ip (k + 1) + 2 ^ (k + 1) - 1, 32 - k, table⟩ =
      match shell system
          ⟨.subnet (Subnet.ofBase (siblingBase ip k) (32 - k)), tunif⟩ table with
      | .error result => .leave result
      | .ok table => .next ⟨blockBase ip k + 2 ^ k - 1, 32 - k, table⟩ := by
  have hpow := two_pow_le_half hk
  have hpos := Nat.two_pow_pos k
  have hle := blockBase_le ip k
  have hlt := lt_blockBase_add ip k
  have hbase := blockBase_of_even heven
  have hdouble : 2 ^ (k + 1) = 2 ^ k + 2 ^ k := by rw [Nat.pow_succ, Nat.mul_two]
  have hlevel : 32 - (32 - k) = k := by omega
  have htop := blockBase_add_le hip (show k + 1 ≤ 32 by omega)
  have htest : toUInt64 (((blockBase ip (k + 1) + 2 ^ (k + 1) - 1 : Nat) : Int) -
      (2 ^ k : Nat) + 1) > ip := by
    rw [toUInt64_of_nonneg (by omega) (by omega)]
    omega
  have hnext : toUInt32 (((blockBase ip (k + 1) + 2 ^ (k + 1) - 1 : Nat) : Int) -
      (2 ^ k : Nat)) = blockBase ip k + 2 ^ k - 1 := by
    unfold toUInt32
    omega
  have hsubnet : toUInt32 (((blockBase ip k + 2 ^ k - 1 : Nat) : Int) + 1) =
      siblingBase ip k := by
    rw [siblingBase_of_even heven]
    unfold toUInt32
    omega
  simp only [walkAbove, oneShl, hlevel]
  rw [if_pos (by omega), if_pos htest, hnext, hsubnet]

/-- Then it goes on to the next level, as it does at once at an odd level. -/
theorem walkAbove_skip (tunif : String) {ip k : Nat} (table : RouteTable)
    (hip : ip < 2 ^ 32) (hk : k < 32) :
    walkAbove tunif ip ⟨blockBase ip k + 2 ^ k - 1, 32 - k, table⟩ =
      .next ⟨blockBase ip k + 2 ^ k - 1, 33 - k, table⟩ := by
  have hpow := two_pow_le_half hk
  have hpos := Nat.two_pow_pos k
  have hle := blockBase_le ip k
  have hlevel : 32 - (32 - k) = k := by omega
  have hmask : 32 - k + 1 = 33 - k := by omega
  have htest : ¬ toUInt64 (((blockBase ip k + 2 ^ k - 1 : Nat) : Int) -
      (2 ^ k : Nat) + 1) > ip := by
    rw [toUInt64_of_nonneg (by omega) (by omega)]
    omega
  simp only [walkAbove, oneShl, hlevel]
  rw [if_pos (by omega), if_neg htest, hmask]

/-- An iteration that adds a block: the loop goes on unless the command fails. -/
theorem whileLoop_add {iterate : Walk → Iteration (Int × RouteTable) Walk} {walk : Walk}
    {cmd : RouteAdd} {table : RouteTable} {after : RouteTable → Walk}
    (hadd : iterate walk = match shell system cmd table with
      | .error result => .leave result
      | .ok table => .next (after table)) (fuel : Nat) :
    whileLoop iterate (fuel + 1) walk = match shell system cmd table with
      | .error result => some (.error result)
      | .ok table => whileLoop iterate fuel (after table) := by
  cases hshell : shell system cmd table with
  | error result =>
      rw [hshell] at hadd
      exact whileLoop_leave hadd fuel
  | ok table =>
      rw [hshell] at hadd
      exact whileLoop_next hadd fuel

/-- The loop below the address, from any level on: it ends, and does what adding
the lower siblings does. -/
theorem whileLoop_walkBelow (tunif : String) {ip : Nat} (hip : ip < 2 ^ 32) {level : Nat}
    (hlevel : level ≤ 32) {fuel : Nat} (hfuel : 2 * level < fuel) (table : RouteTable) :
    whileLoop (walkBelow tunif ip) fuel ⟨blockBase ip level, 33 - level, table⟩ =
      match installAll tunif (sideBlocks ip 1 level) table with
      | .error result => some (.error result)
      | .ok table => some (.ok ⟨ip, 33, table⟩) := by
  -- One level takes one iteration to add its block, if any, and one to go on.
  induction level generalizing fuel table with
  | zero =>
      obtain ⟨fuel, rfl⟩ : ∃ rest, fuel = rest + 1 := ⟨fuel - 1, by omega⟩
      rw [blockBase_zero, whileLoop_exit rfl]
      rfl
  | succ k ih =>
      obtain ⟨fuel, rfl⟩ : ∃ rest, fuel = rest + 2 := ⟨fuel - 2, by omega⟩
      have hmask : 33 - (k + 1) = 32 - k := by omega
      rw [hmask, sideBlocks]
      rcases Nat.mod_two_eq_zero_or_one (ip / 2 ^ k) with heven | hodd
      · rw [if_neg (by omega), ← blockBase_of_even heven,
          whileLoop_next (walkBelow_skip tunif table hip (by omega))]
        exact ih (by omega) (by omega) table
      · rw [if_pos hodd, installAll,
          whileLoop_add (walkBelow_odd tunif table hip (by omega) hodd)]
        cases shell system
            ⟨.subnet (Subnet.ofBase (siblingBase ip k) (32 - k)), tunif⟩ table with
        | error result => rfl
        | ok table =>
            dsimp only
            rw [whileLoop_next (walkBelow_skip tunif table hip (by omega))]
            exact ih (by omega) (by omega) table

/-- The loop above the address, in the same way. -/
theorem whileLoop_walkAbove (tunif : String) {ip : Nat} (hip : ip < 2 ^ 32) {level : Nat}
    (hlevel : level ≤ 32) {fuel : Nat} (hfuel : 2 * level < fuel) (table : RouteTable) :
    whileLoop (walkAbove tunif ip) fuel
        ⟨blockBase ip level + 2 ^ level - 1, 33 - level, table⟩ =
      match installAll tunif (sideBlocks ip 0 level) table with
      | .error result => some (.error result)
      | .ok table => some (.ok ⟨ip, 33, table⟩) := by
  induction level generalizing fuel table with
  | zero =>
      obtain ⟨fuel, rfl⟩ : ∃ rest, fuel = rest + 1 := ⟨fuel - 1, by omega⟩
      rw [blockBase_zero, whileLoop_exit rfl]
      rfl
  | succ k ih =>
      obtain ⟨fuel, rfl⟩ : ∃ rest, fuel = rest + 2 := ⟨fuel - 2, by omega⟩
      have hmask : 33 - (k + 1) = 32 - k := by omega
      rw [hmask, sideBlocks]
      rcases Nat.mod_two_eq_zero_or_one (ip / 2 ^ k) with heven | hodd
      · rw [if_pos heven, installAll,
          whileLoop_add (walkAbove_even tunif table hip (by omega) heven)]
        cases shell system
            ⟨.subnet (Subnet.ofBase (siblingBase ip k) (32 - k)), tunif⟩ table with
        | error result => rfl
        | ok table =>
            dsimp only
            rw [whileLoop_next (walkAbove_skip tunif table hip (by omega))]
            exact ih (by omega) (by omega) table
      · have hend : blockBase ip (k + 1) + 2 ^ (k + 1) - 1 =
            blockBase ip k + 2 ^ k - 1 := by
          rw [blockBase_of_odd hodd, Nat.pow_succ]
          omega
        rw [if_neg (by omega), hend,
          whileLoop_next (walkAbove_skip tunif table hip (by omega))]
        exact ih (by omega) (by omega) table

/-- **What `route` does for one address.**  Both loops end within 65 iterations,
and together they add the splitting of the address until a block is refused. -/
theorem routeAround_eq (tunif : String) {ip : Nat} (hip : ip < 2 ^ 32) {fuel : Nat}
    (hfuel : 65 ≤ fuel) (table : RouteTable) :
    routeAround fuel tunif ip table = some (installAll tunif (splitting ip) table) := by
  have hbelow := whileLoop_walkBelow tunif hip (Nat.le_refl 32)
    (show 2 * 32 < fuel by omega) table
  rw [blockBase_of_lt hip] at hbelow
  unfold routeAround splitting
  rw [installAll_append, show (1 : Nat) = 33 - 32 from rfl, hbelow]
  cases installAll tunif (sideBlocks ip 1 32) table with
  | error result => rfl
  | ok table =>
      have habove := whileLoop_walkAbove tunif hip (Nat.le_refl 32)
        (show 2 * 32 < fuel by omega) table
      rw [blockBase_of_lt hip, Nat.zero_add] at habove
      dsimp only
      rw [habove]
      cases installAll tunif (sideBlocks ip 0 32) table with
      | error result => rfl
      | ok table => rfl

/-- The entries one call of `route` may add. -/
def RouteEntry (ipremote : String → Option UInt32) (server : String) (ipv4 : Bool)
    (destination : Destination) : Prop :=
  destination = .ipv6 ∨
    ∃ ip subnet, ipv4 = true ∧ ipremote server = some ip ∧
      subnet ∈ splitting ip.toNat ∧ destination = .subnet subnet

theorem routeIpv6_appends (tunif : String) (ipv6 : Bool) (table : RouteTable) :
    ∃ status added, routeIpv6 tunif ipv6 table = (status, table ++ added) ∧
      ∀ entry ∈ added, entry.destination = .ipv6 := by
  unfold routeIpv6
  split
  · rw [shell_system]
    by_cases hpresent : table.Present .ipv6
    · rw [if_pos hpresent]
      exact ⟨512, [], by simp, by simp⟩
    · rw [if_neg hpresent]
      exact ⟨0, [⟨.ipv6, tunif⟩], rfl, by simp⟩
  · exact ⟨0, [], by simp, by simp⟩

/-- `route` returns, and appends entries of its own splitting only. -/
theorem route_appends (ipremote : String → Option UInt32) (tunif server : String)
    (ipv4 ipv6 : Bool) {fuel : Nat} (hfuel : 65 ≤ fuel) (table : RouteTable) :
    ∃ status added, route fuel ipremote tunif server ipv4 ipv6 table =
        some (status, table ++ added) ∧
      ∀ entry ∈ added, RouteEntry ipremote server ipv4 entry.destination := by
  have hlast : ∀ added : RouteTable,
      (∀ entry ∈ added, RouteEntry ipremote server ipv4 entry.destination) →
      ∃ status added', some (routeIpv6 tunif ipv6 (table ++ added)) =
          some (status, table ++ added') ∧
        ∀ entry ∈ added', RouteEntry ipremote server ipv4 entry.destination := by
    intro added hadded
    obtain ⟨status, last, hrun, hlast⟩ := routeIpv6_appends tunif ipv6 (table ++ added)
    refine ⟨status, added ++ last, by rw [hrun, List.append_assoc], fun entry hentry => ?_⟩
    rcases List.mem_append.mp hentry with hold | hnew
    · exact hadded entry hold
    · exact Or.inl (hlast entry hnew)
  unfold route
  cases ipv4 with
  | false => simpa using hlast [] (by simp)
  | true =>
      cases hresolve : ipremote server with
      | none => exact ⟨-1, [], by simp, by simp⟩
      | some ip =>
          obtain ⟨added, hadded, hfrom⟩ :=
            tableAfter_installAll tunif (splitting ip.toNat) table
          have hentries : ∀ entry ∈ added,
              RouteEntry ipremote server true entry.destination := by
            intro entry hentry
            obtain ⟨subnet, hsubnet, hdestination⟩ := hfrom entry hentry
            exact Or.inr ⟨ip, subnet, rfl, hresolve, hsubnet, hdestination⟩
          simp only [if_true, routeAround_eq tunif ip.toNat_lt hfuel]
          cases hinstall : installAll tunif (splitting ip.toNat) table with
          | error result =>
              obtain ⟨status, after⟩ := result
              rw [hinstall] at hadded
              cases hadded
              exact ⟨status, added, rfl, hentries⟩
          | ok after =>
              rw [hinstall] at hadded
              cases hadded
              exact hlast added hentries

/-- On a table with none of its blocks, `route` adds the whole splitting. -/
theorem route_fresh (ipremote : String → Option UInt32) (tunif : String)
    {server : String} {ip : UInt32} (hresolve : ipremote server = some ip) (ipv6 : Bool)
    {fuel : Nat} (hfuel : 65 ≤ fuel) {table : RouteTable}
    (hfresh : ∀ subnet ∈ splitting ip.toNat, ¬ table.Present (.subnet subnet)) :
    ∃ status added, route fuel ipremote tunif server true ipv6 table =
        some (status, table ++ added) ∧
      ∀ subnet ∈ splitting ip.toNat, (⟨.subnet subnet, tunif⟩ : RouteAdd) ∈ added := by
  obtain ⟨status, last, hrun, -⟩ := routeIpv6_appends tunif ipv6
    (table ++ (splitting ip.toNat).map fun subnet => ⟨.subnet subnet, tunif⟩)
  refine ⟨status, (splitting ip.toNat).map (fun subnet => ⟨.subnet subnet, tunif⟩) ++ last,
    ?_, fun subnet hsubnet =>
      List.mem_append_left _ (List.mem_map.mpr ⟨subnet, hsubnet, rfl⟩)⟩
  simp only [route, if_true, hresolve, routeAround_eq tunif ip.toNat_lt hfuel,
    installAll_fresh tunif (nodup_splitting ip.toNat) hfresh, hrun, List.append_assoc]

end Utils
end Muon
