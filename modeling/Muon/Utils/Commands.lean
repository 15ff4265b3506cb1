import Mathlib.Data.Nat.Digits.Defs
import Muon.Utils.Firewall
import Muon.Utils.Splitting

/-!
# The commands of `utils.c`

`ifconfig`, `route` and `nat` each run a list of commands and stop at the first that
fails; `runAll` is that, for whatever `system` does.  On the machines of the routing table
and of the firewall it is `route` and `nat` as they are modelled there.

Every command is written with `sprintf`, which checks nothing, to an array of the
function.  The strings it is made of come from arrays of `conf_t`, and the numbers have as
many digits as their type allows, so it fits.
-/

namespace Muon
namespace Utils

open Foundation

/-! ## Lists of commands -/

section

variable {κ σ : Type}

/-- Commands one after the other, up to the first that fails. -/
def runAll (system : κ → σ → Int × σ) : List κ → σ → Int × σ
  | [], machine => (0, machine)
  | cmd :: cmds, machine =>
      match shell system cmd machine with
      | .error result => result
      | .ok machine => runAll system cmds machine

/-- `system` that keeps a record of the commands. -/
def traced (system : κ → σ → Int × σ) (cmd : κ) : σ × List κ → Int × σ × List κ
  | (machine, record) =>
      let (r, machine) := system cmd machine
      (r, machine, record ++ [cmd])

/-- What is recorded is the list of commands, up to some point; the machine does not
depend on it. -/
theorem runAll_traced (system : κ → σ → Int × σ) (cmds record : List κ) (machine : σ) :
    ∃ issued, issued <+: cmds ∧
      runAll (traced system) cmds (machine, record) =
        ((runAll system cmds machine).1, (runAll system cmds machine).2, record ++ issued) := by
  induction cmds generalizing machine record with
  | nil => exact ⟨[], List.prefix_refl [], by rw [List.append_nil]; rfl⟩
  | cons cmd cmds ih =>
      simp only [runAll, shell, traced]
      by_cases hstatus : (system cmd machine).1 = 0
      · obtain ⟨issued, hbegins, hrun⟩ := ih (record ++ [cmd]) (system cmd machine).2
        refine ⟨cmd :: issued, (List.prefix_cons_inj cmd).mpr hbegins, ?_⟩
        simp only [hstatus, ne_eq, not_true_eq_false, if_false]
        rw [hrun, List.append_assoc]
        rfl
      · refine ⟨[cmd], (List.prefix_cons_inj cmd).mpr List.nil_prefix, ?_⟩
        simp only [hstatus, ne_eq, not_false_eq_true, if_true]

/-- Commands that act on a part of a machine only. -/
theorem runAll_map {κ' σ' : Type} {system : κ → σ → Int × σ} {system' : κ' → σ' → Int × σ'}
    (command : κ → κ') (get : σ' → σ) (put : σ → σ' → σ')
    (hget : ∀ part machine, get (put part machine) = part)
    (hput : ∀ machine, put (get machine) machine = machine)
    (htwice : ∀ part part' machine, put part (put part' machine) = put part machine)
    (hsystem : ∀ cmd machine, system' (command cmd) machine =
      ((system cmd (get machine)).1, put (system cmd (get machine)).2 machine))
    (cmds : List κ) (machine : σ') :
    runAll system' (cmds.map command) machine =
      ((runAll system cmds (get machine)).1, put (runAll system cmds (get machine)).2 machine) := by
  induction cmds generalizing machine with
  | nil => exact Prod.ext rfl (hput machine).symm
  | cons cmd cmds ih =>
      simp only [List.map_cons, runAll, shell, hsystem]
      by_cases hstatus : (system cmd (get machine)).1 = 0
      · simp only [hstatus, ne_eq, not_true_eq_false, if_false]
        rw [ih, hget, htwice]
      · simp only [hstatus, ne_eq, not_false_eq_true, if_true]

end

/-! ## nat -/

theorem shellAll_eq_runAll (cmds : List NatCommand) (rules : Rules) :
    shellAll cmds rules = runAll systemNat cmds rules := by
  induction cmds generalizing rules with
  | nil => rfl
  | cons cmd cmds ih =>
      simp only [shellAll, runAll]
      cases shell systemNat cmd rules with
      | error result => rfl
      | ok rules => exact ih rules

/-- `nat` runs its commands. -/
theorem nat_eq_runAll (address : String) (on : Bool) (rules : Rules) :
    nat address on rules = runAll systemNat (natCommands address on) rules :=
  shellAll_eq_runAll _ rules

/-! ## route -/

/-- The commands of `route(tunif, server, ipv4, ipv6)`; it has none when `ipremote`
fails. -/
def routeCommands (ipremote : String → Option UInt32) (tunif server : String)
    (ipv4 ipv6 : Bool) : List RouteAdd :=
  let last : List RouteAdd := if ipv6 then [⟨.ipv6, tunif⟩] else []
  if ipv4 then
    match ipremote server with
    | none => []
    | some ip => (splitting ip.toNat).map (fun subnet => ⟨.subnet subnet, tunif⟩) ++ last
  else
    last

theorem runAll_installAll (tunif : String) (subnets : List Subnet) (last : List RouteAdd)
    (table : RouteTable) :
    runAll Utils.system (subnets.map (fun subnet => ⟨.subnet subnet, tunif⟩) ++ last) table =
      match installAll tunif subnets table with
      | .error result => result
      | .ok table => runAll Utils.system last table := by
  induction subnets generalizing table with
  | nil => rfl
  | cons subnet subnets ih =>
      simp only [List.map_cons, List.cons_append, runAll, installAll]
      cases shell Utils.system ⟨.subnet subnet, tunif⟩ table with
      | error result => rfl
      | ok table => exact ih table

theorem routeIpv6_eq_runAll (tunif : String) (ipv6 : Bool) (table : RouteTable) :
    routeIpv6 tunif ipv6 table =
      runAll Utils.system (if ipv6 then [⟨.ipv6, tunif⟩] else []) table := by
  unfold routeIpv6
  cases ipv6 with
  | false => rfl
  | true =>
      simp only [if_pos, runAll]
      cases shell Utils.system ⟨.ipv6, tunif⟩ table <;> rfl

/-- The loops of `route` run its commands, unless `ipremote` fails. -/
theorem route_eq_runAll (ipremote : String → Option UInt32) (tunif server : String)
    (ipv4 ipv6 : Bool) {fuel : Nat} (hfuel : 65 ≤ fuel) (table : RouteTable) :
    route fuel ipremote tunif server ipv4 ipv6 table =
      some (if ipv4 = true ∧ ipremote server = none then (-1, table)
        else runAll Utils.system (routeCommands ipremote tunif server ipv4 ipv6) table) := by
  unfold route routeCommands
  cases ipv4 with
  | false =>
      simp only [Bool.false_eq_true, if_false, false_and]
      rw [routeIpv6_eq_runAll]
  | true =>
      cases ipremote server with
      | none => simp
      | some ip =>
          simp only [if_true, reduceCtorEq, and_false, if_false]
          rw [routeAround_eq tunif ip.toNat_lt hfuel, runAll_installAll]
          cases installAll tunif (splitting ip.toNat) table with
          | error result => rfl
          | ok table => exact congrArg some (routeIpv6_eq_runAll tunif ipv6 table)

/-- What `route` leaves in the table is what its commands leave. -/
theorem route_snd (ipremote : String → Option UInt32) (tunif server : String)
    (ipv4 ipv6 : Bool) {fuel : Nat} (hfuel : 65 ≤ fuel) (table : RouteTable) :
    (route fuel ipremote tunif server ipv4 ipv6 table).map Prod.snd =
      some (runAll Utils.system (routeCommands ipremote tunif server ipv4 ipv6) table).2 := by
  rw [route_eq_runAll ipremote tunif server ipv4 ipv6 hfuel, Option.map_some]
  split
  · next hfails =>
      obtain ⟨rfl, hnone⟩ := hfails
      simp only [routeCommands, hnone, if_true]
      rfl
  · rfl

/-- The routes that do not lead to a device. -/
def elsewhere (tunif : String) (table : RouteTable) : RouteTable :=
  table.filter fun entry => entry.dev ≠ tunif

/-- All routes of `route` lead to the TUN device. -/
theorem dev_of_mem_routeCommands {ipremote : String → Option UInt32} {tunif server : String}
    {ipv4 ipv6 : Bool} {cmd : RouteAdd}
    (hmem : cmd ∈ routeCommands ipremote tunif server ipv4 ipv6) : cmd.dev = tunif := by
  have hlast : ∀ cmd ∈ (if ipv6 then [(⟨.ipv6, tunif⟩ : RouteAdd)] else []), cmd.dev = tunif := by
    intro cmd hmem
    split at hmem
    · rw [List.mem_singleton.mp hmem]
    · cases hmem
  unfold routeCommands at hmem
  dsimp only at hmem
  split at hmem
  · split at hmem
    · cases hmem
    · rcases List.mem_append.mp hmem with hsubnet | hipv6
      · obtain ⟨subnet, -, rfl⟩ := List.mem_map.mp hsubnet
        rfl
      · exact hlast cmd hipv6
  · exact hlast cmd hmem

/-- The other routes stay. -/
theorem runAll_elsewhere {tunif : String} {cmds : List RouteAdd}
    (hdev : ∀ cmd ∈ cmds, cmd.dev = tunif) (table : RouteTable) :
    elsewhere tunif (runAll Utils.system cmds table).2 = elsewhere tunif table := by
  induction cmds generalizing table with
  | nil => rfl
  | cons cmd cmds ih =>
      obtain ⟨hcmd, hcmds⟩ := List.forall_mem_cons.mp hdev
      simp only [runAll, shell_system]
      by_cases hpresent : table.Present cmd.destination
      · rw [if_pos hpresent]
      · rw [if_neg hpresent]
        dsimp only
        rw [ih hcmds, elsewhere, List.filter_append,
          List.filter_cons_of_neg (by simp [hcmd]), List.filter_nil, List.append_nil, elsewhere]

/-! ## The arrays -/

/-- A command of `utils.c`. -/
inductive Command where
  /-- One of `ifconfig`. -/
  | interface (cmd : String)
  | route (cmd : RouteAdd)
  | nat (cmd : NatCommand)
  deriving DecidableEq

namespace Command

/-- The string that is passed to `system`. -/
def text : Command → String
  | .interface cmd => cmd
  | .route cmd => cmd.text
  | .nat cmd => cmd.text

/-- `sizeof(cmd)`. -/
def room : Command → Nat
  | .interface _ | .route _ => 256
  | .nat _ => 200

/-- What `route` has written to `char subnet[32]` before. -/
def subnet : Command → Option Subnet
  | .route ⟨.subnet subnet, _⟩ => some subnet
  | _ => none

/-- Nothing is written behind the ends of the arrays. -/
structure Fits (command : Command) : Prop where
  cmd : command.text.length < command.room
  subnet : ∀ subnet ∈ command.subnet, subnet.text.length < 32

end Command

/-- The commands of `ifconfig(tunif, mtu, address, address6)`. -/
def ifconfigCommands (tunif : String) (mtu : Int) (address address6 : String) : List String :=
  [s!"/bin/sh -c 'ip link set {tunif} up'", s!"/bin/sh -c 'ip link set {tunif} mtu {mtu}'"] ++
    (if address = "" then [] else [s!"/bin/sh -c 'ip addr add {address} dev {tunif}'"]) ++
    if address6 = "" then [] else [s!"/bin/sh -c 'ip -6 addr add {address6} dev {tunif}'"]

/-- The strings that commands are made of, as the arrays of `conf_t` hold them. -/
structure ArgumentsFit (tunif address address6 : String) : Prop where
  tunif : tunif.length ≤ 15
  address : address.length ≤ 19
  address6 : address6.length ≤ 63

/-- The length of a text with one argument. -/
theorem length_interpolated (first x last : String) :
    (first ++ x ++ last).length = first.length + x.length + last.length := by
  rw [String.length_append, String.length_append]

/-- The length of a text with two arguments. -/
theorem length_interpolated_two (first x middle y last : String) :
    (first ++ x ++ middle ++ y ++ last).length =
      first.length + x.length + middle.length + y.length + last.length := by
  rw [length_interpolated, length_interpolated]

/-! ## Every command fits -/

/-- An octet and a prefix length have three digits at most. -/
theorem length_toString_le {n : Nat} (hn : n < 1000) : (toString n).length ≤ 3 :=
  Nat.repr_length n 3 (by decide) hn

theorem length_text_le {subnet : Subnet} (hfirst : subnet.first < 256)
    (hsecond : subnet.second < 256) (hthird : subnet.third < 256)
    (hfourth : subnet.fourth < 256) (hmask : subnet.mask ≤ 32) : subnet.text.length ≤ 19 := by
  obtain ⟨first, second, third, fourth, mask⟩ := subnet
  have hlength : (Subnet.text ⟨first, second, third, fourth, mask⟩).length =
      (toString first).length + ".".length + (toString second).length + ".".length +
        (toString third).length + ".".length + (toString fourth).length + "/".length +
        (toString mask).length := by
    show (toString first ++ "." ++ toString second ++ "." ++ toString third ++ "." ++
      toString fourth ++ "/" ++ toString mask).length = _
    simp only [String.length_append]
  have h1 := length_toString_le (show first < 1000 by simp only at hfirst; omega)
  have h2 := length_toString_le (show second < 1000 by simp only at hsecond; omega)
  have h3 := length_toString_le (show third < 1000 by simp only at hthird; omega)
  have h4 := length_toString_le (show fourth < 1000 by simp only at hfourth; omega)
  have h5 := length_toString_le (show mask < 1000 by simp only at hmask; omega)
  have hdot : ".".length = 1 := by decide
  have hslash : "/".length = 1 := by decide
  omega

theorem ifconfigCommands_fit {tunif address address6 : String} {mtu : Int}
    (harguments : ArgumentsFit tunif address address6) (hmtu : 0 ≤ mtu ∧ mtu < 10 ^ 10) :
    ∀ cmd ∈ ifconfigCommands tunif mtu address address6, (Command.interface cmd).Fits := by
  obtain ⟨htunif, haddress, haddress6⟩ := harguments
  have hquote : "'".length = 1 := by decide
  have hup := length_interpolated "/bin/sh -c 'ip link set " tunif " up'"
  have hset := length_interpolated_two "/bin/sh -c 'ip link set " tunif " mtu " (toString mtu) "'"
  have hadd := length_interpolated_two "/bin/sh -c 'ip addr add " address " dev " tunif "'"
  have hadd6 := length_interpolated_two "/bin/sh -c 'ip -6 addr add " address6 " dev " tunif "'"
  have hdigits : (toString mtu).length ≤ 10 := by
    obtain ⟨n, rfl⟩ := Int.eq_ofNat_of_zero_le hmtu.1
    exact Nat.repr_length n 10 (by decide) (by omega)
  rw [show "/bin/sh -c 'ip link set ".length = 24 by decide] at hup hset
  rw [show " up'".length = 4 by decide] at hup
  rw [show " mtu ".length = 5 by decide, hquote] at hset
  rw [show "/bin/sh -c 'ip addr add ".length = 24 by decide, show " dev ".length = 5 by decide,
    hquote] at hadd
  rw [show "/bin/sh -c 'ip -6 addr add ".length = 27 by decide, show " dev ".length = 5 by decide,
    hquote] at hadd6
  intro cmd hcmd
  refine ⟨?_, nofun⟩
  show cmd.length < 256
  rcases List.mem_append.mp hcmd with hfirst | hlast
  · rcases List.mem_append.mp hfirst with hlink | haddr
    · rcases List.mem_cons.mp hlink with rfl | hlink
      · exact lt_of_eq_of_lt hup (by omega)
      · cases List.mem_singleton.mp hlink
        exact lt_of_eq_of_lt hset (by omega)
    · split at haddr
      · cases haddr
      · cases List.mem_singleton.mp haddr
        exact lt_of_eq_of_lt hadd (by omega)
  · split at hlast
    · cases hlast
    · cases List.mem_singleton.mp hlast
      exact lt_of_eq_of_lt hadd6 (by omega)

/-- A block of the splitting, as it is written. -/
theorem fits_subnet {tunif : String} (htunif : tunif.length ≤ 15) {ip : Nat} (hip : ip < 2 ^ 32)
    {subnet : Subnet} (hsubnet : subnet ∈ splitting ip) :
    (Command.route ⟨.subnet subnet, tunif⟩).Fits := by
  have hsplits := splitsAround_splitting hip
  obtain ⟨hfirst, hsecond, hthird, hfourth⟩ := hsplits.octets subnet hsubnet
  have hmask : subnet.mask ∈ List.range' 1 32 :=
    hsplits.masks.subset (List.mem_map_of_mem hsubnet)
  rw [List.mem_range'_1] at hmask
  have htext := length_text_le hfirst hsecond hthird hfourth (by omega)
  have hadd := length_interpolated_two "/bin/sh -c 'ip route add " subnet.text " dev " tunif "'"
  rw [show "/bin/sh -c 'ip route add ".length = 25 by decide,
    show " dev ".length = 5 by decide, show "'".length = 1 by decide] at hadd
  constructor
  · show _ < 256
    exact lt_of_eq_of_lt hadd (by omega)
  · intro written hwritten
    cases Option.mem_some.mp hwritten
    omega

theorem fits_ipv6 {tunif : String} (htunif : tunif.length ≤ 15) :
    (Command.route ⟨.ipv6, tunif⟩).Fits := by
  have hadd := length_interpolated "/bin/sh -c 'ip -6 route add ::/0 dev " tunif "'"
  rw [show "/bin/sh -c 'ip -6 route add ::/0 dev ".length = 37 by decide,
    show "'".length = 1 by decide] at hadd
  constructor
  · show _ < 256
    exact lt_of_eq_of_lt hadd (by omega)
  · intro written hwritten
    cases hwritten

theorem routeCommands_fit {tunif : String} (htunif : tunif.length ≤ 15)
    (ipremote : String → Option UInt32) (server : String) (ipv4 ipv6 : Bool) :
    ∀ cmd ∈ routeCommands ipremote tunif server ipv4 ipv6, (Command.route cmd).Fits := by
  have hlast : ∀ cmd ∈ if ipv6 = true then [(⟨.ipv6, tunif⟩ : RouteAdd)] else [],
      (Command.route cmd).Fits := by
    intro cmd hmem
    split at hmem
    · cases List.mem_singleton.mp hmem
      exact fits_ipv6 htunif
    · cases hmem
  intro cmd hmem
  simp only [routeCommands] at hmem
  split at hmem
  · split at hmem
    · cases hmem
    · next ip _ =>
        rcases List.mem_append.mp hmem with hblock | hipv6
        · obtain ⟨subnet, hsubnet, rfl⟩ := List.mem_map.mp hblock
          exact fits_subnet htunif ip.toNat_lt hsubnet
        · exact hlast cmd hipv6
  · exact hlast cmd hmem

/-- The length of an `iptables` command on a built-in chain. -/
theorem length_text_iptables_le (table : Table) (action : ChainAction) {chain : Chain}
    (hchain : (NatCommand.chainText chain).length ≤ 11) (rule : String) :
    (NatCommand.text (.iptables table action chain rule)).length ≤ 49 + rule.length := by
  have htable : (NatCommand.tableText table).length ≤ 12 := by cases table <;> decide
  have haction : (NatCommand.actionText action).length ≤ 2 := by cases action <;> decide
  have hlength : ∀ start table action gap chain gap' last : String,
      (start ++ table ++ action ++ gap ++ chain ++ gap' ++ rule ++ last).length =
        start.length + table.length + action.length + gap.length + chain.length + gap'.length +
          rule.length + last.length := by
    intro start table action gap chain gap' last
    simp only [String.length_append]
  have htext := hlength "/bin/sh -c 'iptables " (NatCommand.tableText table)
    (NatCommand.actionText action) " " (NatCommand.chainText chain) " " "'"
  rw [show "/bin/sh -c 'iptables ".length = 21 by decide, show " ".length = 1 by decide,
    show "'".length = 1 by decide] at htext
  exact le_of_eq_of_le htext (by omega)

theorem length_text_ipForward : (NatCommand.text .ipForward).length = 55 := by
  unfold NatCommand.text
  rw [← String.length_toList]
  simp only [String.reduceToList, List.length_cons, List.length_nil]

/-- The text behind the address of a `TCPMSS` rule. -/
theorem length_clamp : (" -p tcp -m tcp --tcp-flags SYN,RST SYN -j TCPMSS --clamp-mss-to-pmtu" :
    String).length = 68 := by
  rw [← String.length_toList]
  simp only [String.reduceToList, List.length_cons, List.length_nil]

/-- An `iptables` command on a built-in chain fits when its rule does. -/
theorem fits_iptables (table : Table) (action : ChainAction) {chain : Chain}
    (hchain : (NatCommand.chainText chain).length ≤ 11) {rule : String}
    (hrule : rule.length ≤ 100) : (Command.nat (.iptables table action chain rule)).Fits := by
  constructor
  · show _ < 200
    exact lt_of_le_of_lt (length_text_iptables_le table action hchain rule) (by omega)
  · intro written hwritten
    cases hwritten

theorem natCommands_fit {address : String} (haddress : address.length ≤ 19) (on : Bool) :
    ∀ cmd ∈ natCommands address on, (Command.nat cmd).Fits := by
  have hforward : (NatCommand.chainText .forward).length ≤ 11 := by decide
  have hpostrouting : (NatCommand.chainText .postrouting).length ≤ 11 := by decide
  have hrule : ∀ first last : String, first.length = 3 → last.length ≤ 68 →
      (first ++ address ++ last).length ≤ 100 := by
    intro first last hfirst hlast
    rw [length_interpolated]
    omega
  have hs : "-s ".length = 3 := by decide
  have hd : "-d ".length = 3 := by decide
  have haccept : " -j ACCEPT".length ≤ 68 := by decide
  have hmasquerade : " -j MASQUERADE".length ≤ 68 := by decide
  have hclamp := Nat.le_of_eq length_clamp
  have hforwards : ∀ action, ∀ cmd ∈ [
      NatCommand.iptables .filter action .forward s!"-s {address} -j ACCEPT",
      .iptables .filter action .forward s!"-d {address} -j ACCEPT",
      .iptables .mangle action .forward
        s!"-s {address} -p tcp -m tcp --tcp-flags SYN,RST SYN -j TCPMSS --clamp-mss-to-pmtu",
      .iptables .mangle action .forward
        s!"-d {address} -p tcp -m tcp --tcp-flags SYN,RST SYN -j TCPMSS --clamp-mss-to-pmtu"],
      (Command.nat cmd).Fits := by
    intro action
    refine List.forall_mem_cons.mpr ⟨?_, List.forall_mem_cons.mpr ⟨?_,
      List.forall_mem_cons.mpr ⟨?_, List.forall_mem_singleton.mpr ?_⟩⟩⟩
    · exact fits_iptables .filter action hforward (hrule _ _ hs haccept)
    · exact fits_iptables .filter action hforward (hrule _ _ hd haccept)
    · exact fits_iptables .mangle action hforward (hrule _ _ hs hclamp)
    · exact fits_iptables .mangle action hforward (hrule _ _ hd hclamp)
  unfold natCommands
  split
  · refine List.forall_mem_cons.mpr ⟨⟨?_, nofun⟩, List.forall_mem_cons.mpr ⟨?_, hforwards .append⟩⟩
    · exact length_text_ipForward ▸ (by decide : 55 < 200)
    · exact fits_iptables .nat .append hpostrouting (hrule _ _ hs hmasquerade)
  · refine List.forall_mem_cons.mpr ⟨?_, hforwards .delete⟩
    apply fits_iptables .nat .delete hpostrouting
    have hlength := length_interpolated_two "-s " address " ! -d " address " -j MASQUERADE"
    rw [hs, show " ! -d ".length = 6 by decide, show " -j MASQUERADE".length = 14 by decide]
      at hlength
    exact le_of_eq_of_le hlength (by omega)

end Utils
end Muon
