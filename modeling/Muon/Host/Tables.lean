import Muon.Host
import Muon.Vpn.Routes

/-!
# The tables of the host

The commands of `route` and `nat` act on the routing table and the firewall, where the two
functions are modelled by what they compute.  Here `main` runs them, one statement after
the other, between signals and coroutines.  When nobody else touches the tables they are
at every statement what those functions make of them, and that is what every coroutine
finds.

`tun_new` makes a device that is not persistent.  When `tun_close` closes its only
descriptor the kernel removes it, and with it every route that leads to it.
-/

namespace Muon
namespace Host

open Foundation Packet Utils
open Muon.Vpn (Conf ConfPath initRoutes)

/-- The routing table and the firewall. -/
structure Tables where
  routes : RouteTable
  rules : Rules

/-- `system` on the tables.  What the commands of `ifconfig` do is left open: an address
may bring a route of its own. -/
def systemTables (interface : String → Tables → Int × Tables) : Command → Tables → Int × Tables
  | .interface cmd, tables => interface cmd tables
  | .route cmd, tables =>
      let (r, routes) := Utils.system cmd tables.routes
      (r, { tables with routes := routes })
  | .nat cmd, tables =>
      let (r, rules) := systemNat cmd tables.rules
      (r, { tables with rules := rules })

/-- The runs in which nobody else acts on the machine. -/
def alone {σ : Type} (crypto : Crypto) (world : World σ) (settings : Settings)
    (start : Credentials) (machine : σ) : TransitionSystem (State σ) Main.Action where
  initial := (program crypto world settings start machine).initial
  step := fun host action host' => next crypto world settings host (.main action) = some host'

theorem alone_reachable {σ : Type} {crypto : Crypto} {world : World σ} {settings : Settings}
    {start : Credentials} {machine : σ} {host : State σ}
    (hreach : Reachable (alone crypto world settings start machine) host) :
    Reachable (program crypto world settings start machine) host :=
  hreach.map id (fun _ hinitial => hinitial) fun _ action _ hstep => Or.inr ⟨.main action, hstep⟩

variable {interface : String → Tables → Int × Tables} {ipremote : String → Option UInt32}
  {settings : Settings} {before tables : Tables}

theorem runAll_routes (cmds : List RouteAdd) (tables : Tables) :
    runAll (systemTables interface) (cmds.map .route) tables =
      ((runAll Utils.system cmds tables.routes).1,
        { tables with routes := (runAll Utils.system cmds tables.routes).2 }) :=
  runAll_map Command.route Tables.routes (fun routes tables => { tables with routes := routes })
    (fun _ _ => rfl) (fun _ => rfl) (fun _ _ _ => rfl) (fun _ _ => rfl) cmds tables

theorem runAll_rules (cmds : List NatCommand) (tables : Tables) :
    runAll (systemTables interface) (cmds.map .nat) tables =
      ((runAll systemNat cmds tables.rules).1,
        { tables with rules := (runAll systemNat cmds tables.rules).2 }) :=
  runAll_map Command.nat Tables.rules (fun rules tables => { tables with rules := rules })
    (fun _ _ => rfl) (fun _ => rfl) (fun _ _ _ => rfl) (fun _ _ => rfl) cmds tables

/-! ## What the statements leave -/

/-- The tables behind `ifconfig`. -/
def configured (interface : String → Tables → Int × Tables) (conf : Conf) (tables : Tables) :
    Tables :=
  (runAll (systemTables interface)
    ((ifconfigCommands conf.tunif conf.mtu conf.address conf.address6).map .interface) tables).2

/-- The rules when `nat` is on. -/
def rulesOn (settings : Settings) (rules : Rules) : Rules :=
  if settings.conf.mode = .server ∧ settings.nat = true ∧ settings.conf.address ≠ "" then
    (nat settings.conf.address true rules).2
  else
    rules

/-- The rules when `nat` was turned off. -/
def rulesOff (settings : Settings) (rules : Rules) : Rules :=
  if settings.conf.mode = .server ∧ settings.nat = true then
    (nat settings.conf.address false rules).2
  else
    rules

/-- Turning `nat` off changes nothing, unless its first rule is there. -/
theorem rulesOff_of_absent {rules : Rules}
    (habsent : masqueradeOff settings.conf.address ∉ rules .nat .postrouting) :
    rulesOff settings (rulesOn settings rules) = rulesOn settings rules := by
  unfold rulesOff rulesOn
  by_cases hserver : settings.conf.mode = .server ∧ settings.nat = true
  · rw [if_pos hserver]
    by_cases haddress : settings.conf.address = ""
    · -- `nat` was not turned on
      rw [if_neg fun hall => hall.2.2 haddress, nat_off_first habsent]
    · rw [if_pos ⟨hserver.1, hserver.2, haddress⟩, nat_off_of_absent _ habsent]
  · rw [if_neg hserver]

/-- The routes are those of the first paths, and the rules the given ones. -/
structure Hold (ipremote : String → Option UInt32) (conf : Conf) (first : Tables)
    (rules : Rules) (tables : Tables) : Prop where
  routes : initRoutes 65 ipremote conf first.routes = some tables.routes
  rules : tables.rules = rules

/-- No route leads to the device any more, the others are as they were, and the rules are the
given ones. -/
structure Left (conf : Conf) (first : Tables) (rules : Rules) (tables : Tables) : Prop where
  routes : tables.routes = elsewhere conf.tunif first.routes
  rules : tables.rules = rules

/-- What the tables hold when `main` has got to a statement. -/
def TablesAt (interface : String → Tables → Int × Tables) (ipremote : String → Option UInt32)
    (settings : Settings) (before : Tables) (point : Main.Point) (tables : Tables) : Prop :=
  let conf := settings.conf
  let first := configured interface conf before
  match point with
  | .clearCtx | .fillCtx | .cryptoInit | .tunNew | .ifconfig => tables = before
  | .route path =>
      Hold ipremote { conf with paths := conf.paths.take path } first first.rules tables
  | .nat => Hold ipremote conf first first.rules tables
  -- in `aborted` the assertion has failed, and the kernel has not cleaned up yet
  | .runas | .goCalls | .goSnmpLogger | .setRunning | .testRunning | .sleep | .natOff
  | .aborted => Hold ipremote conf first (rulesOn settings first.rules) tables
  | .tunClose =>
      Hold ipremote conf first (rulesOff settings (rulesOn settings first.rules)) tables
  | .exited status =>
      if status = Main.exitSuccess then
        Left conf first (rulesOff settings (rulesOn settings first.rules)) tables
      else
        tables = before

/-- `route` leaves the routes alone that do not lead to the device. -/
theorem elsewhere_initRoutes {conf : Conf} {table routes : RouteTable}
    (hroutes : initRoutes 65 ipremote conf table = some routes) :
    elsewhere conf.tunif routes = elsewhere conf.tunif table := by
  unfold initRoutes at hroutes
  split at hroutes
  · generalize conf.paths = paths at hroutes
    induction paths generalizing table with
    | nil =>
        cases hroutes
        rfl
    | cons path paths ih =>
        rw [List.foldlM_cons, route_snd ipremote _ _ _ _ (Nat.le_refl 65)] at hroutes
        exact (ih hroutes).trans (runAll_elsewhere (fun _ => dev_of_mem_routeCommands) table)
  · cases hroutes
    rfl

/-- One call of `route` more. -/
theorem initRoutes_take_succ {conf : Conf} {path : Nat} {server : ConfPath}
    (hpath : conf.paths[path]? = some server) (hclient : conf.mode = .client ∧ conf.route = true)
    {table routes : RouteTable}
    (hroutes : initRoutes 65 ipremote { conf with paths := conf.paths.take path } table =
      some routes) :
    initRoutes 65 ipremote { conf with paths := conf.paths.take (path + 1) } table =
      some (runAll Utils.system (routeCommands ipremote conf.tunif server.server
        (!conf.address.isEmpty) (!conf.address6.isEmpty)) routes).2 := by
  simp only [initRoutes, if_pos hclient] at hroutes ⊢
  rw [List.take_add_one, hpath, Option.toList_some, List.foldlM_append, hroutes]
  simp only [Option.bind_eq_bind, Option.bind_some, List.foldlM_cons, List.foldlM_nil,
    route_snd ipremote _ _ _ _ (Nat.le_refl 65)]
  rfl

/-- The calls of `route` are over. -/
theorem initRoutes_take_of_not {conf : Conf} {path : Nat}
    (hover : ¬ (conf.mode = .client ∧ conf.route = true ∧ path < conf.paths.length))
    (table : RouteTable) :
    initRoutes 65 ipremote { conf with paths := conf.paths.take path } table =
      initRoutes 65 ipremote conf table := by
  by_cases hclient : conf.mode = .client ∧ conf.route = true
  · have hlast : conf.paths.length ≤ path := by
      by_contra hmore
      exact hover ⟨hclient.1, hclient.2, Nat.lt_of_not_le hmore⟩
    rw [List.take_of_length_le hlast]
  · rw [initRoutes, initRoutes, if_neg hclient, if_neg hclient]

/-- A host whose commands act on the tables, and whose kernel removes the device. -/
def worldTables (interface : String → Tables → Int × Tables)
    (getpwnam : String → Option Passwd) (ipremote : String → Option UInt32) : World Tables where
  system := systemTables interface
  getpwnam := getpwnam
  ipremote := ipremote
  tunClose tunif tables := { tables with routes := elsewhere tunif tables.routes }

/-- The tables follow the statements of `main`. -/
theorem tablesAt_proceed {getpwnam : String → Option Passwd} {state state' : Main.State}
    {answer : Int} (htables : TablesAt interface ipremote settings before state.point tables)
    (hstep : Main.proceed settings.conf state answer = some state') :
    TablesAt interface ipremote settings before state'.point
      (closing (worldTables interface getpwnam ipremote) settings state.point
        (runAll (systemTables interface) (commandsAt settings ipremote state.point) tables).2) := by
  obtain ⟨point, running, process⟩ := state
  cases point with
  | clearCtx | fillCtx | runas | goSnmpLogger | setRunning | sleep =>
      cases hstep
      exact htables
  | cryptoInit | tunNew =>
      cases hstep
      dsimp only
      split
      · exact htables
      · exact htables
  | testRunning =>
      cases hstep
      dsimp only
      split
      · exact htables
      · exact htables
  | tunClose =>
      cases hstep
      exact ⟨elsewhere_initRoutes htables.routes, htables.rules⟩
  | ifconfig =>
      cases hstep
      cases htables
      refine ⟨?_, rfl⟩
      show initRoutes 65 ipremote { settings.conf with paths := [] } _ = _
      unfold initRoutes
      split <;> rfl
  | route path =>
      simp only [Main.proceed] at hstep
      split at hstep
      · next hmore =>
          cases hstep
          obtain ⟨hclient, hroute, hlength⟩ := hmore
          have hpath := List.getElem?_eq_getElem hlength
          simp only [commandsAt, hpath, if_pos (And.intro hclient hroute), runAll_routes]
          exact ⟨initRoutes_take_succ hpath ⟨hclient, hroute⟩ htables.routes, htables.rules⟩
      · next hover =>
          cases hstep
          have hnone : commandsAt settings ipremote (.route path) = [] := by
            simp only [commandsAt]
            split
            · rfl
            · next server hpath =>
                have hlength := (List.getElem?_eq_some_iff.mp hpath).1
                rw [if_neg fun hclient => hover ⟨hclient.1, hclient.2, hlength⟩]
          simp only [hnone]
          exact ⟨initRoutes_take_of_not hover _ ▸ htables.routes, htables.rules⟩
  | nat =>
      cases hstep
      obtain ⟨hroutes, hrules⟩ := htables
      simp only [commandsAt, TablesAt, rulesOn]
      split
      · rw [runAll_rules, ← nat_eq_runAll, hrules]
        exact ⟨hroutes, rfl⟩
      · exact ⟨hroutes, hrules⟩
  | natOff =>
      cases hstep
      obtain ⟨hroutes, hrules⟩ := htables
      simp only [commandsAt, TablesAt, rulesOff]
      split
      · rw [runAll_rules, ← nat_eq_runAll, hrules]
        exact ⟨hroutes, rfl⟩
      · exact ⟨hroutes, hrules⟩
  | goCalls =>
      simp only [Main.proceed] at hstep
      split at hstep
      · cases hstep
      · split at hstep
        · cases hstep
          exact htables
        · cases hstep
  | exited | aborted => cases hstep

section

variable {crypto : Crypto} {getpwnam : String → Option Passwd} {start : Credentials}
  {host : State Tables}

/-- A coroutine can only run while `nat` is on. -/
theorem hold_of_switches {point : Main.Point} (hswitches : Main.switches point = true)
    (htables : TablesAt interface ipremote settings before point tables) :
    Hold ipremote settings.conf (configured interface settings.conf before)
      (rulesOn settings (configured interface settings.conf before).rules) tables := by
  cases point with
  | goCalls | goSnmpLogger | setRunning | sleep => exact htables
  | _ => cases hswitches

theorem tablesAt (hreach : Reachable (alone crypto (worldTables interface getpwnam ipremote)
      settings start before) host) :
    TablesAt interface ipremote settings before host.main.point host.machine := by
  refine hreach.invariant (fun host : State Tables =>
    TablesAt interface ipremote settings before host.main.point host.machine) ?_ ?_
  · rintro host rfl
    rfl
  · intro host action host' _ htables hstep
    have hmain := next_main hstep
    cases next_effect hstep with
    | statement answer commands hbegins hcredentials hmachine hissued =>
        rw [hmachine]
        exact tablesAt_proceed htables hmain
    | quiet _ hother hsame =>
        have hmachine : host'.machine = host.machine := by rw [hsame]
        rw [hmachine]
        cases action with
        | proceed answer => exact absurd rfl (hother answer)
        | deliver signo => rwa [(Main.deliver_cases hmain).2.1]
        | coroutine event =>
            obtain ⟨process, -, habort | ⟨process', outputs, -, hpeer⟩⟩ :=
              Main.runCoroutine_cases hmain
            · rw [habort]
              exact hold_of_switches (switches_of_runCoroutine hmain) htables
            · rwa [hpeer]

/-- **The tables of a run.**  When nobody else changes the tables, every coroutine finds the
routes that `vpn_init` sets up and the rules of `nat`; a run that ends leaves none of these
routes and all others, but the rules stay, unless a rule of the host happens to be the one
that turning `nat` off deletes; and a run that fails leaves the tables as they were. -/
theorem tables_of_run (crypto : Crypto) (settings : Settings) (start : Credentials)
    (interface : String → Tables → Int × Tables) (getpwnam : String → Option Passwd)
    (ipremote : String → Option UInt32) (before : Tables)
    {steps : List (Step (State Tables) Main.Action)} {host : State Tables}
    (hrun : History (alone crypto (worldTables interface getpwnam ipremote) settings start
      before) steps host) :
    (∀ step ∈ steps, ∀ event, step.event = .coroutine event →
      Hold ipremote settings.conf (configured interface settings.conf before)
        (rulesOn settings (configured interface settings.conf before).rules)
        step.before.machine) ∧
      (host.main.point = .exited Main.exitSuccess →
        host.machine.routes = elsewhere settings.conf.tunif
            (configured interface settings.conf before).routes ∧
          (masqueradeOff settings.conf.address ∉
              (configured interface settings.conf before).rules .nat .postrouting →
            host.machine.rules =
              rulesOn settings (configured interface settings.conf before).rules)) ∧
      (host.main.point = .exited Main.exitFailure → host.machine = before) := by
  have htables := tablesAt hrun.reachable
  refine ⟨?_, ?_, ?_⟩
  · rintro ⟨host, action, host'⟩ hmem event rfl
    obtain ⟨hreach, hstep⟩ := hrun.step_of_mem hmem
    exact hold_of_switches (switches_of_runCoroutine (next_main hstep)) (tablesAt hreach)
  · intro hexited
    rw [hexited] at htables
    obtain ⟨hroutes, hrules⟩ := htables
    exact ⟨hroutes, fun habsent => hrules.trans (rulesOff_of_absent habsent)⟩
  · intro hexited
    rw [hexited] at htables
    exact htables

/-- An address brings a route to the device. -/
def interfaceRoute (_ : String) (tables : Tables) : Int × Tables :=
  (0, { tables with routes := tables.routes ++ [⟨.subnet ⟨10, 0, 1, 0, 24⟩, "vpn0"⟩] })

/-- A host with one route of its own and no rules. -/
def oneRoute : Tables := ⟨[⟨.subnet ⟨192, 0, 2, 0, 24⟩, "eth0"⟩], fun _ _ => []⟩

/-- The routes through the device of a server are gone, its masquerading rule stays behind. -/
theorem tables_of_run_natServer :
    ∃ (steps : List (Step (State Tables) Main.Action)) (host : State Tables),
      History (alone Reference.crypto (worldTables interfaceRoute twoUsers fun _ => none)
        natServer rootCredentials oneRoute) steps host ∧
      host.main.point = .exited Main.exitSuccess ∧
      host.machine.routes = [⟨.subnet ⟨192, 0, 2, 0, 24⟩, "eth0"⟩] ∧
      host.machine.rules .nat .postrouting = ["-s 10.0.1.1/24 -j MASQUERADE"] := by
  let world := worldTables interfaceRoute twoUsers fun _ => none
  let first : State Tables := ⟨Main.initialState, rootCredentials, oneRoute, []⟩
  have hends : ((run (fun host action => next Reference.crypto world natServer host (.main action))
      first natServerActions).any fun host => host.main.point == .exited Main.exitSuccess) =
      true := by
    decide +kernel
  obtain ⟨host, hrun, hpoint⟩ := (Option.any_eq_true _ _).mp hends
  have hexited := beq_iff_eq.mp hpoint
  have hinitial : (alone Reference.crypto world natServer rootCredentials oneRoute).initial
      first := rfl
  obtain ⟨steps, hhistory, -⟩ :=
    exists_history_of_run (fun _ _ _ hnext => hnext) hinitial hrun
  obtain ⟨-, hleft, -⟩ := tables_of_run Reference.crypto natServer rootCredentials
    interfaceRoute twoUsers (fun _ => none) oneRoute hhistory
  obtain ⟨hroutes, hrules⟩ := hleft hexited
  refine ⟨steps, host, hhistory, hexited, ?_, ?_⟩
  · rw [hroutes]
    decide +kernel
  · rw [hrules (by decide +kernel)]
    decide +kernel

end

end Host
end Muon
