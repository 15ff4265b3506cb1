import Muon.Conf.Complete
import Muon.Main
import Muon.Utils.Commands
import Muon.Utils.Privileges
import Muon.Vpn.PortRange

/-!
# What `main` does to the host

`ifconfig`, `route` and `nat` run shell commands, and `runas` changes the credentials of
the process.  For the way `main` goes on they do not matter: a status other than 0 is only
logged.  Here they are carried out with the statements of `main` that call them.  The host
is any machine that commands act on, and others may change it at any time.

The commands need the privileges of root.  The packets of the tunnel are handled without
them when a user is configured: between the two calls of `runas` only coroutines run.
-/

namespace Muon
namespace Host

open Foundation Packet Utils
open Muon.Conf (ConfT parseArgs)
open Muon.Vpn (Conf stringOf confOf)

/-- The configuration, with the fields that only the calls of the host need. -/
structure Settings where
  conf : Conf
  user : String
  nat : Bool

/-- What the process finds outside: the shell, which acts on a machine, the password
database, the addresses of names, and the kernel. -/
structure World (σ : Type) where
  system : Command → σ → Int × σ
  getpwnam : String → Option Passwd
  ipremote : String → Option UInt32
  /-- What the kernel does to the machine when the TUN device of this name is closed. -/
  tunClose : String → σ → σ

/-- A command that was given to `system`, and who ran it. -/
structure Issued where
  command : Command
  credentials : Credentials

/-- The process, the machine and what the process has done to it. -/
structure State (σ : Type) where
  main : Main.State
  credentials : Credentials
  machine : σ
  /-- The commands, the first one first. -/
  issued : List Issued

/-- What happens in the process, or on the machine behind its back. -/
inductive Event (σ : Type) where
  | main (action : Main.Action)
  | outside (machine : σ)

variable {σ : Type}

/-! ## The calls -/

/-- Commands of one function, up to the first that fails. -/
def issue (world : World σ) (commands : List Command) (host : State σ) : State σ :=
  let (_, machine, issued) := runAll (traced world.system) commands (host.machine, [])
  { host with
    machine := machine
    issued := host.issued ++ issued.map fun command => ⟨command, host.credentials⟩ }

/-- The user that the next statement of `main` passes to `runas`, if it does. -/
def userAt (settings : Settings) : Main.Point → Option String
  | .runas => if settings.user ≠ "" then some settings.user else none
  | .natOff =>
      if settings.conf.mode = .server ∧ settings.nat = true ∧ settings.user ≠ "" then
        some "root"
      else
        none
  | _ => none

/-- The commands of the next statement of `main`. -/
def commandsAt (settings : Settings) (ipremote : String → Option UInt32) (point : Main.Point) :
    List Command :=
  let conf := settings.conf
  match point with
  | .ifconfig =>
      (ifconfigCommands conf.tunif conf.mtu conf.address conf.address6).map .interface
  | .route path =>
      match conf.paths[path]? with
      | none => []
      | some server =>
          if conf.mode = .client ∧ conf.route = true then
            (routeCommands ipremote conf.tunif server.server (!conf.address.isEmpty)
              (!conf.address6.isEmpty)).map .route
          else
            []
  | .nat =>
      if conf.mode = .server ∧ settings.nat = true ∧ conf.address ≠ "" then
        (natCommands conf.address true).map .nat
      else
        []
  | .natOff =>
      -- unlike the call that turns it on, this one does not ask for an address
      if conf.mode = .server ∧ settings.nat = true then
        (natCommands conf.address false).map .nat
      else
        []
  | _ => []

/-- The credentials after `runas` in the next statement of `main`, if it calls it; an error
is only logged. -/
def afterCall (getpwnam : String → Option Passwd) (settings : Settings) (point : Main.Point)
    (credentials : Credentials) : Credentials :=
  match userAt settings point with
  | none => credentials
  | some user => (runas getpwnam user credentials).2

/-- What the kernel does to the machine in the next statement of `main`. -/
def closing (world : World σ) (settings : Settings) (point : Main.Point) (machine : σ) : σ :=
  match point with
  | .tunClose => world.tunClose settings.conf.tunif machine
  | _ => machine

/-- What the next statement of `main` does to the host. -/
def execute (world : World σ) (settings : Settings) (host : State σ) : State σ :=
  let point := host.main.point
  let host := issue world (commandsAt settings world.ipremote point)
    { host with credentials := afterCall world.getpwnam settings point host.credentials }
  { host with machine := closing world settings point host.machine }

/-- One step of the process, or of somebody else. -/
def next (crypto : Crypto) (world : World σ) (settings : Settings) (host : State σ)
    (event : Event σ) : Option (State σ) :=
  match event with
  | .outside machine => some { host with machine := machine }
  | .main action =>
      match Main.next crypto settings.conf host.main action with
      | none => none
      | some main =>
          match action with
          | .proceed _ => some { execute world settings host with main := main }
          | .deliver _ | .coroutine _ => some { host with main := main }

/-- The runs of `main` on a machine, started with the given credentials. -/
def program (crypto : Crypto) (world : World σ) (settings : Settings) (start : Credentials)
    (machine : σ) : TransitionSystem (State σ) (Event σ) where
  initial := fun host => host = ⟨Main.initialState, start, machine, []⟩
  step := fun host event host' => next crypto world settings host event = some host'

variable {crypto : Crypto} {world : World σ} {settings : Settings} {start : Credentials}
  {machine : σ} {host host' : State σ} {action : Main.Action} {event : Event σ}

/-- The steps of `main` on a host are steps of `main`. -/
theorem next_main (hstep : next crypto world settings host (.main action) = some host') :
    Main.next crypto settings.conf host.main action = some host'.main := by
  simp only [next] at hstep
  split at hstep
  · cases hstep
  · next main hmain =>
      rw [hmain]
      split at hstep <;> cases hstep <;> rfl

/-- Every state of the process on a host is one of `main`. -/
theorem main_reachable (hreach : Reachable (program crypto world settings start machine) host) :
    Reachable (Main.program crypto settings.conf) host.main := by
  refine hreach.map State.main ?_ ?_
  · rintro host rfl
    rfl
  · intro host event host' hstep
    cases event with
    | main action => exact Or.inr ⟨action, next_main hstep⟩
    | outside machine =>
        cases hstep
        exact Or.inl rfl

/-- No step of `main` waits for the host. -/
theorem exists_next {main : Main.State}
    (hmain : Main.next crypto settings.conf host.main action = some main) :
    ∃ host', next crypto world settings host (.main action) = some host' ∧
      host'.main = main := by
  simp only [next, hmain]
  cases action with
  | proceed answer => exact ⟨_, rfl, rfl⟩
  | deliver signo => exact ⟨_, rfl, rfl⟩
  | coroutine event => exact ⟨_, rfl, rfl⟩

/-! ## What a step does -/

/-- What a statement does to the machine is what its commands and the kernel do, with the
credentials the process has then; the record gets the commands, up to some point. -/
theorem execute_spec (world : World σ) (settings : Settings) (host : State σ) :
    ∃ commands, commands <+: commandsAt settings world.ipremote host.main.point ∧
      execute world settings host =
        { main := host.main
          credentials := afterCall world.getpwnam settings host.main.point host.credentials
          machine := closing world settings host.main.point (runAll world.system
            (commandsAt settings world.ipremote host.main.point) host.machine).2
          issued := host.issued ++ commands.map fun command =>
            ⟨command, afterCall world.getpwnam settings host.main.point host.credentials⟩ } := by
  obtain ⟨commands, hbegins, hrun⟩ := runAll_traced world.system
    (commandsAt settings world.ipremote host.main.point) [] host.machine
  refine ⟨commands, hbegins, ?_⟩
  simp only [execute, issue, hrun, List.nil_append]

/-- What a step does to the host: nothing, or what the statement does, or anything at all
to the machine. -/
inductive Effect (world : World σ) (settings : Settings) (host host' : State σ) :
    Event σ → Prop where
  | quiet (action : Main.Action) : (∀ answer, action ≠ .proceed answer) →
      host' = { host with main := host'.main } → Effect world settings host host' (.main action)
  | statement (answer : Int) (commands : List Command) :
      commands <+: commandsAt settings world.ipremote host.main.point →
      host'.credentials = afterCall world.getpwnam settings host.main.point host.credentials →
      host'.machine = closing world settings host.main.point (runAll world.system
        (commandsAt settings world.ipremote host.main.point) host.machine).2 →
      host'.issued = host.issued ++ commands.map (fun command => ⟨command, host'.credentials⟩) →
      Effect world settings host host' (.main (.proceed answer))
  | outside (machine : σ) : host' = { host with machine := machine } →
      Effect world settings host host' (.outside machine)

theorem next_effect (hstep : next crypto world settings host event = some host') :
    Effect world settings host host' event := by
  cases event with
  | outside machine =>
      cases hstep
      exact .outside machine rfl
  | main action =>
      simp only [next] at hstep
      split at hstep
      · cases hstep
      · cases action with
        | proceed answer =>
            obtain ⟨commands, hbegins, hexecute⟩ := execute_spec world settings host
            simp only [hexecute] at hstep
            cases hstep
            exact .statement answer commands hbegins rfl rfl rfl
        | deliver signo =>
            cases hstep
            exact .quiet _ nofun rfl
        | coroutine event =>
            cases hstep
            exact .quiet _ nofun rfl

/-! ## Privileges -/

variable {getpwnam : String → Option Passwd}

/-- A process that was started by root. -/
structure AsRoot (credentials : Credentials) : Prop where
  user : credentials.user = ⟨0, 0, 0⟩
  group : credentials.group = ⟨0, 0, 0⟩

/-- Who handles the packets: the configured user, when there is one that is known. -/
def workerCredentials (getpwnam : String → Option Passwd) (settings : Settings)
    (start : Credentials) : Credentials :=
  if settings.user = "" then start else actingFor getpwnam settings.user start

/-- The credentials in the end: a server takes those of root back to turn `nat` off. -/
def finalCredentials (getpwnam : String → Option Passwd) (settings : Settings)
    (start : Credentials) : Credentials :=
  if settings.conf.mode = .server ∧ settings.nat = true then start
  else workerCredentials getpwnam settings start

/-- The credentials of the process when it has got to a statement. -/
def credentialsAt (getpwnam : String → Option Passwd) (settings : Settings)
    (start : Credentials) : Main.Point → Credentials
  | .clearCtx | .fillCtx | .cryptoInit | .tunNew | .ifconfig | .route _ | .nat | .runas => start
  | .goCalls | .goSnmpLogger | .setRunning | .testRunning | .sleep | .natOff | .aborted =>
      workerCredentials getpwnam settings start
  | .tunClose => finalCredentials getpwnam settings start
  | .exited status =>
      if status = Main.exitSuccess then finalCredentials getpwnam settings start else start

/-- `runas` changes nothing but the effective ids. -/
theorem exists_act_workerCredentials (getpwnam : String → Option Passwd) (settings : Settings)
    (start : Credentials) :
    ∃ uid gid, workerCredentials getpwnam settings start = start.act uid gid := by
  have hsame : start = start.act start.user.effective start.group.effective :=
    (Credentials.act_self start).symm
  unfold workerCredentials actingFor
  split
  · exact ⟨_, _, hsame⟩
  · cases getpwnam settings.user with
    | none => exact ⟨_, _, hsame⟩
    | some entry => exact ⟨entry.uid, entry.gid, rfl⟩

theorem exists_act_credentialsAt (getpwnam : String → Option Passwd) (settings : Settings)
    (start : Credentials) (point : Main.Point) :
    ∃ uid gid, credentialsAt getpwnam settings start point = start.act uid gid := by
  have hstart : ∃ uid gid, start = start.act uid gid :=
    ⟨_, _, (Credentials.act_self start).symm⟩
  have hworker := exists_act_workerCredentials getpwnam settings start
  have hfinal : ∃ uid gid, finalCredentials getpwnam settings start = start.act uid gid := by
    unfold finalCredentials
    split
    · exact hstart
    · exact hworker
  cases point with
  | exited status =>
      simp only [credentialsAt]
      split
      · exact hfinal
      · exact hstart
  | tunClose => exact hfinal
  | clearCtx | fillCtx | cryptoInit | tunNew | ifconfig | route | nat | runas => exact hstart
  | goCalls | goSnmpLogger | setRunning | testRunning | sleep | natOff | aborted => exact hworker

/-- Whatever root has become, it can take its ids back. -/
theorem runas_root (hroot : AsRoot start) (hentry : getpwnam "root" = some ⟨0, 0⟩)
    (uid gid : Nat) : (runas getpwnam "root" (start.act uid gid)).2 = start := by
  have hgroup : (start.act uid gid).group.Has 0 := Or.inl (congrArg Ids.real hroot.group).symm
  have huser : (start.act uid gid).user.Has 0 := Or.inl (congrArg Ids.real hroot.user).symm
  rw [runas_of_has hentry hgroup huser, Credentials.act_act]
  obtain ⟨user, group, groups⟩ := start
  obtain ⟨rfl, rfl⟩ := hroot
  rfl

/-- The statement that drops the privileges. -/
theorem afterCall_runas (hroot : AsRoot start) :
    afterCall getpwnam settings .runas start = workerCredentials getpwnam settings start := by
  have hprivileged : start.Privileged := congrArg Ids.effective hroot.user
  unfold afterCall workerCredentials userAt
  by_cases huser : settings.user = ""
  · simp [huser]
  · simp [huser, runas_of_privileged hprivileged]

/-- The statement that turns `nat` off takes them back. -/
theorem afterCall_natOff (hroot : AsRoot start) (hentry : getpwnam "root" = some ⟨0, 0⟩) :
    afterCall getpwnam settings .natOff (workerCredentials getpwnam settings start) =
      finalCredentials getpwnam settings start := by
  obtain ⟨uid, gid, hact⟩ := exists_act_workerCredentials getpwnam settings start
  unfold afterCall finalCredentials userAt
  by_cases hserver : settings.conf.mode = .server ∧ settings.nat = true
  · by_cases huser : settings.user = ""
    · simp [hserver, huser, workerCredentials]
    · simp only [hserver, huser, ne_eq, not_false_eq_true, and_self, if_true]
      rw [hact]
      exact runas_root hroot hentry uid gid
  · have hnone : ¬ (settings.conf.mode = .server ∧ settings.nat = true ∧ settings.user ≠ "") :=
      fun hall => hserver ⟨hall.1, hall.2.1⟩
    rw [if_neg hserver, if_neg hnone]

/-- The credentials follow the statements of `main`. -/
theorem afterCall_proceed (hroot : AsRoot start) (hentry : getpwnam "root" = some ⟨0, 0⟩)
    {state state' : Main.State} {answer : Int}
    (hstep : Main.proceed settings.conf state answer = some state') :
    afterCall getpwnam settings state.point (credentialsAt getpwnam settings start state.point) =
      credentialsAt getpwnam settings start state'.point := by
  obtain ⟨point, running, process⟩ := state
  cases point with
  | runas =>
      cases hstep
      exact afterCall_runas hroot
  | natOff =>
      cases hstep
      exact afterCall_natOff hroot hentry
  | exited | aborted => cases hstep
  | clearCtx | fillCtx | ifconfig | nat | goSnmpLogger | setRunning | sleep | tunClose =>
      cases hstep
      rfl
  | cryptoInit | tunNew | testRunning =>
      cases hstep
      dsimp only
      split <;> rfl
  | route path =>
      simp only [Main.proceed] at hstep
      split at hstep <;> cases hstep <;> rfl
  | goCalls =>
      simp only [Main.proceed] at hstep
      split at hstep
      · cases hstep
      · split at hstep
        · cases hstep
          rfl
        · cases hstep

/-- A statement with commands has the credentials of root. -/
theorem afterCall_of_commands (hroot : AsRoot start) (hentry : getpwnam "root" = some ⟨0, 0⟩)
    {ipremote : String → Option UInt32} {point : Main.Point} {command : Command}
    (hcommand : command ∈ commandsAt settings ipremote point) :
    afterCall getpwnam settings point (credentialsAt getpwnam settings start point) = start := by
  cases point with
  | ifconfig | route | nat => rfl
  | natOff =>
      have hserver : settings.conf.mode = .server ∧ settings.nat = true := by
        by_contra hnot
        simp only [commandsAt, if_neg hnot] at hcommand
        cases hcommand
      exact (afterCall_natOff hroot hentry).trans (if_pos hserver)
  | _ => cases hcommand

/-- Coroutines run between the two calls of `runas`. -/
theorem switches_of_runCoroutine {main main' : Main.State} {event : Vpn.Event}
    (hstep : Main.runCoroutine crypto main event = some main') :
    Main.switches main.point = true := by
  simp only [Main.runCoroutine] at hstep
  split at hstep
  · cases hstep
  · split at hstep
    · next hswitches => exact hswitches
    · cases hstep

theorem credentialsAt_of_switches {point : Main.Point} (hswitches : Main.switches point = true) :
    credentialsAt getpwnam settings start point = workerCredentials getpwnam settings start := by
  cases point <;> first | rfl | cases hswitches

/-- The process has the credentials of its statement, and every command had those of
root. -/
structure Separated (getpwnam : String → Option Passwd) (settings : Settings)
    (start : Credentials) (host : State σ) : Prop where
  credentials : host.credentials = credentialsAt getpwnam settings start host.main.point
  issued : ∀ issued ∈ host.issued, issued.credentials = start

/-- One step keeps the privileges separated. -/
theorem Separated.next (hroot : AsRoot start) (hentry : world.getpwnam "root" = some ⟨0, 0⟩)
    (hseparated : Separated world.getpwnam settings start host)
    (hstep : next crypto world settings host event = some host') :
    Separated world.getpwnam settings start host' := by
  cases next_effect hstep with
  | outside machine hchanged =>
      rw [hchanged]
      exact ⟨hseparated.credentials, hseparated.issued⟩
  | quiet action hother hsame =>
      have hmain := next_main hstep
      have hpoint : credentialsAt world.getpwnam settings start host'.main.point =
          credentialsAt world.getpwnam settings start host.main.point := by
        cases action with
        | proceed answer => exact absurd rfl (hother answer)
        | deliver signo => rw [(Main.deliver_cases hmain).2.1]
        | coroutine event =>
            obtain ⟨process, -, habort | ⟨process', outputs, -, hpeer⟩⟩ :=
              Main.runCoroutine_cases hmain
            · rw [habort, credentialsAt_of_switches (switches_of_runCoroutine hmain)]
              rfl
            · rw [hpeer]
      constructor
      · rw [hpoint, ← hseparated.credentials, hsame]
      · rw [hsame]
        exact hseparated.issued
  | statement answer commands hbegins hcredentials hmachine hissued =>
      rw [hseparated.credentials] at hcredentials
      constructor
      · rw [hcredentials]
        exact afterCall_proceed hroot hentry (next_main hstep)
      · intro issued hmem
        rw [hissued] at hmem
        rcases List.mem_append.mp hmem with hold | hnew
        · exact hseparated.issued issued hold
        · obtain ⟨command, hcommand, rfl⟩ := List.mem_map.mp hnew
          rw [hcredentials]
          exact afterCall_of_commands hroot hentry (hbegins.subset hcommand)

theorem separated (hroot : AsRoot start) (hentry : world.getpwnam "root" = some ⟨0, 0⟩)
    (hreach : Reachable (program crypto world settings start machine) host) :
    Separated world.getpwnam settings start host := by
  refine hreach.invariant (Separated world.getpwnam settings start) ?_ ?_
  · rintro host rfl
    exact ⟨rfl, nofun⟩
  · intro host event host' _ hseparated hstep
    exact hseparated.next hroot hentry hstep

/-- **Privilege separation.**  In every run of a process that root has started, every shell
command runs with the credentials of root, and every step of a coroutine with those of the
configured user, if the password database knows one; and at every moment `runas("root")`
gives back what the process was started with. -/
theorem privileges_separated (crypto : Crypto) (settings : Settings) {world : World σ}
    {start : Credentials} (hroot : AsRoot start)
    (hentry : world.getpwnam "root" = some ⟨0, 0⟩) {machine : σ}
    {steps : List (Step (State σ) (Event σ))} {host : State σ}
    (hrun : History (program crypto world settings start machine) steps host) :
    (∀ issued ∈ host.issued, issued.credentials = start) ∧
      (∀ step ∈ steps, ∀ event, step.event = .main (.coroutine event) →
        step.before.credentials = workerCredentials world.getpwnam settings start ∧
          step.after.credentials = workerCredentials world.getpwnam settings start) ∧
      ∀ state ∈ visited steps host,
        (runas world.getpwnam "root" state.credentials).2 = start := by
  refine ⟨(separated hroot hentry hrun.reachable).issued, ?_, ?_⟩
  · rintro ⟨host, event, host'⟩ hmem event rfl
    obtain ⟨hreach, hstep⟩ := hrun.step_of_mem hmem
    have hbefore : host.credentials = workerCredentials world.getpwnam settings start := by
      rw [(separated hroot hentry hreach).credentials]
      exact credentialsAt_of_switches (switches_of_runCoroutine (next_main hstep))
    cases next_effect hstep with
    | quiet action hother hsame =>
        refine ⟨hbefore, ?_⟩
        rw [hsame]
        exact hbefore
  · intro state hmem
    obtain ⟨uid, gid, hact⟩ :=
      exists_act_credentialsAt world.getpwnam settings start state.main.point
    rw [(separated hroot hentry (hrun.reachable_of_mem hmem)).credentials, hact]
    exact runas_root hroot hentry uid gid

/-! ## A server with address translation -/

/-- A server that runs as `nobody`. -/
def natServer : Settings where
  conf := Vpn.onePathConf .server
  user := "nobody"
  nat := true

/-- A password database with two users. -/
def twoUsers (user : String) : Option Passwd :=
  if user = "root" then some ⟨0, 0⟩
  else if user = "nobody" then some ⟨65534, 65533⟩
  else none

def rootCredentials : Credentials := ⟨⟨0, 0, 0⟩, ⟨0, 0, 0⟩, [0]⟩

/-- A host on which every command succeeds. -/
def obligingWorld : World Unit := ⟨fun _ _ => (0, ()), twoUsers, fun _ => none, fun _ => id⟩

/-- The server starts, is stopped by `SIGTERM` and ends. -/
def natServerActions : List Main.Action :=
  let start : Main.Action := .coroutine (.start (Reference.bufferOf []) 0 none)
  [.proceed 0, .proceed 0, .proceed 0, .proceed 3, .proceed 0, .proceed 0, .proceed 0,
    .proceed 0, start, start, start, .proceed 0, .proceed 0, .proceed 0, .proceed 0,
    .deliver .sigterm, .proceed 0, .proceed 0, .proceed 0, .proceed 0]

/-- It runs fourteen commands as root, and its coroutines as `nobody`. -/
theorem privileges_separated_natServer :
    ∃ steps host, History (program Reference.crypto obligingWorld natServer rootCredentials ())
        steps host ∧
      host.issued.length = 14 ∧ (∀ issued ∈ host.issued, issued.credentials = rootCredentials) ∧
      ∃ step ∈ steps, step.before.credentials.user = ⟨0, 65534, 0⟩ := by
  have hends : ((run (next Reference.crypto obligingWorld natServer)
      ⟨Main.initialState, rootCredentials, (), []⟩ (natServerActions.map .main)).any
        fun host => host.issued.length == 14) = true := by
    decide +kernel
  obtain ⟨host, hrun, hlength⟩ := (Option.any_eq_true _ _).mp hends
  have hinitial : (program Reference.crypto obligingWorld natServer rootCredentials ()).initial
      ⟨Main.initialState, rootCredentials, (), []⟩ := rfl
  obtain ⟨steps, hhistory, hevents⟩ :=
    exists_history_of_run (fun _ _ _ hnext => hnext) hinitial hrun
  obtain ⟨hcommands, hcoroutine, -⟩ :=
    privileges_separated Reference.crypto natServer ⟨rfl, rfl⟩ (by decide +kernel) hhistory
  refine ⟨steps, host, hhistory, beq_iff_eq.mp hlength, hcommands, ?_⟩
  have hstart : Event.main (.coroutine (.start (Reference.bufferOf []) 0 none)) ∈
      steps.map Step.event := by
    rw [hevents, List.mem_reverse]
    simp [natServerActions]
  obtain ⟨step, hmem, hevent⟩ := List.mem_map.mp hstart
  refine ⟨step, hmem, ?_⟩
  rw [(hcoroutine step hmem _ hevent).1]
  decide +kernel

/-! ## The arrays of the commands -/

/-- What `vpn_init` and `vpn_run` read of `*conf`. -/
def settingsOf (conf : ConfT) : Settings where
  conf := confOf conf
  user := stringOf conf.user
  nat := conf.nat ≠ 0

/-- A string that ends in its array. -/
theorem length_stringOf_lt {size : Nat} {field : Muon.Conf.CharArray size}
    (hnul : 0 ∈ field.bytes) : (stringOf field).length < size := by
  have hlength : (stringOf field).length = field.text.length := by
    rw [stringOf, String.length_ofList, List.length_map]
  rw [hlength]
  have htext : field.text <+: field.bytes := List.takeWhile_prefix _
  have hle := htext.length_le
  rw [field.length_bytes] at hle
  refine lt_of_le_of_ne hle fun heq => ?_
  rw [← htext.eq_of_length (heq.trans field.length_bytes.symm)] at hnul
  exact Muon.Conf.zero_not_mem_cString field.bytes hnul

/-- The commands of a configuration whose strings end in their arrays. -/
theorem commandsAt_fit {conf : ConfT} (hterminated : Muon.Conf.Terminated conf)
    (hlow : 1024 ≤ conf.mtu) (hhigh : conf.mtu ≤ payloadMax)
    (ipremote : String → Option UInt32) (point : Main.Point) :
    ∀ command ∈ commandsAt (settingsOf conf) ipremote point, command.Fits := by
  have htunif := Nat.le_of_lt_succ (length_stringOf_lt hterminated.tunif)
  have haddress := Nat.le_of_lt_succ (length_stringOf_lt hterminated.address)
  have haddress6 := Nat.le_of_lt_succ (length_stringOf_lt hterminated.address6)
  have hmtu : 0 ≤ conf.mtu ∧ conf.mtu < 10 ^ 10 := by
    have hmax : ((payloadMax : Nat) : Int) = 2052 := rfl
    omega
  have hmapped : ∀ {κ : Type} (command : κ → Command) (cmds : List κ),
      (∀ cmd ∈ cmds, (command cmd).Fits) → ∀ c ∈ cmds.map command, c.Fits := by
    intro κ command cmds hall c hmem
    obtain ⟨cmd, hcmd, rfl⟩ := List.mem_map.mp hmem
    exact hall cmd hcmd
  cases point with
  | ifconfig => exact hmapped _ _ (ifconfigCommands_fit ⟨htunif, haddress, haddress6⟩ hmtu)
  | route path =>
      simp only [commandsAt]
      split
      · exact List.forall_mem_nil _
      · split
        · exact hmapped _ _ (routeCommands_fit htunif _ _ _ _)
        · exact List.forall_mem_nil _
  | nat =>
      simp only [commandsAt]
      split
      · exact hmapped _ _ (natCommands_fit haddress true)
      · exact List.forall_mem_nil _
  | natOff =>
      simp only [commandsAt]
      split
      · exact hmapped _ _ (natCommands_fit haddress false)
      · exact List.forall_mem_nil _
  | _ => exact List.forall_mem_nil _

/-- **The commands fit.**  Whatever file `parse_args` accepts and whatever happens on the
host, no command of a run is longer than the array it is written to, nor is the subnet that
`route` formats for it. -/
theorem commands_fit {argv : List (List UInt8)} {file : List UInt8}
    (hok : (parseArgs argv (some file)).status = .ok) (crypto : Crypto) (world : World σ)
    (start : Credentials) (machine : σ) {host : State σ}
    (hreach : Reachable (program crypto world
      (settingsOf (parseArgs argv (some file)).conf) start machine) host) :
    ∀ issued ∈ host.issued, issued.command.Fits := by
  obtain ⟨hterminated, hlow, hhigh⟩ := Muon.Conf.stored_of_parseArgs hok
  refine hreach.invariant (fun host => ∀ issued ∈ host.issued, issued.command.Fits) ?_ ?_
  · rintro host rfl
    exact nofun
  · intro host event host' _ hbefore hstep
    cases next_effect hstep with
    | outside machine hchanged =>
        rw [hchanged]
        exact hbefore
    | quiet action hother hsame =>
        rw [hsame]
        exact hbefore
    | statement answer commands hbegins hcredentials hmachine hissued =>
        intro issued hmem
        rw [hissued] at hmem
        rcases List.mem_append.mp hmem with hold | hnew
        · exact hbefore issued hold
        · obtain ⟨command, hcommand, rfl⟩ := List.mem_map.mp hnew
          exact commandsAt_fit hterminated hlow hhigh world.ipremote _ command
            (hbegins.subset hcommand)

/-- A server without an IPv4 address: eight commands, five of them to turn off what was
not turned on. -/
theorem commands_fit_serverFile :
    ∃ host, Reachable (program Reference.crypto obligingWorld
        (settingsOf (parseArgs Muon.Conf.serverCommand (some Muon.Conf.serverFile)).conf)
        rootCredentials ()) host ∧
      host.issued.length = 8 ∧ ∀ issued ∈ host.issued, issued.command.Fits := by
  have hok : (parseArgs Muon.Conf.serverCommand (some Muon.Conf.serverFile)).status = .ok := by
    decide +kernel
  have hends : ((run (next Reference.crypto obligingWorld
      (settingsOf (parseArgs Muon.Conf.serverCommand (some Muon.Conf.serverFile)).conf))
      ⟨Main.initialState, rootCredentials, (), []⟩ (natServerActions.map .main)).any
        fun host => host.issued.length == 8) = true := by
    decide +kernel
  obtain ⟨host, hrun, hlength⟩ := (Option.any_eq_true _ _).mp hends
  have hreach : Reachable (program Reference.crypto obligingWorld
      (settingsOf (parseArgs Muon.Conf.serverCommand (some Muon.Conf.serverFile)).conf)
      rootCredentials ()) ⟨Main.initialState, rootCredentials, (), []⟩ := .initial rfl
  have hlast := hreach.run (fun _ _ _ hnext => hnext) hrun
  exact ⟨host, hlast, beq_iff_eq.mp hlength,
    commands_fit hok Reference.crypto obligingWorld rootCredentials () hlast⟩

end Host
end Muon
