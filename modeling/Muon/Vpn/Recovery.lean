import Mathlib.Algebra.Order.BigOperators.Group.Finset
import Mathlib.Data.Fintype.EquivFin
import Muon.Foundation.Possibility
import Muon.Vpn.Coroutines
import Muon.Vpn.Ends
import Muon.Vpn.TimedNetwork

/-!
# The tunnel can always be set up again

Sockets are closed, datagrams are lost, paths die.  Whatever has happened, one round brings
a path back: the client hops to a new socket and sends a heartbeat from it, the server
answers, and from then on packets get through in both directions.  Nothing that can happen
before gets in the way of such a round.

The stages are: the `go` calls are made, the paths die, it is the turn of the path in
`client_hop`, its new worker binds a socket, the server hears the client, the client hears
the server.
-/

namespace Muon
namespace Vpn

open Foundation Packet Totp

variable {crypto : Crypto} {deployment : Deployment} {net net' : Network}
  {process process' : Process} {outputs : List Output} {clock : Timeval}
  {reads : Side → Prop} {side : Side} {path : Nat}

/-- The event reads the clock, if any; nothing fails and nothing times out. -/
def Event.Steady (clock : Timeval) : Event → Prop
  | .hop reading _ _ => reading = clock
  | .heartbeat readings _ => ∀ path call, readings path call = clock
  | .tunReadError | .receiveError _ | .timeout _ _ => False
  | .start .. | .hopWake | .resolved .. | .received .. | .tunRead .. => True

def NetworkEvent.Steady (clock : Timeval) : NetworkEvent → Prop
  | .client event | .server event => event.Steady clock

theorem steady_of (side : Side) {event : Event} (hsteady : event.Steady clock) :
    (NetworkEvent.of side event).Steady clock := by
  cases side <;> exact hsteady

/-- A measure of both peers. -/
def total (measure : Process → Nat) (net : Network) : Nat :=
  measure net.client + measure net.server

theorem total_lt {measure : Process → Nat} (side : Side)
    (hlower : measure (net'.peer side) < measure (net.peer side))
    (hother : net'.peer side.other = net.peer side.other) :
    total measure net' < total measure net := by
  cases side with
  | client =>
      have hother : net'.server = net.server := hother
      have hlower : measure net'.client < measure net.client := hlower
      rw [total, total, hother]
      omega
  | server =>
      have hother : net'.client = net.client := hother
      have hlower : measure net'.server < measure net.server := hlower
      rw [total, total, hother]
      omega

theorem total_eq_zero_iff {measure : Process → Nat} :
    total measure net = 0 ↔ ∀ side, measure (net.peer side) = 0 := by
  rw [total, Nat.add_eq_zero_iff]
  constructor
  · rintro ⟨hclient, hserver⟩ (_ | _) <;> assumption
  · intro hboth
    exact ⟨hboth .client, hboth .server⟩

/-- The `go` calls are made, and `tun_worker` runs on these sides. -/
structure Prepared (reads : Side → Prop) (net : Network) : Prop where
  starts : ∀ side, (net.peer side).starts = []
  tun : ∀ side, reads side → (net.peer side).tun ≠ none

theorem Prepared.next (hprepared : Prepared reads net) {event : Event}
    (hreads : event ≠ .tunReadError)
    (hnext : nextNetwork crypto deployment net (.of side event) = some net') :
    Prepared reads net' := by
  obtain ⟨-, outputs, hstep, hother, -⟩ := nextNetwork_peer hnext
  have hstarts : (net'.peer side).starts = [] := by
    rw [← hprepared.starts side]
    refine step_starts_eq hstep fun stack now listen heq => ?_
    subst heq
    obtain ⟨start, rest, hahead, -⟩ := step_start hstep
    rw [hprepared.starts side] at hahead
    cases hahead
  constructor
  · exact Side.both side hstarts (by rw [hother]; exact hprepared.starts side.other)
  · refine Side.both side (fun htun => ?_) fun htun => by
      rw [hother]; exact hprepared.tun side.other htun
    have hunderway := @step_underway _ _ _ _ _ hstep .tunWorker
      (fun _ => hreads) (Or.inr (hprepared.tun side htun))
    rcases hunderway with hahead | hrunning
    · rw [hstarts] at hahead
      cases hahead
    · exact hrunning

/-- The next `go` call can be made. -/
theorem exists_start (side : Side) {start : Start} {rest : List Start}
    (hstarts : (net.peer side).starts = start :: rest) :
    ∃ listen net', nextNetwork crypto deployment net
        (.of side (.start (fun _ => 0) 0 listen)) = some net' ∧
      (net'.peer side).starts = rest ∧ net'.peer side.other = net.peer side.other := by
  obtain ⟨listen, hlisten⟩ : ∃ listen, Listens deployment (net.peer side) listen := by
    simp only [Listens, hstarts]
    cases start with
    | udpWorker path port => exact ⟨_, rfl⟩
    | clientHop | tunWorker | heartbeat => exact ⟨none, trivial⟩
  have hworld : World deployment net side (.start (fun _ => 0) 0 listen) := by
    cases side with
    | client => trivial
    | server => exact hlisten
  obtain ⟨net', hnext, hpeer, hother, -⟩ := @exists_nextNetwork crypto deployment net _ [] side _
    hworld (by simp only [Vpn.step, hstarts]; rfl)
  refine ⟨listen, net', hnext, ?_, hother⟩
  rw [hpeer]
  exact (runStart_running _ _ _ _ _).1

/-- First the `go` calls are made. -/
theorem canReach_prepared (hreach : Reachable (network crypto deployment) net)
    (hreads : ∀ side, reads side → Underway (net.peer side) .tunWorker) :
    CanReach (network crypto deployment) (NetworkEvent.Steady clock) (Prepared reads) net := by
  refine .trans hreach (.descend (fun net => ∀ side, reads side →
    Underway (net.peer side) .tunWorker) (total fun process => process.starts.length)
    (fun net hreach hunderway hahead => ?_) hreach hreads) fun net _ hdone => .here ?_
  · obtain ⟨side, hside⟩ := not_forall.mp (mt total_eq_zero_iff.mpr hahead)
    obtain ⟨start, rest, hstarts⟩ := List.exists_cons_of_length_pos (Nat.pos_of_ne_zero hside)
    obtain ⟨listen, net', hnext, hrest, hother⟩ :=
      @exists_start crypto deployment net side start rest hstarts
    refine .next hnext (steady_of side trivial) (.here ⟨?_, ?_⟩)
    · obtain ⟨-, outputs, hstep, -⟩ := nextNetwork_peer hnext
      refine Side.both side (fun hside => ?_) fun hside => by
        rw [hother]; exact hunderway side.other hside
      exact step_underway hstep (fun _ heq => by cases heq) (hunderway side hside)
    · refine total_lt side ?_ hother
      rw [hrest, hstarts, List.length_cons]
      exact Nat.lt_succ_self _
  · have hstarts : ∀ side, (net.peer side).starts = [] :=
      fun side => List.length_eq_zero_iff.mp (total_eq_zero_iff.mp hdone.2 side)
    refine ⟨hstarts, fun side hside => ?_⟩
    rcases hdone.1 side hside with hmem | hrunning
    · rw [hstarts] at hmem
      cases hmem
    · exact hrunning

/-- The rounds of `heartbeat` that a peer can still take with some path alive. -/
def lifetime (process : Process) : Nat :=
  ∑ i ∈ Finset.range process.ctx.pathCount, (process.ctx.paths i).alive.toNat

theorem lifetime_eq_zero_iff : lifetime process = 0 ↔
    ∀ i, i < process.ctx.pathCount → (process.ctx.paths i).alive ≤ 0 := by
  simp only [lifetime, Finset.sum_eq_zero_iff, Finset.mem_range, Int.toNat_eq_zero]

theorem Beat.lifetime_lt (hbeat : Beat process process') (halive : lifetime process ≠ 0) :
    lifetime process' < lifetime process := by
  obtain ⟨i, hi, hne⟩ := Finset.exists_ne_zero_of_sum_ne_zero halive
  unfold lifetime
  rw [hbeat.conf.pathCount]
  refine Finset.sum_lt_sum (fun j _ => ?_) ⟨i, hi, ?_⟩
  · rw [hbeat.alive j]
    split <;> omega
  · rw [hbeat.alive i, if_pos ⟨Finset.mem_range.mp hi, by omega⟩]
    omega

/-- A round of `heartbeat` at the given time. -/
def beatAt (clock : Timeval) : Event := .heartbeat (fun _ _ => clock) fun _ => Reference.zeroDraws

theorem steady_beatAt (clock : Timeval) : (beatAt clock).Steady clock := fun _ _ => rfl

theorem beatAt_ne_tunReadError : beatAt clock ≠ .tunReadError := by
  intro heq
  cases heq

/-- Once the `go` calls are made, a round of `heartbeat` can be taken. -/
theorem Prepared.exists_beat (hprepared : Prepared reads net)
    (hreach : Reachable (network crypto deployment) net) (side : Side) (clock : Timeval) :
    ∃ net', nextNetwork crypto deployment net (.of side (beatAt clock)) = some net' ∧
      Beat (net.peer side) (net'.peer side) ∧ net'.peer side.other = net.peer side.other := by
  have hheartbeat : (net.peer side).heartbeat ≠ none := by
    have hunderway : Underway (net.peer side) .heartbeat := by
      cases side with
      | client =>
          exact underway_of_reachable (client_reachable hreach) (by simp [vpnRun]) (by simp)
      | server =>
          exact underway_of_reachable (server_reachable hreach) (by simp [vpnRun]) (by simp)
    rw [Underway, hprepared.starts] at hunderway
    exact hunderway.resolve_left List.not_mem_nil
  obtain ⟨pbuf, hpbuf⟩ := Option.ne_none_iff_exists'.mp hheartbeat
  obtain ⟨process', outputs, hstep⟩ : ∃ process' outputs,
      step crypto (net.peer side) (beatAt clock) = some (.ok (process', outputs)) := by
    simp only [beatAt, Vpn.step, hpbuf]
    exact ⟨_, _, rfl⟩
  obtain ⟨net', hnext, rfl, hother, -⟩ :=
    @exists_nextNetwork crypto deployment net _ _ side _ (by cases side <;> trivial) hstep
  exact ⟨net', hnext, step_heartbeat_beat hstep, hother⟩

/-- No path is alive. -/
structure Silent (reads : Side → Prop) (net : Network) : Prop extends Prepared reads net where
  dead : ∀ side, lifetime (net.peer side) = 0

/-- Then the paths die. -/
theorem Prepared.canReach_silent (hprepared : Prepared reads net)
    (hreach : Reachable (network crypto deployment) net) :
    CanReach (network crypto deployment) (NetworkEvent.Steady clock) (Silent reads) net := by
  refine .trans hreach (.descend (Prepared reads) (total lifetime)
    (fun net hreach hprepared halive => ?_) hreach hprepared)
    fun net _ hdone => .here ⟨hdone.1, total_eq_zero_iff.mp hdone.2⟩
  obtain ⟨side, hside⟩ := not_forall.mp (mt total_eq_zero_iff.mpr halive)
  obtain ⟨net', hnext, hbeat, hother⟩ := hprepared.exists_beat hreach side clock
  exact .next hnext (steady_of side (steady_beatAt clock)) (.here
    ⟨hprepared.next beatAt_ne_tunReadError hnext, total_lt side (hbeat.lifetime_lt hside) hother⟩)

/-- The worker that `client_hop` starts. -/
def hopWorker (crypto : Crypto) (ctx : Ctx) (path : Nat) (clock : Timeval) : Worker where
  path := path
  token := totp crypto (ctx.paths path).portRange clock 0
  deadline := 5000
  port := workerPort ctx path (totp crypto (ctx.paths path).portRange clock 0)
  state := .resolving
  bound := ⟨0, 0⟩
  pbuf := fun _ => 0

theorem step_hop_client (hmode : process.ctx.mode = .client) {next : Nat}
    (hnext : process.hopNext = some next) (hlt : next < process.ctx.pathCount)
    (clock : Timeval) :
    step crypto process (.hop clock (fun _ => 0) 0) = some (.ok ({ process with
      hopNext := some (next + 1)
      workers := process.workers ++ [hopWorker crypto process.ctx next clock] }, [])) := by
  simp only [Vpn.step, hnext, if_pos hlt, startWorker, hmode]
  rfl

variable (crypto deployment) in
/-- An event of the client that leaves its paths as dead as they are. -/
theorem Silent.clientNext (hsilent : Silent reads net) (event : Event) {client : Process}
    {outputs : List Output} (hreads : event ≠ .tunReadError)
    (hworld : ClientWorld deployment net event)
    (hstep : step crypto net.client event = some (.ok (client, outputs)))
    (hcount : client.ctx.pathCount = net.client.ctx.pathCount)
    (halive : ∀ i, (client.ctx.paths i).alive = (net.client.ctx.paths i).alive) :
    ∃ net', nextNetwork crypto deployment net (.client event) = some net' ∧
      Silent reads net' ∧ net'.client = client := by
  obtain ⟨net', hnext, hclient, hother, -⟩ :=
    @exists_nextNetwork crypto deployment net _ _ .client _ hworld hstep
  have hclient : net'.client = client := hclient
  have hprepared' := @Prepared.next crypto deployment net net' reads .client hsilent.toPrepared
    event hreads hnext
  refine ⟨net', hnext, ⟨hprepared', ?_⟩, hclient⟩
  refine Side.both .client ?_ (by rw [hother]; exact hsilent.dead _)
  have hdead : lifetime net.client = 0 := hsilent.dead .client
  show lifetime net'.client = 0
  rw [hclient, ← hdead]
  simp only [lifetime, hcount, halive]

/-- How many events `client_hop` takes until it is about to start a worker for the path. -/
def hopDistance (path : Nat) (process : Process) : Nat :=
  match process.hopNext with
  | none => 0
  | some next =>
      if next ≤ path then path - next else process.ctx.pathCount - next + path + 1

theorem Prepared.exists_hopNext (hprepared : Prepared reads net)
    (hreach : Reachable (network crypto deployment) net) :
    ∃ next, net.client.hopNext = some next := by
  have hunderway : Underway net.client .clientHop :=
    underway_of_reachable (client_reachable hreach)
      (by simp [vpnRun, deployment.client_mode]) (by simp)
  have hstarts : net.client.starts = [] := hprepared.starts .client
  rw [Underway, hstarts] at hunderway
  exact Option.ne_none_iff_exists'.mp (hunderway.resolve_left List.not_mem_nil)

/-- Then it is the turn of the path. -/
theorem Silent.canReach_hop (hsilent : Silent reads net)
    (hreach : Reachable (network crypto deployment) net) {path : Nat}
    (hpath : path < deployment.client.paths.length) :
    CanReach (network crypto deployment) (NetworkEvent.Steady clock)
      (fun net => Silent reads net ∧ net.client.hopNext = some path) net := by
  refine .trans hreach (.descend (Silent reads) (fun net => hopDistance path net.client)
    (fun net hreach hsilent hfar => ?_) hreach hsilent) fun net hreach hdone => .here ?_
  · have hmode : net.client.ctx.mode = .client := (peerConf hreach .client).mode
    have hcount : net.client.ctx.pathCount = deployment.client.paths.length :=
      (peerConf hreach .client).pathCount
    obtain ⟨next, hnext⟩ := hsilent.exists_hopNext hreach
    simp only [hopDistance, hnext] at hfar
    by_cases hlt : next < net.client.ctx.pathCount
    · obtain ⟨net', hstepped, hsilent', hclient⟩ := hsilent.clientNext crypto deployment
        (.hop clock (fun _ => 0) 0) (fun heq => by cases heq) trivial
        (step_hop_client hmode hnext hlt clock) rfl fun _ => rfl
      refine .next hstepped rfl (.here ⟨hsilent', ?_⟩)
      simp only [hopDistance, hnext, hclient]
      split_ifs at hfar ⊢ <;> omega
    · have hwakes : step crypto net.client .hopWake =
          some (.ok ({ net.client with hopNext := some 0 }, [])) := by
        simp only [Vpn.step, hnext, if_neg hlt]
      obtain ⟨net', hstepped, hsilent', hclient⟩ := hsilent.clientNext crypto deployment .hopWake
        (fun heq => by cases heq) trivial hwakes rfl fun _ => rfl
      refine .next hstepped trivial (.here ⟨hsilent', ?_⟩)
      simp only [hopDistance, hnext, hclient]
      split_ifs <;> omega
  · obtain ⟨hsilent, hzero⟩ := hdone
    obtain ⟨next, hnext⟩ := hsilent.exists_hopNext hreach
    refine ⟨hsilent, ?_⟩
    simp only [hopDistance, hnext] at hzero
    rw [hnext]
    split at hzero
    · rw [show next = path by omega]
    · omega

/-- There is an address that no socket has had. -/
theorem exists_fresh (deployment : Deployment) (net : Network) :
    ∃ address, Fresh deployment net address := by
  obtain ⟨host, hhost⟩ := Infinite.exists_notMem_finset
    (((endpoints net.client).filterMap fun e => e.bound.map IpAddr.host) ++
      (List.range deployment.client.paths.length).map deployment.host).toFinset
  simp only [List.mem_toFinset, List.mem_append, not_or] at hhost
  refine ⟨⟨host, 0⟩, fun e he hbound => hhost.1 ?_, fun path hpath hserver => hhost.2 ?_⟩
  · exact List.mem_filterMap.mpr ⟨e, he, by rw [hbound, Option.map_some]⟩
  · exact List.mem_map.mpr ⟨path, List.mem_range.mpr hpath, hserver.1.symm⟩

/-- The token of a path at a time. -/
def pathToken (crypto : Crypto) (deployment : Deployment) (path : Nat) (clock : Timeval) : Int :=
  totp crypto ((initCtx deployment.client).paths path).portRange clock 0

theorem pathToken_inRange (crypto : Crypto) (clock : Timeval) {path : Nat}
    (hpath : path < deployment.client.paths.length) :
    InRange deployment.client path (pathToken crypto deployment path clock) := by
  obtain ⟨hlow, hhigh⟩ := deployment.portRange_bounds hpath
  obtain ⟨htoken, hle⟩ := totp_bounds crypto hlow hhigh clock 0
  exact ⟨hpath, htoken, hle⟩

/-- A client worker that binds its socket is aimed at the server. -/
theorem resolveWorker_aimed {worker : Worker} {index : Nat} {remote bound : IpAddr}
    (hindex : index < process.workers.length) :
    Aimed (resolveWorker process index worker remote (some bound)) index worker.path worker.token
      bound remote := by
  obtain ⟨-, hsock, hremote, htoken, -⟩ := resolveWorker_bound process index worker remote bound
  refine ⟨⟨{ worker with state := .receiving, bound := bound }, ?_, rfl, rfl, rfl, rfl⟩, hsock,
    hremote, htoken⟩
  simp only [resolveWorker, bindWorker]
  exact List.getElem?_set_self hindex

/-- Then the client is aimed at the server, with the token of the clock. -/
theorem Silent.canReach_aimed (hsilent : Silent reads net)
    (hreach : Reachable (network crypto deployment) net) {path : Nat}
    (hpath : path < deployment.client.paths.length) (hturn : net.client.hopNext = some path) :
    CanReach (network crypto deployment) (NetworkEvent.Steady clock)
      (fun net => Silent reads net ∧ ∃ index bound, Aimed net.client index path
        (pathToken crypto deployment path clock) bound
        (deployment.address path (pathToken crypto deployment path clock))) net := by
  have hmode : net.client.ctx.mode = .client := (peerConf hreach .client).mode
  have hcount : net.client.ctx.pathCount = deployment.client.paths.length :=
    (peerConf hreach .client).pathCount
  have hrange := (peerConf hreach .client).portRange path
  have hstart := (peerConf hreach .client).portStart path
  obtain ⟨net₁, hnext₁, hsilent₁, hclient₁⟩ := hsilent.clientNext crypto deployment
    (.hop clock (fun _ => 0) 0) (fun heq => by cases heq) trivial
    (step_hop_client hmode hturn (by rw [hcount]; exact hpath) clock) rfl fun _ => rfl
  -- the worker is the last one
  have hworker : net₁.client.workers[net.client.workers.length]? =
      some (hopWorker crypto net.client.ctx path clock) := by
    rw [hclient₁]
    exact List.getElem?_concat_length
  have htoken : (hopWorker crypto net.client.ctx path clock).token =
      pathToken crypto deployment path clock :=
    congrArg (fun range => totp crypto range clock 0) hrange
  have hremote : deployment.address path (pathToken crypto deployment path clock) =
      ⟨deployment.host path, (hopWorker crypto net.client.ctx path clock).port⟩ := by
    rw [← deployment.workerPort_eq hstart (pathToken_inRange crypto clock hpath), ← htoken]
    rfl
  obtain ⟨bound, hfresh⟩ := exists_fresh deployment net₁
  have hresolves : step crypto net₁.client (.resolved net.client.workers.length
      (deployment.address path (pathToken crypto deployment path clock)) (some bound)) =
      some (.ok (resolveWorker net₁.client net.client.workers.length
        (hopWorker crypto net.client.ctx path clock)
        (deployment.address path (pathToken crypto deployment path clock)) (some bound), [])) := by
    simp only [Vpn.step, hworker]
    rfl
  have hworld : ClientWorld deployment net₁ (.resolved net.client.workers.length
      (deployment.address path (pathToken crypto deployment path clock)) (some bound)) := by
    simp only [ClientWorld, Resolved, hworker]
    exact ⟨hremote, hfresh⟩
  obtain ⟨net₂, hnext₂, hsilent₂, hclient₂⟩ := hsilent₁.clientNext crypto deployment _
    (fun heq => by cases heq) hworld hresolves rfl fun i => by
      simp only [resolveWorker, bindWorker]
      rw [Ctx.field_updatePath _ _ _ PathCtx.alive rfl,
        Ctx.field_updatePath _ _ _ PathCtx.alive rfl]
  refine .next hnext₁ rfl (.next hnext₂ trivial (.here ⟨hsilent₂, net.client.workers.length, bound,
    ?_⟩))
  rw [hclient₂, ← htoken]
  exact resolveWorker_aimed (List.getElem?_eq_some_iff.mp hworker).1

theorem quiet_of_lifetime (hdead : lifetime process = 0) (path : Nat) : Quiet process.ctx path :=
  fun i hi _ => lifetime_eq_zero_iff.mp hdead i hi

theorem Beat.quiet {path : Nat} (hbeat : Beat process process')
    (hquiet : Quiet process.ctx path) : Quiet process'.ctx path := by
  intro i hi hne
  rw [hbeat.conf.pathCount] at hi
  have hdead := hquiet i hi hne
  rw [hbeat.alive i, if_neg fun h => by omega]
  exact hdead

/-- A round of the server at the time of a token makes it valid. -/
theorem accepted_of_beat {path : Nat} (hreach : Reachable (network crypto deployment) net)
    (hpath : path < deployment.client.paths.length)
    (hnext : nextNetwork crypto deployment net (.server (beatAt clock)) = some net') :
    tokenAccepted (net'.server.ctx.paths path).validTokens
      (pathToken crypto deployment path clock) = true := by
  obtain ⟨-, outputs, hstep, -⟩ := nextNetwork_server hnext
  have hcount : net.server.ctx.pathCount = deployment.client.paths.length :=
    (peerConf hreach .server).pathCount
  have hrange : (net.server.ctx.paths path).portRange = _ :=
    (peerConf hreach .server).portRange path
  refine (tokenAccepted_heartbeat (server_reachable hreach) hstep (by rw [hcount]; exact hpath)
    (fun _ => rfl) _).mpr (Or.inr ⟨0, by decide, by decide, ?_⟩)
  rw [hrange]
  rfl

/-- A round of an end that may send: a heartbeat is in flight to the other one. -/
theorem Prepared.beats (hprepared : Prepared reads net)
    (hreach : Reachable (network crypto deployment) net) {side : Side} {index path : Nat}
    {token : Int} {bound remote : IpAddr} (hpath : path < deployment.client.paths.length)
    (hend : End (net.peer side) index path token bound remote)
    (hmay : side = .client ∨ 0 < ((net.peer side).ctx.paths path).alive) (clock : Timeval) :
    ∃ net' data, nextNetwork crypto deployment net (.of side (beatAt clock)) = some net' ∧
      Prepared reads net' ∧ Beat (net.peer side) (net'.peer side) ∧
      net'.peer side.other = net.peer side.other ∧
      End (net'.peer side) index path token bound remote ∧
      ⟨bound, remote, data⟩ ∈ net'.sent ∧
      CarriesPacket crypto token deployment.client.mtu [] data := by
  obtain ⟨net', hnext, hbeat, hother⟩ := hprepared.exists_beat hreach side clock
  obtain ⟨-, outputs, hstep, -, hsent⟩ := nextNetwork_peer hnext
  have hconf := peerConf hreach side
  obtain ⟨data, hdata, hcarries⟩ := hend.heartbeat hconf.mtu_nonneg hconf.mtu_le
    (by rw [hconf.pathCount]; exact hpath)
    (hmay.imp (fun hside => by rw [hconf.mode, hside]; rfl) id) hstep
  rw [hconf.mtu] at hcarries
  exact ⟨net', data, hnext, hprepared.next beatAt_ne_tunReadError hnext, hbeat, hother,
    ⟨hend.of_same hbeat.workers hbeat.triples, hbeat.quiet hend.quiet⟩,
    by rw [hsent]; exact List.mem_append_right _ hdata, hcarries⟩

/-- A heartbeat arrives at a side that takes it, which is an end of the path then. -/
theorem Prepared.delivers (hprepared : Prepared reads net)
    (hlossless : crypto.libraries.Lossless)
    (hreach : Reachable (network crypto deployment) net) {side : Side} {index path : Nat}
    {token : Int} {bound source : IpAddr} {packet bytes : List UInt8}
    (htakes : Takes side index path token bound source (net.peer side))
    (hquiet : Quiet (net.peer side).ctx path) (hsent : ⟨source, bound, bytes⟩ ∈ net.sent)
    (hcarries : CarriesPacket crypto token deployment.client.mtu packet bytes) :
    ∃ net', nextNetwork crypto deployment net (.of side (.received index source bytes)) =
        some net' ∧
      Prepared reads net' ∧ End (net'.peer side) index path token bound source ∧
      ((net'.peer side).ctx.paths path).alive = 5 ∧
      net'.peer side.other = net.peer side.other := by
  obtain ⟨net', hnext, haimed, halive, hothers, hother, -⟩ :=
    deliver hlossless hreach htakes hsent hcarries
  refine ⟨net', hnext, hprepared.next (fun heq => by cases heq) hnext,
    ⟨haimed, fun i hi hne => ?_⟩, halive, hother⟩
  rw [hothers i hne]
  refine hquiet i ?_ hne
  rw [(peerConf hreach side).pathCount, ← (peerConf (hreach.step hnext) side).pathCount]
  exact hi

/-- The client is heard: both ends are aimed at each other, and the path is alive on the
server. -/
structure Heard (reads : Side → Prop) (path : Nat) (token : Int) (index : Side → Nat)
    (address : Side → IpAddr) (net : Network) : Prop extends Prepared reads net where
  ends : ∀ side, End (net.peer side) (index side) path token (address side) (address side.other)
  alive : ((net.peer .server).ctx.paths path).alive = 5

/-- Then the server hears a heartbeat of the client. -/
theorem Silent.canReach_heard (hsilent : Silent reads net)
    (hlossless : crypto.libraries.Lossless)
    (hreach : Reachable (network crypto deployment) net) {index path : Nat} {bound : IpAddr}
    (hpath : path < deployment.client.paths.length)
    (haimed : Aimed net.client index path (pathToken crypto deployment path clock) bound
      (deployment.address path (pathToken crypto deployment path clock))) :
    CanReach (network crypto deployment) (NetworkEvent.Steady clock)
      (fun net => ∃ index address,
        Heard reads path (pathToken crypto deployment path clock) index address net) net := by
  have hsteady := steady_beatAt clock
  obtain ⟨net₁, data, hnext₁, hprepared₁, hbeat₁, hother₁, hend₁, hsent₁, hcarries₁⟩ :=
    @Prepared.beats crypto deployment net reads hsilent.toPrepared hreach .client index path _
      bound _ hpath ⟨haimed, quiet_of_lifetime (hsilent.dead .client) path⟩ (Or.inl rfl) clock
  have hreach₁ := hreach.step hnext₁
  -- the server makes the token valid
  obtain ⟨net₂, hnext₂, hbeat₂, hother₂⟩ := hprepared₁.exists_beat hreach₁ .server clock
  have hreach₂ := hreach₁.step hnext₂
  have hprepared₂ := hprepared₁.next beatAt_ne_tunReadError hnext₂
  have hquiet₂ : Quiet (net₂.peer .server).ctx path := by
    refine hbeat₂.quiet (quiet_of_lifetime ?_ path)
    rw [show net₁.peer .server = net.peer .server from hother₁]
    exact hsilent.dead .server
  obtain ⟨-, outputs, -, -, hsent₂⟩ := nextNetwork_peer hnext₂
  obtain ⟨index', worker, hworker, hstate, hwpath, hwtoken, hwbound⟩ :=
    exists_server_worker hreach₂ (hprepared₂.starts .server) (pathToken_inRange crypto clock hpath)
  have htakes₂ : Takes .server index' path (pathToken crypto deployment path clock)
      (deployment.address path (pathToken crypto deployment path clock)) bound
      (net₂.peer .server) :=
    ⟨⟨worker, hworker, hstate, hwpath, hwtoken, hwbound⟩, accepted_of_beat hreach₁ hpath hnext₂⟩
  obtain ⟨net₃, hnext₃, hprepared₃, hend₃, halive₃, hother₃⟩ :=
    hprepared₂.delivers hlossless hreach₂ htakes₂ hquiet₂
      (by rw [hsent₂]; exact List.mem_append_left _ hsent₁) hcarries₁
  have hclient₃ : net₃.peer .client = net₁.peer .client := hother₃.trans hother₂
  refine .next hnext₁ hsteady (.next hnext₂ hsteady (.next hnext₃ trivial (.here
    ⟨Side.pick index index', Side.pick bound (deployment.address path
      (pathToken crypto deployment path clock)), hprepared₃, ?_, halive₃⟩)))
  rintro (_ | _)
  · rw [hclient₃]
    exact hend₁
  · exact hend₃

/-- Then the client takes the answer, and the path is linked. -/
theorem Heard.canReach_linked {path : Nat} {index : Side → Nat} {address : Side → IpAddr}
    (hheard : Heard reads path (pathToken crypto deployment path clock) index address net)
    (hlossless : crypto.libraries.Lossless)
    (hreach : Reachable (network crypto deployment) net)
    (hpath : path < deployment.client.paths.length) :
    CanReach (network crypto deployment) (NetworkEvent.Steady clock)
      (fun net => Prepared reads net ∧
        Linked path (pathToken crypto deployment path clock) index address net) net := by
  have hsteady := steady_beatAt clock
  obtain ⟨net₁, data, hnext₁, hprepared₁, hbeat₁, hother₁, hend₁, hsent₁, hcarries₁⟩ :=
    @Prepared.beats crypto deployment net reads hheard.toPrepared hreach .server _ path _ _ _ hpath
      (hheard.ends .server) (Or.inr (by rw [hheard.alive]; decide)) clock
  have hclient₁ : net₁.peer .client = net.peer .client := hother₁
  have hend₁' : End (net₁.peer .client) (index .client) path
      (pathToken crypto deployment path clock) (address .client) (address .server) := by
    rw [hclient₁]
    exact hheard.ends .client
  obtain ⟨net₂, hnext₂, hprepared₂, hend₂, halive₂, hother₂⟩ :=
    @Prepared.delivers crypto deployment net₁ reads hprepared₁ hlossless (hreach.step hnext₁)
      .client _ path _ _ _ _ _ ⟨hend₁'.listening, hend₁'.toAimed⟩ hend₁'.quiet hsent₁ hcarries₁
  have hserver₂ : net₂.peer .server = net₁.peer .server := hother₂
  refine .next hnext₁ hsteady (.next hnext₂ trivial (.here ⟨hprepared₂, ?_, ?_, ?_⟩))
  · rintro (_ | _)
    · exact hend₂
    · rw [hserver₂]
      exact hend₁
  · rintro (_ | _)
    · rw [halive₂]
      decide
    · rw [hserver₂, hbeat₁.alive path, hheard.alive,
        if_pos ⟨by rw [(peerConf hreach .server).pathCount]; exact hpath, by decide⟩]
      decide
  · rw [show net₂.server = net₁.server from hserver₂]
    exact accepted_of_beat hreach hpath hnext₁

/-- **The tunnel can always be set up again.**  In every state that client, server and network
can be in, and for every path and every time, there is a way to go on, with both clocks at this
time and without a failure or a timeout, after which the path is alive at both ends, and every
packet that is read on a side whose `tun_worker` has not failed can be written on the other
one at once. -/
theorem network_recovers (crypto : Crypto) (hlossless : crypto.libraries.Lossless)
    (deployment : Deployment) (clock : Timeval) (path : Nat)
    (hpath : path < deployment.client.paths.length) (net : Network)
    (hreach : Reachable (network crypto deployment) net) :
    CanReach (network crypto deployment) (NetworkEvent.Steady clock)
      (fun net' => ∀ side, 0 < ((net'.peer side).ctx.paths path).alive ∧
        (Underway (net.peer side) .tunWorker → Connects crypto deployment side net')) net := by
  refine .trans hreach (canReach_prepared hreach fun side hside => hside)
    fun net₁ hreach₁ hprepared => ?_
  refine .trans hreach₁ (hprepared.canReach_silent hreach₁) fun net₂ hreach₂ hsilent => ?_
  refine .trans hreach₂ (hsilent.canReach_hop hreach₂ hpath)
    fun net₃ hreach₃ ⟨hsilent₃, hturn⟩ => ?_
  refine .trans hreach₃ (hsilent₃.canReach_aimed hreach₃ hpath hturn)
    fun net₄ hreach₄ ⟨hsilent₄, index, bound, haimed⟩ => ?_
  refine .trans hreach₄ (hsilent₄.canReach_heard hlossless hreach₄ hpath haimed)
    fun net₅ hreach₅ ⟨index, address, hheard⟩ => ?_
  refine .trans hreach₅ (hheard.canReach_linked hlossless hreach₅ hpath)
    fun net₆ hreach₆ ⟨hprepared₆, hlinked⟩ =>
      .here fun side => ⟨hlinked.alive side, fun hside => ?_⟩
  exact hlinked.connects hlossless hreach₆ hpath (hprepared₆.tun side hside)

/-- The only socket of the client has reached its deadline; a minute later the path works. -/
theorem network_recovers_closedSocket :
    ∃ net, net.client.workers.map Worker.state = [.closed] ∧
      CanReach (network Reference.crypto onePath)
        (NetworkEvent.Steady (Timeval.ofMilliseconds 60000))
        (fun net' => ∀ side, 0 < ((net'.peer side).ctx.paths 0).alive ∧
          Connects Reference.crypto onePath side net') net := by
  have hruns : ((run (nextNetwork Reference.crypto onePath)
      ⟨vpnRun onePath.client, vpnRun onePath.server, []⟩
      (opening ++ [.client (.timeout 0 5000)])).any fun net =>
        decide (net.client.workers.map Worker.state = [.closed]) &&
          (net.client.tun.isSome && net.server.tun.isSome)) = true := by decide +kernel
  obtain ⟨net, hrun, hnet⟩ := (Option.any_eq_true _ _).mp hruns
  obtain ⟨hclosed, hreads⟩ := (Bool.and_eq_true _ _).mp hnet
  obtain ⟨hclient, hserver⟩ := (Bool.and_eq_true _ _).mp hreads
  have hinitial : (network Reference.crypto onePath).initial
      ⟨vpnRun onePath.client, vpnRun onePath.server, []⟩ := rfl
  have hreach : Reachable (network Reference.crypto onePath) net :=
    Reachable.run (fun _ _ _ => id) (.initial hinitial) hrun
  have hunderway : ∀ side, Underway (net.peer side) .tunWorker := by
    rintro (_ | _)
    · exact Or.inr (Option.isSome_iff_ne_none.mp hclient)
    · exact Or.inr (Option.isSome_iff_ne_none.mp hserver)
  refine ⟨net, of_decide_eq_true hclosed, .trans hreach (network_recovers Reference.crypto
    Reference.libraries_lossless onePath _ 0 (by decide) net hreach) fun net' _ hlinked =>
      .here fun side => ⟨(hlinked side).1, (hlinked side).2 (hunderway side)⟩⟩

end Vpn
end Muon
