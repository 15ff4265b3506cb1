import Muon.Vpn.ClockSkew
import Muon.Vpn.Tunnel

/-!
# How late a datagram may be

Client and server have clocks of their own, and nothing keeps the two together.  A
worker of the client sends under the token of the moment it was started, for the five
seconds until its deadline; the server takes the tokens of 9.5 seconds around its last
refresh.  What is left of these is what the clocks may differ and the network may take.

The runs of this module are runs of the network in which the events of each peer come
at values of its clock: the client's readings are those of its clock, a socket past its
deadline is closed after a given slack, and the server refreshes its pools within a
given gap.
-/

namespace Muon
namespace Vpn

open Foundation Packet Totp

/-! ## Runs with two clocks -/

/-- Both peers and their clocks. -/
structure TimedNetwork where
  net : Network
  /-- The clock value of the client's last event. -/
  clientClock : Nat
  /-- The clock value of the server's last event. -/
  serverClock : Nat
  /-- The last refresh of each path of the server. -/
  refreshed : Nat → Option Nat
  /-- The datagrams of the client, each with its clock value. -/
  log : List (Nat × Datagram)

/-- An event and the clock value of the peer at which it happens. -/
structure TimedNetworkEvent where
  time : Nat
  event : NetworkEvent

/-- The server with its clock. -/
def TimedNetwork.server (state : TimedNetwork) : TimedServer :=
  ⟨state.net.server, state.serverClock, state.refreshed⟩

/-- What the client reads is one clock, as the time of day and, off by `epoch`, as
`now()`. -/
def ReadsClock (epoch : Int) (time : Nat) : Event → Prop
  | .hop clock _ now => milliseconds 64 clock = time ∧ now = time + epoch ∧ 0 ≤ now ∧
      now + 5000 < 2 ^ 63
  | .timeout _ now => now = time + epoch
  | _ => True

/-- The client may take the event at this clock value: the clock does not run backwards,
and once a socket is open longer than its deadline and the slack, only timeouts come. -/
structure Punctual (epoch : Int) (slack : Nat) (state : TimedNetwork) (time : Nat)
    (event : Event) : Prop where
  mono : state.clientClock ≤ time
  reads : ReadsClock epoch time event
  due : ∀ worker ∈ state.net.client.workers, worker.state = .receiving →
    time + epoch ≤ worker.deadline + slack ∨ ∃ index now, event = .timeout index now

/-- What a step does to the clocks and to the log. -/
def Ticks (epoch : Int) (slack gap : Nat) (state : TimedNetwork) (time : Nat)
    (state' : TimedNetwork) : NetworkEvent → Prop
  | .client event => Punctual epoch slack state time event ∧ state'.clientClock = time ∧
      state'.serverClock = state.serverClock ∧ state'.refreshed = state.refreshed ∧
      state'.log = state.log ++
        (state'.net.sent.drop state.net.sent.length).map fun datagram => (time, datagram)
  | .server event => Timely gap state.server time ∧ state'.serverClock = time ∧
      Refreshes state.server time state'.refreshed event ∧
      state'.clientClock = state.clientClock ∧ state'.log = state.log

/-- The runs of both peers with their clocks. -/
def timedNetwork (crypto : Crypto) (deployment : Deployment) (epoch : Int)
    (slack gap : Nat) : TransitionSystem TimedNetwork TimedNetworkEvent where
  initial := fun state =>
    state.net = ⟨vpnRun deployment.client, vpnRun deployment.server, []⟩ ∧
      state.refreshed = (fun _ => none) ∧ state.log = []
  step := fun state timed state' =>
    nextNetwork crypto deployment state.net timed.event = some state'.net ∧
      Ticks epoch slack gap state timed.time state' timed.event

variable {crypto : Crypto} {deployment : Deployment} {epoch : Int} {slack gap : Nat}
  {net net' : Network} {state state' : TimedNetwork}

/-- Without its clocks a run is one of the network. -/
theorem network_reachable
    (hreach : Reachable (timedNetwork crypto deployment epoch slack gap) state) :
    Reachable (network crypto deployment) state.net := by
  refine hreach.map (fun state : TimedNetwork => state.net) ?_ ?_
  · rintro state ⟨hnet, -, -⟩
    exact hnet
  · rintro state ⟨time, event⟩ state' ⟨hnext, -⟩
    exact Or.inr ⟨event, hnext⟩

/-- The server by itself is in one of its timed runs. -/
theorem timedServer_reachable
    (hreach : Reachable (timedNetwork crypto deployment epoch slack gap) state) :
    Reachable (timedServer crypto deployment.server gap) state.server := by
  refine hreach.map (fun state : TimedNetwork => state.server) ?_ ?_
  · rintro state ⟨hnet, hrefreshed, -⟩
    refine ⟨?_, hrefreshed⟩
    show state.net.server = vpnRun deployment.server
    rw [hnet]
  · rintro state ⟨time, event | event⟩ state' ⟨hnext, hticks⟩
    · obtain ⟨-, outputs, -, hother, -⟩ := nextNetwork_client hnext
      obtain ⟨-, -, hclock, hrefreshed, -⟩ := hticks
      left
      simp only [TimedNetwork.server, hother, hclock, hrefreshed]
    · obtain ⟨-, outputs, hstep, -⟩ := nextNetwork_server hnext
      obtain ⟨htimely, hclock, hrefreshes, -⟩ := hticks
      exact Or.inr ⟨⟨time, event⟩, htimely, ⟨outputs, hstep⟩, hclock, hrefreshes⟩

/-! ## What the workers were started with -/

/-- The arguments of a worker, and its deadline. -/
structure Origin where
  path : Nat
  token : Int
  deadline : Int
  deriving DecidableEq, Repr

/-- The origin of a worker. -/
def Worker.origin (worker : Worker) : Origin := ⟨worker.path, worker.token, worker.deadline⟩

/-- The origins of the workers of a peer, the oldest first. -/
def origins (process : Process) : List Origin := process.workers.map Worker.origin

/-- The workers that an event starts. -/
def startedBy (crypto : Crypto) (process : Process) : Event → List Origin
  | .start _ _ _ =>
      match process.starts with
      | .udpWorker path port :: _ => [⟨path, port, -1⟩]
      | _ => []
  | .hop clock _ now =>
      process.hopNext.toList.map fun path =>
        ⟨path, totp crypto (process.ctx.paths path).portRange clock 0, toInt64 (now + 5000)⟩
  | _ => []

/-- A worker of a list is replaced by one of the same origin. -/
theorem map_origin_set {workers : List Worker} {index : Nat} {worker worker' : Worker}
    (hworker : workers[index]? = some worker) (hsame : worker'.origin = worker.origin) :
    (workers.set index worker').map Worker.origin = workers.map Worker.origin := by
  obtain ⟨hindex, rfl⟩ := List.getElem?_eq_some_iff.mp hworker
  rw [List.map_set, hsame, ← List.getElem_map Worker.origin]
  · exact List.set_getElem_self _
  · rw [List.length_map]
    exact hindex

theorem origins_bindWorker {process : Process} {index : Nat} {worker : Worker}
    (hworker : (origins process)[index]? = some worker.origin) (listen : Option IpAddr) :
    origins (bindWorker process index worker listen) = origins process := by
  obtain ⟨old, hold, horigin⟩ := List.getElem?_map .. ▸ hworker |> Option.map_eq_some_iff.mp
  cases listen with
  | none => exact map_origin_set hold horigin.symm
  | some bound => exact map_origin_set hold horigin.symm

theorem origins_startWorker (process : Process) (path : Nat) (token timeout now : Int)
    (stack : Pbuf) (listen : Option IpAddr) :
    origins (startWorker process path token timeout now stack listen) = origins process ++
      [⟨path, token, if timeout < 0 then -1 else toInt64 (now + timeout)⟩] := by
  cases hmode : process.ctx.mode with
  | client =>
      simp only [startWorker, hmode, origins, List.map_append]
      rfl
  | server =>
      simp only [startWorker, hmode]
      rw [origins_bindWorker]
      · simp only [origins, List.map_append]
        rfl
      · simp [origins, Worker.origin]

/-- **Where the workers of a peer come from.**  An event starts those of its `go` call, and
no worker ever changes its origin. -/
theorem step_origins {process process' : Process} {outputs : List Output} {event : Event}
    (hstep : step crypto process event = some (.ok (process', outputs))) :
    origins process' = origins process ++ startedBy crypto process event := by
  cases event with
  | start stack now listen =>
      obtain ⟨start, starts, hstarts, rfl, -⟩ := step_start hstep
      simp only [startedBy, hstarts]
      cases start with
      | udpWorker path port =>
          exact origins_startWorker { process with starts := starts } path port (-1) now stack
            listen
      | clientHop | tunWorker | heartbeat => exact (List.append_nil _).symm
  | hop clock stack now =>
      obtain ⟨path, hpath, -, rfl, -⟩ := step_hop hstep
      simp only [startedBy, hpath]
      exact origins_startWorker { process with hopNext := some (path + 1) } path _ 5000 now
        stack none
  | resolved index remote listen =>
      obtain ⟨worker, hworker, -, rfl, -⟩ := step_resolved hstep
      refine Eq.trans ?_ (List.append_nil _).symm
      refine origins_bindWorker ?_ listen
      rw [origins, List.getElem?_map, hworker]
      rfl
  | received index source bytes =>
      obtain ⟨worker, hworker, -, hreceive⟩ := step_received hstep
      refine Eq.trans ?_ (List.append_nil _).symm
      obtain ⟨pbuf, ⟨rfl, -⟩ | ⟨n, data, -, -, -, -, -, rfl, -⟩⟩ :=
        receiveDatagram_cases hreceive
      · exact map_origin_set hworker rfl
      · exact map_origin_set hworker rfl
  | timeout index now =>
      obtain ⟨worker, hworker, -, -, -, rfl, -⟩ := step_timeout hstep
      refine Eq.trans ?_ (List.append_nil _).symm
      unfold receiveTimeout
      split
      · rfl
      · exact map_origin_set hworker rfl
  | hopWake =>
      obtain ⟨path, -, -, rfl, -⟩ := step_hopWake hstep
      exact (List.append_nil _).symm
  | receiveError index =>
      obtain ⟨worker, -, -, rfl, -⟩ := step_receiveError hstep
      exact (List.append_nil _).symm
  | tunRead packet draws =>
      obtain ⟨pbuf, path, next, pbuf', -, -, -, -, hsend, rfl⟩ := step_tunRead hstep
      obtain ⟨-, -, hworkers⟩ := udpSender_starts hsend
      refine Eq.trans ?_ (List.append_nil _).symm
      exact congrArg (List.map Worker.origin) hworkers
  | tunReadError =>
      obtain ⟨pbuf, -, rfl, -⟩ := step_tunReadError hstep
      exact (List.append_nil _).symm
  | heartbeat readings draws =>
      obtain ⟨pbuf, ctx, pbuf', -, -, rfl⟩ := step_heartbeat hstep
      exact (List.append_nil _).symm

/-! ## When the client has started its workers -/

/-- A worker of the client has the token of a reading, and its deadline lies five seconds
after it. -/
def StartedAt (crypto : Crypto) (deployment : Deployment) (epoch : Int) (reading : Timeval)
    (origin : Origin) : Prop :=
  origin.token =
      totp crypto ((initCtx deployment.client).paths origin.path).portRange reading 0 ∧
    origin.deadline = milliseconds 64 reading + epoch + 5000

/-- `client_hop` starts a worker with the reading of the moment. -/
theorem startedAt_of_startedBy (hreach : Reachable (network crypto deployment) net)
    {time : Nat} {event : Event} (hreads : ReadsClock epoch time event)
    {origin : Origin} (hmem : origin ∈ startedBy crypto net.client event) :
    ∃ reading, StartedAt crypto deployment epoch reading origin ∧
      milliseconds 64 reading = time := by
  cases event with
  | start stack now listen =>
      -- `vpn_run` of a client starts no worker itself
      simp only [startedBy] at hmem
      split at hmem
      · next path port starts hstarts =>
          have hstart : .udpWorker path port ∈ net.client.starts := by
            rw [hstarts]
            exact List.mem_cons_self
          have hserver := (udpWorker_mem_starts
            ((starts_of_reachable (client_reachable hreach)).1 hstart)).1
          rw [deployment.client_mode] at hserver
          cases hserver
      · cases hmem
  | hop clock stack now =>
      obtain ⟨hreading, hnow, hlow, hhigh⟩ := hreads
      obtain ⟨path, -, rfl⟩ := List.mem_map.mp hmem
      refine ⟨clock, ⟨?_, ?_⟩, hreading⟩
      · rw [(client_sameConf hreach).portRange]
      · show toInt64 (now + 5000) = _
        rw [toInt64_of_fits (by omega) hhigh, hreading, hnow]
  | hopWake | resolved | received | receiveError | timeout | tunRead | tunReadError
  | heartbeat => cases hmem

/-- Every worker of the client was started at a value of its clock. -/
theorem startedAt_of_reachable
    (hreach : Reachable (timedNetwork crypto deployment epoch slack gap) state) :
    ∀ origin ∈ origins state.net.client, ∃ reading,
      StartedAt crypto deployment epoch reading origin ∧
        milliseconds 64 reading ≤ state.clientClock := by
  refine hreach.invariant (fun state => ∀ origin ∈ origins state.net.client, ∃ reading,
    StartedAt crypto deployment epoch reading origin ∧
      milliseconds 64 reading ≤ state.clientClock) ?_ ?_
  · rintro state ⟨hnet, -⟩ origin hmem
    rw [hnet] at hmem
    cases hmem
  · rintro state ⟨time, event | event⟩ state' hbefore hinv ⟨hnext, hticks⟩ origin hmem
    · obtain ⟨-, outputs, hstep, -⟩ := nextNetwork_client hnext
      obtain ⟨hpunctual, hclock, -⟩ := hticks
      rw [step_origins hstep] at hmem
      rw [hclock]
      rcases List.mem_append.mp hmem with hold | hnew
      · obtain ⟨reading, hstarted, hreading⟩ := hinv origin hold
        exact ⟨reading, hstarted, Nat.le_trans hreading hpunctual.mono⟩
      · obtain ⟨reading, hstarted, hreading⟩ :=
          startedAt_of_startedBy (network_reachable hbefore) hpunctual.reads hnew
        exact ⟨reading, hstarted, Nat.le_of_eq hreading⟩
    · obtain ⟨-, outputs, -, hother, -⟩ := nextNetwork_server hnext
      obtain ⟨-, -, -, hclock, -⟩ := hticks
      rw [hother] at hmem
      rw [hclock]
      exact hinv origin hmem

/-! ## When the client has sent its datagrams -/

/-- A datagram of the client, sent within the five seconds and the slack after the reading
that its port was computed from. -/
def SentAt (crypto : Crypto) (deployment : Deployment) (slack time : Nat) : Tag :=
  fun side path _ datagram => side = .client ∧ ∃ reading,
    milliseconds 64 reading ≤ time ∧ time ≤ milliseconds 64 reading + 5000 + slack ∧
      datagram.target = deployment.address path
        (totp crypto ((initCtx deployment.client).paths path).portRange reading 0)

/-- What the client sends at a clock value. -/
theorem sentAt_of_emitted
    (hreach : Reachable (timedNetwork crypto deployment epoch slack gap) state) {time : Nat}
    {event : Event} (hpunctual : Punctual epoch slack state time event)
    {process' : Process} {outputs : List Output}
    (hstep : step crypto state.net.client event = some (.ok (process', outputs)))
    {datagram : Datagram} (hmem : datagram ∈ outputs.filterMap (emitted state.net.client)) :
    Tagged crypto deployment (endpoints state.net.client)
      (SentAt crypto deployment slack time) datagram := by
  have hnet := network_reachable hreach
  refine client_tagged hnet hstep ?_ hmem
  intro path sock remote data worker hsend hworker hstate
  obtain ⟨worker', hworker', hpath, -, hremote⟩ :=
    (networkInv_of_reachable hnet).client_sends hnet hstep hsend
  rw [hworker] at hworker'
  cases hworker'
  have hopen : worker ∈ state.net.client.workers := List.mem_of_getElem? hworker
  obtain ⟨reading, ⟨htoken, hdeadline⟩, hreading⟩ :=
    startedAt_of_reachable hreach worker.origin (List.mem_map_of_mem hopen)
  refine ⟨rfl, reading, Nat.le_trans hreading hpunctual.mono, ?_, ?_⟩
  · rcases hpunctual.due worker hopen hstate with hdue | ⟨index, now, rfl⟩
    · have hdeadline : worker.deadline = milliseconds 64 reading + epoch + 5000 := hdeadline
      omega
    · -- nothing is sent when a worker times out
      rcases step_udpsend_cases hstep hsend with ⟨packet, draws, hcase⟩ | ⟨readings, draws, hcase⟩
      · cases hcase
      · cases hcase
  · have htoken : worker.token =
        totp crypto ((initCtx deployment.client).paths worker.path).portRange reading 0 := htoken
    rw [hremote, htoken, hpath]

/-- Everything in the log is in flight, and was sent at its clock value. -/
theorem sentAt_of_reachable
    (hreach : Reachable (timedNetwork crypto deployment epoch slack gap) state) :
    ∀ sent ∈ state.log, sent.2 ∈ state.net.sent ∧
      Tagged crypto deployment (endpoints state.net.client)
        (SentAt crypto deployment slack sent.1) sent.2 := by
  refine hreach.invariant (fun state => ∀ sent ∈ state.log, sent.2 ∈ state.net.sent ∧
    Tagged crypto deployment (endpoints state.net.client)
      (SentAt crypto deployment slack sent.1) sent.2) ?_ ?_
  · rintro state ⟨-, -, hlog⟩ sent hmem
    rw [hlog] at hmem
    cases hmem
  · rintro state ⟨time, event | event⟩ state' hbefore hinv ⟨hnext, hticks⟩ sent hmem
    · obtain ⟨hworld, outputs, hstep, -, hsent⟩ := nextNetwork_client hnext
      obtain ⟨hpunctual, -, -, -, hlog⟩ := hticks
      have hnet := network_reachable hbefore
      obtain ⟨-, hgrows⟩ := (networkInv_of_reachable hnet).client.step hnet hworld hstep
      rw [hlog, hsent, List.drop_left] at hmem
      rw [hsent]
      rcases List.mem_append.mp hmem with hold | hnew
      · obtain ⟨hflight, htagged⟩ := hinv sent hold
        exact ⟨List.mem_append_left _ hflight, htagged.mono hgrows fun _ _ _ htag => htag⟩
      · obtain ⟨datagram, hdatagram, rfl⟩ := List.mem_map.mp hnew
        exact ⟨List.mem_append_right _ hdatagram,
          (sentAt_of_emitted hbefore hpunctual hstep hdatagram).mono hgrows
            fun _ _ _ htag => htag⟩
    · obtain ⟨-, outputs, -, hother, hsent⟩ := nextNetwork_server hnext
      obtain ⟨-, -, -, -, hlog⟩ := hticks
      rw [hlog] at hmem
      rw [hother, hsent]
      obtain ⟨hflight, htagged⟩ := hinv sent hmem
      exact ⟨List.mem_append_left _ hflight, htagged⟩

/-! ## The ports of the server -/

/-- Only a `go` call of `vpn_run` takes one from those ahead. -/
theorem step_starts_eq {process process' : Process} {outputs : List Output} {event : Event}
    (hstep : step crypto process event = some (.ok (process', outputs)))
    (hother : ∀ stack now listen, event ≠ .start stack now listen) :
    process'.starts = process.starts := by
  cases event with
  | start stack now listen => exact absurd rfl (hother stack now listen)
  | hop clock stack now =>
      obtain ⟨path, -, -, rfl, -⟩ := step_hop hstep
      exact (startWorker_starts _ _ _ _ _ _ _).1
  | hopWake =>
      obtain ⟨path, -, -, rfl, -⟩ := step_hopWake hstep
      rfl
  | resolved index remote listen =>
      obtain ⟨worker, -, -, rfl, -⟩ := step_resolved hstep
      exact (bindWorker_starts _ _ _ _).1
  | received index source bytes =>
      obtain ⟨worker, -, -, hreceive⟩ := step_received hstep
      obtain ⟨pbuf, ⟨rfl, -⟩ | ⟨n, data, -, -, -, -, -, rfl, -⟩⟩ :=
        receiveDatagram_cases hreceive
      · rfl
      · rfl
  | receiveError index =>
      obtain ⟨worker, -, -, rfl, -⟩ := step_receiveError hstep
      rfl
  | timeout index now =>
      obtain ⟨worker, -, -, -, -, rfl, -⟩ := step_timeout hstep
      unfold receiveTimeout
      split <;> rfl
  | tunRead packet draws =>
      obtain ⟨pbuf, path, next, pbuf', -, -, -, -, hsend, rfl⟩ := step_tunRead hstep
      exact (udpSender_starts hsend).1
  | tunReadError =>
      obtain ⟨pbuf, -, rfl, -⟩ := step_tunReadError hstep
      rfl
  | heartbeat readings draws =>
      obtain ⟨pbuf, ctx, pbuf', -, -, rfl⟩ := step_heartbeat hstep
      rfl

/-- A worker that `vpn_run` starts is ahead, or has been started. -/
theorem udpWorker_started {conf : Conf} {process : Process}
    (hreach : Reachable (peer crypto conf) process) {path : Nat} {port : Int}
    (hmem : .udpWorker path port ∈ (vpnRun conf).starts) :
    .udpWorker path port ∈ process.starts ∨ ⟨path, port, -1⟩ ∈ origins process := by
  refine hreach.invariant (fun process => .udpWorker path port ∈ process.starts ∨
    ⟨path, port, -1⟩ ∈ origins process) ?_ ?_
  · rintro process rfl
    exact Or.inl hmem
  · rintro process event process' - hinv ⟨outputs, hstep⟩
    rw [step_origins hstep]
    rcases hinv with hahead | hstarted
    · cases event with
      | start stack now listen =>
          obtain ⟨start, starts, hstarts, rfl, -⟩ := step_start hstep
          simp only [startedBy, hstarts]
          rw [hstarts] at hahead
          rcases List.mem_cons.mp hahead with rfl | hlater
          · exact Or.inr (List.mem_append_right _ (List.mem_singleton.mpr rfl))
          · left
            cases start with
            | udpWorker path' port' =>
                simp only [runStart, startWorker_starts]
                exact hlater
            | clientHop | tunWorker | heartbeat => exact hlater
      | hop | hopWake | resolved | received | receiveError | timeout | tunRead
      | tunReadError | heartbeat =>
          left
          rw [step_starts_eq hstep (fun _ _ _ heq => by cases heq)]
          exact hahead
    · exact Or.inr (List.mem_append_left _ hstarted)

/-- `vpn_run` of the server starts a worker for every port. -/
theorem udpWorker_ahead (deployment : Deployment) {path : Nat} {token : Int}
    (hrange : InRange deployment.client path token) :
    .udpWorker path token ∈ (vpnRun deployment.server).starts := by
  obtain ⟨hpath, hlow, hhigh⟩ := hrange
  simp only [vpnRun, deployment.server_mode, List.mem_append, List.mem_flatMap, List.mem_map,
    List.mem_range]
  left
  refine ⟨path, ?_, token.toNat, ?_, ?_⟩
  · rw [deployment.same_paths]
    exact hpath
  · rw [deployment.initCtx_server]
    omega
  · rw [Int.toNat_of_nonneg hlow]

/-- **Every port of the server is open** once `vpn_run` has made its `go` calls. -/
theorem exists_server_worker (hreach : Reachable (network crypto deployment) net)
    (hstarted : net.server.starts = []) {path : Nat} {token : Int}
    (hrange : InRange deployment.client path token) :
    ∃ (index : Nat) (worker : Worker), net.server.workers[index]? = some worker ∧
      worker.state = .receiving ∧ worker.path = path ∧ worker.token = token ∧
      worker.bound = deployment.address path token := by
  have hmem := udpWorker_ahead deployment hrange
  rcases udpWorker_started (server_reachable hreach) hmem with hahead | horigin
  · rw [hstarted] at hahead
    cases hahead
  · obtain ⟨worker, hworker, horigin⟩ := List.mem_map.mp horigin
    obtain ⟨rfl, rfl, -⟩ := Origin.mk.inj horigin
    obtain ⟨index, hindex⟩ := List.getElem?_of_mem hworker
    have hbound := (networkInv_of_reachable hreach).server.bound _ (endpoint_mem hindex)
    obtain ⟨hstate, haddress⟩ := server_worker_receiving deployment.server_mode
      (server_reachable hreach) hindex hbound
    exact ⟨index, worker, hindex, hstate, rfl, rfl, haddress⟩

/-! ## What the server takes -/

/-- The scan accepts the token of a reading that is close enough to the clock value of the
server. -/
theorem scan_of_close
    (hreach : Reachable (timedNetwork crypto deployment epoch slack gap) state) {path : Nat}
    (hrefreshed : state.refreshed path ≠ none) {time : Nat}
    (htimely : Timely gap state.server time) (reading : Timeval)
    (hbehind : time ≤ milliseconds 64 reading + 9500)
    (hahead : milliseconds 64 reading + gap ≤ time + 9500) :
    tokenAccepted (state.net.server.ctx.paths path).validTokens
      (totp crypto ((initCtx deployment.client).paths path).portRange reading 0) = true := by
  obtain ⟨last, hlast⟩ := Option.ne_none_iff_exists'.mp hrefreshed
  obtain ⟨hhigh, tv, htv, haccepts⟩ :=
    poolsFresh_of_reachable (timedServer_reachable hreach) path last hlast
  have hgap := htimely.fresh path last hlast
  have hmono := htimely.mono
  have hclock : last ≤ state.server.clock := hhigh
  have hrange := (sameConf_of_reachable (server_reachable (network_reachable hreach))).portRange
    path
  rw [deployment.initCtx_server] at hrange
  refine haccepts _ ?_
  show InWindow crypto (state.net.server.ctx.paths path).portRange tv _
  rw [hrange]
  exact inWindow_of_close _ (by omega) (by omega)

/-- **What hopping tolerates.**  In every run with two clocks, once the server has made its
`go` calls: a datagram that the client sent at a value of its clock arrives at an open
socket of the server, and is accepted at every clock value of the server that is at most
4.5 seconds less the slack later and at most 9.5 seconds less the gap earlier.  Its packet
is written to the TUN device, and the server answers to where it came from. -/
theorem network_toleratesSkew (crypto : Crypto) (hlossless : crypto.libraries.Lossless)
    (deployment : Deployment) (epoch : Int) (slack gap : Nat) (state : TimedNetwork)
    (hreach : Reachable (timedNetwork crypto deployment epoch slack gap) state)
    (hstarted : state.net.server.starts = []) (sent : Nat) (datagram : Datagram)
    (hlog : (sent, datagram) ∈ state.log) :
    ∃ (index : Nat) (worker : Worker), state.net.server.workers[index]? = some worker ∧
      worker.state = .receiving ∧ worker.bound = datagram.target ∧
      ∀ time, Timely gap state.server time → state.refreshed worker.path ≠ none →
        time + slack ≤ sent + 4500 → sent + gap ≤ time + 9500 →
        ∃ packet state',
          CarriesPacket crypto worker.token deployment.client.mtu packet datagram.bytes ∧
          (timedNetwork crypto deployment epoch slack gap).step state
            ⟨time, .server (.received index datagram.source datagram.bytes)⟩ state' ∧
          tunEvents crypto ⟨state.net, .server (.received index datagram.source
              datagram.bytes), state'.net⟩ =
            (if packet = [] then [] else [.write .server packet]) ∧
          (state'.net.server.ctx.paths worker.path).alive = 5 ∧
          (state'.net.server.ctx.paths worker.path).sock = some index ∧
          (state'.net.server.ctx.paths worker.path).remote = datagram.source ∧
          (state'.net.server.ctx.paths worker.path).token = worker.token := by
  have hnet := network_reachable hreach
  obtain ⟨hflight, side, path, token, address, packet, hsocket, -, htag, hends⟩ :=
    sentAt_of_reachable hreach _ hlog
  obtain ⟨rfl, reading, hlow, hhigh, htarget⟩ := htag
  obtain ⟨-, haddress⟩ := hends
  obtain ⟨e, he, rfl, rfl, -⟩ := hsocket
  obtain ⟨index, worker, hworker, hstate, hpath, htoken, hbound⟩ := exists_server_worker hnet
    hstarted ((networkInv_of_reachable hnet).client.inRange e he)
  have htarget' : datagram.target = worker.bound := haddress.trans hbound.symm
  refine ⟨index, worker, hworker, hstate, htarget'.symm, ?_⟩
  intro time htimely hrefreshed hlate hearly
  -- the port names one token of the path
  have hreading : worker.token =
      totp crypto ((initCtx deployment.client).paths worker.path).portRange reading 0 := by
    have hport := congrArg IpAddr.port (haddress.symm.trans htarget)
    simp only [Deployment.address, serverAddress] at hport
    rw [htoken, hpath]
    omega
  have hscan := scan_of_close hreach hrefreshed htimely reading (by omega) (by omega)
  rw [← hreading] at hscan
  have hsent : ⟨datagram.source, worker.bound, datagram.bytes⟩ ∈ state.net.sent := by
    rw [← htarget']
    exact hflight
  obtain ⟨packet, net', hcarries, hnext, -, haccepted⟩ :=
    delivers_server hlossless hnet hworker hstate hsent
  obtain ⟨hwrites, halive, hsock, hremote, htokenNow⟩ := haccepted hscan
  exact ⟨packet, ⟨net', state.clientClock, time, state.refreshed, state.log⟩, hcarries,
    ⟨hnext, htimely, rfl, rfl, rfl, rfl⟩, hwrites, halive, hsock, hremote, htokenNow⟩

/-! ## A heartbeat that takes its time -/

/-- Everything so far has happened at one clock value of both peers, and only the client
has sent. -/
structure AllAt (epoch : Int) (time : Nat) (state : TimedNetwork) : Prop where
  clientClock : state.clientClock = time
  serverClock : state.serverClock = time
  refreshed : state.refreshed = fun _ => none
  log : state.log = state.net.sent.map fun datagram => (time, datagram)
  deadline : ∀ origin ∈ origins state.net.client, time + epoch ≤ origin.deadline

/-- The event can come at the clock value: the client reads it, and `vpn_run` of the
server makes a `go` call. -/
def ComesAt (epoch : Int) (time : Nat) : NetworkEvent → Prop
  | .client event => ReadsClock epoch time event
  | .server event => ∃ stack now listen, event = .start stack now listen

theorem exists_allAt_step (hreach : Reachable (timedNetwork crypto deployment epoch slack gap)
    state) {time : Nat} (hall : AllAt epoch time state) {event : NetworkEvent}
    (hcomes : ComesAt epoch time event)
    (hnext : nextNetwork crypto deployment state.net event = some net') :
    ∃ state', Reachable (timedNetwork crypto deployment epoch slack gap) state' ∧
      AllAt epoch time state' ∧ state'.net = net' := by
  cases event with
  | client event =>
      obtain ⟨-, outputs, hstep, -, hsent⟩ := nextNetwork_client hnext
      have hpunctual : Punctual epoch slack state time event := by
        refine ⟨Nat.le_of_eq hall.clientClock, hcomes, fun worker hmem _ => Or.inl ?_⟩
        have hdeadline : time + epoch ≤ worker.deadline :=
          hall.deadline worker.origin (List.mem_map_of_mem hmem)
        omega
      let state' : TimedNetwork := ⟨net', time, state.serverClock, state.refreshed, state.log ++
        (net'.sent.drop state.net.sent.length).map fun datagram => (time, datagram)⟩
      have htimed : (timedNetwork crypto deployment epoch slack gap).step state
          ⟨time, .client event⟩ state' := ⟨hnext, hpunctual, rfl, rfl, rfl, rfl⟩
      refine ⟨state', .step hreach htimed, ⟨rfl, hall.serverClock, hall.refreshed, ?_, ?_⟩, rfl⟩
      · show _ = net'.sent.map _
        simp only [state', hall.log, hsent, List.drop_left, List.map_append]
      · intro origin hmem
        rw [step_origins hstep] at hmem
        rcases List.mem_append.mp hmem with hold | hnew
        · exact hall.deadline origin hold
        · obtain ⟨reading, hstarted, hreading⟩ :=
            startedAt_of_startedBy (network_reachable hreach) hcomes hnew
          have hdeadline := hstarted.2
          omega
  | server event =>
      obtain ⟨-, outputs, hstep, hother, hsent⟩ := nextNetwork_server hnext
      obtain ⟨stack, now, listen, rfl⟩ := hcomes
      obtain ⟨-, -, -, -, rfl⟩ := step_start hstep
      have htimely : Timely gap state.server time := by
        refine ⟨Nat.le_of_eq hall.serverClock, fun path last hlast => ?_⟩
        have hnone : state.server.refreshed path = none := congrFun hall.refreshed path
        rw [hnone] at hlast
        cases hlast
      let state' : TimedNetwork := ⟨net', state.clientClock, time, state.refreshed, state.log⟩
      have htimed : (timedNetwork crypto deployment epoch slack gap).step state
          ⟨time, .server (.start stack now listen)⟩ state' :=
        ⟨hnext, htimely, rfl, rfl, rfl, rfl⟩
      refine ⟨state', .step hreach htimed, ⟨hall.clientClock, rfl, hall.refreshed, ?_, ?_⟩, rfl⟩
      · show state.log = net'.sent.map _
        rw [hall.log, hsent, List.filterMap_nil, List.append_nil]
      · show ∀ origin ∈ origins net'.client, _
        rw [hother]
        exact hall.deadline

/-- A run at one clock value. -/
theorem exists_allAt_run {events : List NetworkEvent} {final : Network} {time : Nat}
    (hreach : Reachable (timedNetwork crypto deployment epoch slack gap) state)
    (hall : AllAt epoch time state) (hcomes : ∀ event ∈ events, ComesAt epoch time event)
    (hrun : run (nextNetwork crypto deployment) state.net events = some final) :
    ∃ state', Reachable (timedNetwork crypto deployment epoch slack gap) state' ∧
      AllAt epoch time state' ∧ state'.net = final := by
  induction events generalizing state with
  | nil =>
      cases hrun
      exact ⟨state, hreach, hall, rfl⟩
  | cons event events ih =>
      obtain ⟨hfirst, hrest⟩ := List.forall_mem_cons.mp hcomes
      simp only [run] at hrun
      split at hrun
      · cases hrun
      · next net' hnext =>
          obtain ⟨state', hreach', hall', rfl⟩ := exists_allAt_step hreach hall hfirst hnext
          exact ih hreach' hall' hrest hrun

/-- The server refreshes its pools at ten seconds. -/
def firstRefresh : NetworkEvent :=
  .server (.heartbeat (fun _ _ => Timeval.ofMilliseconds 10000) fun _ => Reference.zeroDraws)

/-- Both peers have started, the client has sent a heartbeat, and the server has refreshed
its pools. -/
theorem exists_refreshed :
    ∃ net net' datagram, run (nextNetwork Reference.crypto onePath)
        ⟨vpnRun onePath.client, vpnRun onePath.server, []⟩ opening = some net ∧
      nextNetwork Reference.crypto onePath net firstRefresh = some net' ∧
      datagram ∈ net.sent ∧ net.server.ctx.pathCount = 1 ∧ net'.server.starts = [] ∧
      ∀ worker ∈ net'.server.workers, worker.path = 0 := by
  have hruns : ((run (nextNetwork Reference.crypto onePath)
      ⟨vpnRun onePath.client, vpnRun onePath.server, []⟩ opening).any fun net =>
        (nextNetwork Reference.crypto onePath net firstRefresh).any fun net' =>
          decide (net.sent ≠ [] ∧ net.server.ctx.pathCount = 1 ∧
            net'.server.starts.isEmpty = true ∧
            ∀ worker ∈ net'.server.workers, worker.path = 0)) = true := by decide +kernel
  obtain ⟨net, hrun, hrest⟩ := (Option.any_eq_true _ _).mp hruns
  obtain ⟨net', hnext, hfacts⟩ := (Option.any_eq_true _ _).mp hrest
  obtain ⟨hsent, hcount, hstarts, hworkers⟩ := of_decide_eq_true hfacts
  obtain ⟨datagram, hmem⟩ := List.exists_mem_of_ne_nil _ hsent
  exact ⟨net, net', datagram, hrun, hnext, hmem, hcount, List.isEmpty_iff.mp hstarts, hworkers⟩

/-- A heartbeat of 10.0 s arrives at 10.6 s after a refresh at 10.0 s. -/
theorem network_toleratesSkew_heartbeat :
    ∃ state state' index path datagram, (10000, datagram) ∈ state.log ∧
      (timedNetwork Reference.crypto onePath (-10000) 100 665).step state
        ⟨10600, .server (.received index datagram.source datagram.bytes)⟩ state' ∧
      (state'.net.server.ctx.paths path).alive = 5 := by
  obtain ⟨net, net', datagram, hrun, hnext, hsent, hcount, hstarts, hworkers⟩ :=
    exists_refreshed
  have hreading : milliseconds 64 (Timeval.ofMilliseconds 10000) = 10000 := by decide
  -- everything up to the refresh happens at ten seconds
  let first : TimedNetwork :=
    ⟨⟨vpnRun onePath.client, vpnRun onePath.server, []⟩, 10000, 10000, fun _ => none, []⟩
  have hinitial : (timedNetwork Reference.crypto onePath (-10000) 100 665).initial first :=
    ⟨rfl, rfl, rfl⟩
  have hcomes : ∀ event ∈ opening, ComesAt (-10000) 10000 event := by
    have hstart : ∀ listen, ComesAt (-10000) 10000
        (.server (.start (Reference.bufferOf []) 0 listen)) := fun _ => ⟨_, _, _, rfl⟩
    simp only [opening, List.forall_mem_cons]
    exact ⟨trivial, trivial, trivial, ⟨hreading, by decide, by decide, by decide⟩, trivial,
      trivial, hstart _, hstart _, hstart _, fun _ hmem => absurd hmem List.not_mem_nil⟩
  obtain ⟨state, hreach, hall, rfl⟩ := exists_allAt_run (.initial hinitial)
    ⟨rfl, rfl, rfl, rfl, fun origin hmem => absurd hmem List.not_mem_nil⟩ hcomes hrun
  let after : TimedNetwork := ⟨net', state.clientClock, 10000, fun path =>
    if path < state.net.server.ctx.pathCount then some 10000 else none, state.log⟩
  have htimely : Timely 665 state.server 10000 := by
    refine ⟨Nat.le_of_eq hall.serverClock, fun path last hlast => ?_⟩
    rw [show state.server.refreshed path = none from congrFun hall.refreshed path] at hlast
    cases hlast
  have hrefresh : (timedNetwork Reference.crypto onePath (-10000) 100 665).step state
      ⟨10000, firstRefresh⟩ after := by
    refine ⟨hnext, htimely, rfl, ⟨fun _ => Timeval.ofMilliseconds 10000, ⟨fun _ _ => rfl,
      fun _ => ?_, fun _ => Nat.le_of_eq hreading⟩, ?_⟩, rfl, rfl⟩
    · rw [hreading]
      exact Nat.le_of_eq hall.serverClock
    · simp only [after, TimedNetwork.server, hall.refreshed, hreading]
  have hlog : (10000, datagram) ∈ state.log := by
    rw [hall.log]
    exact List.mem_map_of_mem hsent
  obtain ⟨index, worker, hworker, -, -, htakes⟩ := network_toleratesSkew Reference.crypto
    Reference.libraries_lossless onePath (-10000) 100 665 after (.step hreach hrefresh) hstarts
    10000 datagram hlog
  have hlater : Timely 665 after.server 10600 := by
    refine ⟨Nat.le_add_right 10000 600, fun path last hlast => ?_⟩
    simp only [after, TimedNetwork.server] at hlast
    split at hlast
    · cases hlast
      decide
    · cases hlast
  have hrefreshed : after.refreshed worker.path ≠ none := by
    rw [hworkers worker (List.mem_of_getElem? hworker)]
    simp only [after, hcount]
    decide
  obtain ⟨packet, state', -, hstep, -, halive, -⟩ :=
    htakes 10600 hlater hrefreshed (by decide) (by decide)
  exact ⟨after, state', index, worker.path, datagram, hlog, hstep, halive⟩

end Vpn
end Muon
