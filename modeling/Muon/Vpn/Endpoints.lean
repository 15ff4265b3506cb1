import Muon.Vpn.Sockets
import Muon.Vpn.Startup

/-!
# The endpoints of a peer

An endpoint is what the other side can know of a worker: what it was started
with, and the address of its socket once that is bound.  Deadlines, buffers and
whether the socket has been closed since are forgotten.

Every event keeps the endpoints and the triples of the paths, or starts an
endpoint, or binds one, or accepts a datagram at one.
-/

namespace Muon
namespace Vpn

open Foundation Packet Totp

/-- A worker as the other side can know it. -/
structure Endpoint where
  path : Nat
  token : Int
  port : Int
  bound : Option IpAddr

/-- The endpoint of a worker.  A closed socket keeps its address. -/
def Worker.endpoint (worker : Worker) : Endpoint where
  path := worker.path
  token := worker.token
  port := worker.port
  bound :=
    match worker.state with
    | .resolving | .failed => none
    | .receiving | .closed => some worker.bound

/-- The endpoints of a peer, in the order of its workers. -/
def endpoints (process : Process) : List Endpoint := process.workers.map Worker.endpoint

variable {crypto : Crypto} {process process' : Process} {outputs : List Output}

theorem endpoints_getElem? {index : Nat} {worker : Worker}
    (hworker : process.workers[index]? = some worker) :
    (endpoints process)[index]? = some worker.endpoint := by
  rw [endpoints, List.getElem?_map, hworker]
  rfl

theorem endpoint_mem {index : Nat} {worker : Worker}
    (hworker : process.workers[index]? = some worker) :
    worker.endpoint ∈ endpoints process :=
  List.mem_of_getElem? (endpoints_getElem? hworker)

/-- Every endpoint is that of a worker. -/
theorem exists_worker_of_endpoint {index : Nat} {e : Endpoint}
    (hendpoint : (endpoints process)[index]? = some e) :
    ∃ worker, process.workers[index]? = some worker ∧ worker.endpoint = e := by
  rw [endpoints, List.getElem?_map] at hendpoint
  exact Option.map_eq_some_iff.mp hendpoint

theorem endpoint_bound_receiving {worker : Worker} (hstate : worker.state = .receiving) :
    worker.endpoint.bound = some worker.bound := by
  simp [Worker.endpoint, hstate]

/-- A worker replaced by one with the same endpoint. -/
theorem map_endpoint_set {workers : List Worker} {index : Nat} {worker worker' : Worker}
    (hworker : workers[index]? = some worker) (hsame : worker'.endpoint = worker.endpoint) :
    (workers.set index worker').map Worker.endpoint = workers.map Worker.endpoint := by
  rw [List.map_set, hsame]
  refine List.ext_getElem? fun i => ?_
  rw [List.getElem?_set]
  split
  · next heq =>
      subst heq
      split
      · rw [List.getElem?_map, hworker]
        rfl
      · next hlength =>
          rw [List.length_map] at hlength
          rw [List.getElem?_eq_none (by simpa using hlength)]
  · rfl

/-! ## The events that keep everything -/

/-- The events that start a worker, or that a worker can answer. -/
def Event.Works : Event → Prop
  | .start .. | .hop .. | .resolved .. | .received .. => True
  | _ => False

/-- All other events keep endpoints and triples and revive no path. -/
theorem step_kept {event : Event}
    (hstep : step crypto process event = some (.ok (process', outputs)))
    (hother : ¬ event.Works) (hmtu : 0 ≤ process.ctx.mtu) :
    endpoints process' = endpoints process ∧ SameSockets process.ctx process'.ctx := by
  cases event with
  | start | hop | resolved | received => exact absurd trivial hother
  | hopWake =>
      obtain ⟨path, -, -, rfl, -⟩ := step_hopWake hstep
      exact ⟨rfl, .refl _⟩
  | receiveError index =>
      obtain ⟨worker, -, -, rfl, -⟩ := step_receiveError hstep
      exact ⟨rfl, .refl _⟩
  | timeout index now =>
      obtain ⟨worker, hworker, hstate, -, -, rfl, -⟩ := step_timeout hstep
      unfold receiveTimeout
      split
      · exact ⟨rfl, .refl _⟩
      · refine ⟨map_endpoint_set hworker ?_, .refl _⟩
        simp [Worker.endpoint, hstate]
  | tunRead packet draws =>
      obtain ⟨pbuf, path, next, pbuf', -, -, -, -, hsend, rfl⟩ := step_tunRead hstep
      obtain ⟨-, -, hworkers⟩ := udpSender_starts hsend
      have hsame : SameSockets process.ctx next.ctx := udpSender_sameSockets hsend
      exact ⟨congrArg (List.map Worker.endpoint) hworkers, hsame⟩
  | tunReadError =>
      obtain ⟨pbuf, -, rfl, -⟩ := step_tunReadError hstep
      exact ⟨rfl, .refl _⟩
  | heartbeat readings draws =>
      obtain ⟨pbuf, ctx, pbuf', -, hround, rfl⟩ := step_heartbeat hstep
      have hsame := (heartbeatPaths_sockets crypto readings draws
        (List.range process.ctx.pathCount) process.ctx pbuf hmtu).1
      rw [hround] at hsame
      exact ⟨rfl, hsame⟩

/-! ## The events of workers -/

/-- `port_start + token`, in `int`. -/
def workerPort (ctx : Ctx) (path : Nat) (token : Int) : Int :=
  toInt32 ((ctx.paths path).portStart + token)

/-- A client worker starts unbound and writes nothing. -/
theorem startWorker_client (process : Process) (hmode : process.ctx.mode = .client) (path : Nat)
    (token timeout now : Int) (stack : Pbuf) (listen : Option IpAddr) :
    endpoints (startWorker process path token timeout now stack listen) =
        endpoints process ++ [⟨path, token, workerPort process.ctx path token, none⟩] ∧
      (startWorker process path token timeout now stack listen).ctx = process.ctx := by
  simp only [startWorker, hmode, and_true]
  simp [endpoints, Worker.endpoint, workerPort]

/-- A server worker binds its socket at once, and leaves its path dead. -/
theorem startWorker_server (process : Process) (hmode : process.ctx.mode = .server) (path : Nat)
    (token timeout now : Int) (stack : Pbuf) (listen : Option IpAddr) :
    let process' := startWorker process path token timeout now stack listen
    endpoints process' =
        endpoints process ++ [⟨path, token, workerPort process.ctx path token, listen⟩] ∧
      (process'.ctx.paths path).alive = 0 ∧
      ∀ i, i ≠ path → process'.ctx.paths i = process.ctx.paths i := by
  simp only [startWorker, hmode]
  cases listen with
  | none =>
      refine ⟨?_, ?_, fun i hne => ?_⟩
      · simp [bindWorker, endpoints, Worker.endpoint, workerPort]
      · simp [bindWorker]
      · simp [bindWorker, hne]
  | some bound =>
      refine ⟨?_, ?_, fun i hne => ?_⟩
      · simp [bindWorker, endpoints, Worker.endpoint, workerPort]
      · simp [bindWorker]
      · simp [bindWorker, hne]

/-- A client worker that binds its socket takes over its path. -/
theorem resolveWorker_bound (process : Process) (index : Nat) (worker : Worker)
    (remote bound : IpAddr) :
    let process' := resolveWorker process index worker remote (some bound)
    endpoints process' =
        (endpoints process).set index { worker.endpoint with bound := some bound } ∧
      (process'.ctx.paths worker.path).sock = some index ∧
      (process'.ctx.paths worker.path).remote = remote ∧
      (process'.ctx.paths worker.path).token = worker.token ∧
      ∀ i, i ≠ worker.path → process'.ctx.paths i = process.ctx.paths i := by
  simp only [resolveWorker, bindWorker, endpoints, List.map_set]
  refine ⟨by simp [Worker.endpoint], by simp, by simp, by simp, fun i hne => ?_⟩
  simp [hne]

/-- In both modes an accepted datagram renews its path and leaves the others alone. -/
theorem acceptDatagram_alive (ctx : Ctx) (index : Nat) (worker : Worker) (source : IpAddr)
    (n : Int) :
    ((acceptDatagram ctx index worker source n).paths worker.path).alive = 5 ∧
      ∀ i, i ≠ worker.path →
        (acceptDatagram ctx index worker source n).paths i = ctx.paths i := by
  constructor
  · simp [acceptDatagram]
  · intro i hne
    cases hmode : ctx.mode <;> simp [acceptDatagram, countReceived, hmode, hne]

/-- A client keeps its triples when it accepts a datagram. -/
theorem acceptDatagram_client {ctx : Ctx} (hmode : ctx.mode = .client) (index : Nat)
    (worker : Worker) (source : IpAddr) (n : Int) :
    SameTriples ctx (acceptDatagram ctx index worker source n) := by
  have hcounters : SameTriples ctx (countReceived ctx n) :=
    ⟨fun _ => rfl, fun _ => rfl, fun _ => rfl⟩
  have hcountedMode : (countReceived ctx n).mode = .client := hmode
  simp only [acceptDatagram, hcountedMode]
  refine hcounters.trans (sameTriples_updatePath _ _ ?_)
  exact fun _ => ⟨rfl, rfl, rfl⟩

/-- A server answers on the socket, and with the token, of the worker that
accepted the last datagram, to where it came from. -/
theorem acceptDatagram_server {ctx : Ctx} (hmode : ctx.mode = .server) (index : Nat)
    (worker : Worker) (source : IpAddr) (n : Int) :
    let ctx' := acceptDatagram ctx index worker source n
    (ctx'.paths worker.path).sock = some index ∧
      (ctx'.paths worker.path).remote = source ∧
      (ctx'.paths worker.path).token = worker.token ∧
      ∀ i, i ≠ worker.path → ctx'.paths i = ctx.paths i := by
  have hcountedMode : (countReceived ctx n).mode = .server := hmode
  simp only [acceptDatagram, hcountedMode]
  refine ⟨by simp, by simp, by simp, fun i hne => ?_⟩
  simp [hne, countReceived]

/-! ## Server sockets stay open -/

/-- A worker without a deadline that has not closed its socket. -/
def Worker.Permanent (worker : Worker) : Prop :=
  worker.deadline = -1 ∧ worker.state ≠ .closed

/-- A worker of a server: without a deadline, and past its `udplisten`. -/
def Worker.Settled (worker : Worker) : Prop :=
  worker.deadline = -1 ∧ (worker.state = .receiving ∨ worker.state = .failed)

theorem Worker.Settled.permanent {worker : Worker} (hsettled : worker.Settled) :
    worker.Permanent := by
  refine ⟨hsettled.1, fun hclosed => ?_⟩
  rcases hsettled.2 with hstate | hstate <;> rw [hstate] at hclosed <;> cases hclosed

/-- A worker of a list is replaced by a settled one. -/
theorem settled_set {workers : List Worker} {index : Nat} {worker' : Worker}
    (hall : ∀ worker ∈ workers, worker.Settled) (hnew : worker'.Settled) :
    ∀ worker ∈ workers.set index worker', worker.Settled := by
  intro worker hmem
  rcases List.mem_or_eq_of_mem_set hmem with hold | rfl
  · exact hall worker hold
  · exact hnew

/-- `vpn_run` of a server starts its workers without a deadline, and none of them
waits for a name. -/
theorem settled_startWorker (process : Process) (hmode : process.ctx.mode = .server)
    (path : Nat) (token now : Int) (stack : Pbuf) (listen : Option IpAddr)
    (hall : ∀ worker ∈ process.workers, worker.Settled) :
    ∀ worker ∈ (startWorker process path token (-1) now stack listen).workers,
      worker.Settled := by
  simp only [startWorker, hmode]
  -- The worker that `bindWorker` leaves replaces the one appended last.
  have hlast : ∀ (worker bound : Worker), bound.Settled →
      ∀ worker' ∈ (process.workers ++ [worker]).set process.workers.length bound,
        worker'.Settled := by
    intro worker bound hbound worker' hmem
    rw [List.set_append_right _ _ (Nat.le_refl _), Nat.sub_self] at hmem
    rcases List.mem_append.mp hmem with hold | hnew
    · exact hall worker' hold
    · rw [List.mem_singleton.mp hnew]
      exact hbound
  cases listen with
  | none => exact hlast _ _ ⟨rfl, Or.inr rfl⟩
  | some bound => exact hlast _ _ ⟨rfl, Or.inl rfl⟩

/-- Every worker of a server is receiving or has failed to bind, for good. -/
theorem settled_of_reachable {conf : Conf} (hmode : conf.mode = .server)
    (hreach : Reachable (peer crypto conf) process) :
    ∀ worker ∈ process.workers, worker.Settled := by
  refine hreach.invariant
    (fun process => ∀ worker ∈ process.workers, worker.Settled) ?_ ?_
  · rintro process rfl worker hmem
    cases hmem
  · rintro process event process' hreach hall ⟨outputs, hstep⟩
    have hserver : process.ctx.mode = .server :=
      (sameConf_of_reachable hreach).mode.trans hmode
    have hget : ∀ {index : Nat} {worker : Worker},
        process.workers[index]? = some worker → worker.Settled :=
      fun hworker => hall _ (List.mem_of_getElem? hworker)
    cases event with
    | start stack now listen =>
        obtain ⟨start, starts, -, rfl, -⟩ := step_start hstep
        cases start with
        | udpWorker path port =>
            exact settled_startWorker { process with starts := starts } hserver path port
              now stack listen hall
        | clientHop => exact hall
        | tunWorker => exact hall
        | heartbeat => exact hall
    | hop clock stack now =>
        obtain ⟨path, hhop, -⟩ := step_hop hstep
        rw [(starts_of_reachable hreach).2 (clientHop_not_mem_starts hmode)] at hhop
        cases hhop
    | hopWake =>
        obtain ⟨path, -, -, rfl, -⟩ := step_hopWake hstep
        exact hall
    | resolved index remote listen =>
        obtain ⟨worker, hworker, hstate, -, -⟩ := step_resolved hstep
        rcases (hget hworker).2 with hsettled | hsettled <;>
          rw [hstate] at hsettled <;> cases hsettled
    | received index source bytes =>
        obtain ⟨worker, hworker, -, hreceive⟩ := step_received hstep
        have hold := hget hworker
        obtain ⟨pbuf, ⟨rfl, -⟩ | ⟨n, data, -, -, -, -, -, rfl, -⟩⟩ :=
          receiveDatagram_cases hreceive
        · exact settled_set hall hold
        · exact settled_set hall hold
    | receiveError index =>
        obtain ⟨worker, -, -, rfl, -⟩ := step_receiveError hstep
        exact hall
    | timeout index now =>
        obtain ⟨worker, hworker, -, hdeadline, -⟩ := step_timeout hstep
        have hold := (hget hworker).1
        omega
    | tunRead packet draws =>
        obtain ⟨pbuf, path, next, pbuf', -, -, -, -, hsend, rfl⟩ := step_tunRead hstep
        obtain ⟨-, -, hworkers⟩ := udpSender_starts hsend
        rw [hworkers]
        exact hall
    | tunReadError =>
        obtain ⟨pbuf, -, rfl, -⟩ := step_tunReadError hstep
        exact hall
    | heartbeat readings draws =>
        obtain ⟨pbuf, ctx, pbuf', -, -, rfl⟩ := step_heartbeat hstep
        exact hall

/-- No worker of a server ever closes its socket. -/
theorem permanent_of_reachable {conf : Conf} (hmode : conf.mode = .server)
    (hreach : Reachable (peer crypto conf) process) :
    ∀ worker ∈ process.workers, worker.Permanent :=
  fun worker hmem => (settled_of_reachable hmode hreach worker hmem).permanent

/-- A bound socket of a server is open. -/
theorem server_worker_receiving {conf : Conf} (hmode : conf.mode = .server)
    (hreach : Reachable (peer crypto conf) process) {index : Nat} {worker : Worker}
    {bound : IpAddr} (hworker : process.workers[index]? = some worker)
    (hbound : worker.endpoint.bound = some bound) :
    worker.state = .receiving ∧ worker.bound = bound := by
  have hopen := (permanent_of_reachable hmode hreach _ (List.mem_of_getElem? hworker)).2
  cases hstate : worker.state with
  | resolving => simp [Worker.endpoint, hstate] at hbound
  | failed => simp [Worker.endpoint, hstate] at hbound
  | closed => exact absurd hstate hopen
  | receiving =>
      rw [endpoint_bound_receiving hstate] at hbound
      exact ⟨rfl, Option.some.inj hbound⟩

end Vpn
end Muon
