import Muon.Vpn.Endpoints

/-!
# A client and a server with a network between them

Both peers run the coroutines of `Process`, with the same key, paths and mtu.
The network keeps every datagram that was ever sent: it may hand any of them to
the socket of its target at any time, any number of times, or never, but it hands
over no others.

`udplisten` always succeeds.  A client socket gets an address that neither
another client socket nor a server's socket has ever had; a server socket gets
the address it asks for.  `ipremote` takes as long as it likes and returns the
server's address with the given port.
-/

namespace Muon
namespace Vpn

open Foundation Packet Totp

/-- The path exists and the token names one of its ports. -/
def InRange (conf : Conf) (path : Nat) (token : Int) : Prop :=
  path < conf.paths.length ∧ 0 ≤ token ∧ token ≤ ((initCtx conf).paths path).portRange

/-- The address of a server's socket. -/
def serverAddress (conf : Conf) (host : Nat → Nat) (path : Nat) (token : Int) : IpAddr :=
  ⟨host path, ((initCtx conf).paths path).portStart + token⟩

/-- A client and a server that are configured alike.  The ports are UDP ports
and no two of the server's sockets have the same address, or some `udplisten`
would fail. -/
structure Deployment where
  client : Conf
  server : Conf
  /-- The address of the server on each path. -/
  host : Nat → Nat
  client_mode : client.mode = .client
  server_mode : server.mode = .server
  same_paths : server.paths = client.paths
  same_mtu : server.mtu = client.mtu
  mtu_nonneg : 0 ≤ client.mtu
  mtu_le : client.mtu ≤ sizeofPayload
  ports : ∀ path ∈ client.paths,
    0 ≤ path.portLow ∧ path.portLow ≤ path.portHigh ∧ path.portHigh < 65536
  distinct : ∀ path path' token token', InRange client path token →
    InRange client path' token' →
    serverAddress client host path token = serverAddress client host path' token' →
    path = path'

namespace Deployment

variable (deployment : Deployment)

/-- Where the server listens for a token. -/
def address (path : Nat) (token : Int) : IpAddr :=
  serverAddress deployment.client deployment.host path token

theorem initCtx_server : (initCtx deployment.server).paths =
    (initCtx deployment.client).paths := by
  simp only [initCtx, deployment.same_paths]

/-- The range of a path is small enough for `totp`. -/
theorem portRange_bounds {path : Nat} (hpath : path < deployment.client.paths.length) :
    0 ≤ ((initCtx deployment.client).paths path).portRange ∧
      ((initCtx deployment.client).paths path).portRange ≤ rangeMax := by
  have hget : deployment.client.paths[path]? = some deployment.client.paths[path] :=
    List.getElem?_eq_getElem hpath
  obtain ⟨hlow, hle, hhigh⟩ := deployment.ports _ (List.getElem_mem hpath)
  simp only [initCtx, hget, Option.elim_some, initPath, rangeMax]
  rw [toInt32_of_fits (by omega) (by omega)]
  omega

/-- `port_start + token` does not overflow. -/
theorem workerPort_eq {ctx : Ctx} {path : Nat} {token : Int}
    (hctx : (ctx.paths path).portStart = ((initCtx deployment.client).paths path).portStart)
    (hrange : InRange deployment.client path token) :
    (⟨deployment.host path, workerPort ctx path token⟩ : IpAddr) =
      deployment.address path token := by
  obtain ⟨hpath, htoken, hle⟩ := hrange
  have hget : deployment.client.paths[path]? = some deployment.client.paths[path] :=
    List.getElem?_eq_getElem hpath
  obtain ⟨hlow, hports, hhigh⟩ := deployment.ports _ (List.getElem_mem hpath)
  simp only [workerPort, hctx, address, serverAddress, IpAddr.mk.injEq, true_and]
  simp only [initCtx, hget, Option.elim_some, initPath] at hle ⊢
  rw [toInt32_of_fits (by omega) (by omega)] at hle
  exact toInt32_of_fits (by omega) (by omega)

/-- An address of the server belongs to one path and one token. -/
theorem address_inj {path path' : Nat} {token token' : Int}
    (hrange : InRange deployment.client path token)
    (hrange' : InRange deployment.client path' token')
    (haddress : deployment.address path token = deployment.address path' token') :
    path = path' ∧ token = token' := by
  obtain rfl : path = path' := deployment.distinct _ _ _ _ hrange hrange' haddress
  have hport := congrArg IpAddr.port haddress
  simp only [address, serverAddress] at hport
  exact ⟨rfl, by omega⟩

end Deployment

/-- A datagram with the addresses of its source and its target. -/
structure Datagram where
  source : IpAddr
  target : IpAddr
  bytes : List UInt8
  deriving DecidableEq

/-- Both peers, and every datagram sent so far. -/
structure Network where
  client : Process
  server : Process
  sent : List Datagram

/-- An event of one of the peers. -/
inductive NetworkEvent where
  | client (event : Event)
  | server (event : Event)

/-- What an output puts on the network: `udpsend` through an open socket. -/
def emitted (process : Process) : Output → Option Datagram
  | .udpsend _ sock remote data =>
      match process.workers[sock]? with
      | none => none
      | some worker =>
          if worker.state = .receiving then some ⟨worker.bound, remote, data⟩ else none
  | .tunWrite _ => none

/-- The address is new: no client socket has it, and it is none of the server's. -/
def Fresh (deployment : Deployment) (net : Network) (address : IpAddr) : Prop :=
  (∀ endpoint ∈ endpoints net.client, endpoint.bound ≠ some address) ∧
    ∀ path, path < deployment.client.paths.length →
      ¬ (address.host = deployment.host path ∧
        ((initCtx deployment.client).paths path).portStart ≤ address.port ∧
        address.port ≤ ((initCtx deployment.client).paths path).portStart +
          ((initCtx deployment.client).paths path).portRange)

instance (deployment : Deployment) (net : Network) (address : IpAddr) :
    Decidable (Fresh deployment net address) :=
  inferInstanceAs (Decidable (_ ∧ _))

/-- The network hands over a datagram that was sent to the worker's socket. -/
def Delivered (net : Network) (process : Process) (index : Nat) (source : IpAddr)
    (bytes : List UInt8) : Prop :=
  match process.workers[index]? with
  | none => False
  | some worker => ⟨source, worker.bound, bytes⟩ ∈ net.sent

instance (net : Network) (process : Process) (index : Nat) (source : IpAddr)
    (bytes : List UInt8) : Decidable (Delivered net process index source bytes) :=
  show Decidable (match process.workers[index]? with
    | none => False
    | some worker => (⟨source, worker.bound, bytes⟩ : Datagram) ∈ net.sent) from
  match process.workers[index]? with
  | none => inferInstanceAs (Decidable False)
  | some _ => inferInstanceAs (Decidable (_ ∈ _))

/-- `ipremote` and `udplisten` answer a client worker: the server's address with
the worker's port, and a new address for its socket. -/
def Resolved (deployment : Deployment) (net : Network) (index : Nat) (remote : IpAddr)
    (listen : Option IpAddr) : Prop :=
  match net.client.workers[index]?, listen with
  | some worker, some bound =>
      remote = ⟨deployment.host worker.path, worker.port⟩ ∧ Fresh deployment net bound
  | _, _ => False

instance (deployment : Deployment) (net : Network) (index : Nat) (remote : IpAddr)
    (listen : Option IpAddr) : Decidable (Resolved deployment net index remote listen) :=
  show Decidable (match net.client.workers[index]?, listen with
    | some worker, some bound =>
        remote = ⟨deployment.host worker.path, worker.port⟩ ∧ Fresh deployment net bound
    | _, _ => False) from
  match net.client.workers[index]?, listen with
  | some _, some _ => inferInstanceAs (Decidable (_ ∧ _))
  | none, _ => inferInstanceAs (Decidable False)
  | some _, none => inferInstanceAs (Decidable False)

/-- `udplisten` answers a server worker: the socket gets the address it asks
for. -/
def Listens (deployment : Deployment) (process : Process) (listen : Option IpAddr) : Prop :=
  match process.starts with
  | .udpWorker path port :: _ =>
      listen = some ⟨deployment.host path, workerPort process.ctx path port⟩
  | _ => True

instance (deployment : Deployment) (process : Process) (listen : Option IpAddr) :
    Decidable (Listens deployment process listen) :=
  show Decidable (match process.starts with
    | .udpWorker path port :: _ =>
        listen = some ⟨deployment.host path, workerPort process.ctx path port⟩
    | _ => True) from
  match process.starts with
  | .udpWorker _ _ :: _ => inferInstanceAs (Decidable (_ = _))
  | [] => inferInstanceAs (Decidable True)
  | .clientHop :: _ => inferInstanceAs (Decidable True)
  | .tunWorker :: _ => inferInstanceAs (Decidable True)
  | .heartbeat :: _ => inferInstanceAs (Decidable True)

/-- What the outside world may answer the client. -/
def ClientWorld (deployment : Deployment) (net : Network) : Event → Prop
  | .resolved index remote listen => Resolved deployment net index remote listen
  | .received index source bytes => Delivered net net.client index source bytes
  | _ => True

instance (deployment : Deployment) (net : Network) :
    (event : Event) → Decidable (ClientWorld deployment net event)
  | .resolved _ _ _ => inferInstanceAs (Decidable (Resolved _ _ _ _ _))
  | .received _ _ _ => inferInstanceAs (Decidable (Delivered _ _ _ _ _))
  | .start .. | .hop .. | .hopWake | .receiveError .. | .timeout .. | .tunRead ..
  | .tunReadError | .heartbeat .. => inferInstanceAs (Decidable True)

/-- What the outside world may answer the server. -/
def ServerWorld (deployment : Deployment) (net : Network) : Event → Prop
  | .start _ _ listen => Listens deployment net.server listen
  | .received index source bytes => Delivered net net.server index source bytes
  | _ => True

instance (deployment : Deployment) (net : Network) :
    (event : Event) → Decidable (ServerWorld deployment net event)
  | .start _ _ _ => inferInstanceAs (Decidable (Listens _ _ _))
  | .received _ _ _ => inferInstanceAs (Decidable (Delivered _ _ _ _ _))
  | .resolved .. | .hop .. | .hopWake | .receiveError .. | .timeout .. | .tunRead ..
  | .tunReadError | .heartbeat .. => inferInstanceAs (Decidable True)

/-- One event: the peer takes it, and what it emits is on the network. -/
def nextNetwork (crypto : Crypto) (deployment : Deployment) (net : Network) :
    NetworkEvent → Option Network
  | .client event =>
      if ClientWorld deployment net event then
        match step crypto net.client event with
        | some (.ok (client, outputs)) =>
            some { net with
              client := client
              sent := net.sent ++ outputs.filterMap (emitted net.client) }
        | _ => none
      else
        none
  | .server event =>
      if ServerWorld deployment net event then
        match step crypto net.server event with
        | some (.ok (server, outputs)) =>
            some { net with
              server := server
              sent := net.sent ++ outputs.filterMap (emitted net.server) }
        | _ => none
      else
        none

/-- The runs of both peers. -/
def network (crypto : Crypto) (deployment : Deployment) :
    TransitionSystem Network NetworkEvent where
  initial := fun net => net = ⟨vpnRun deployment.client, vpnRun deployment.server, []⟩
  step := fun net event net' => nextNetwork crypto deployment net event = some net'

variable {crypto : Crypto} {deployment : Deployment} {net net' : Network}

/-- An event of the client. -/
theorem nextNetwork_client {event : Event}
    (hnext : nextNetwork crypto deployment net (.client event) = some net') :
    ClientWorld deployment net event ∧ ∃ outputs,
      step crypto net.client event = some (.ok (net'.client, outputs)) ∧
      net'.server = net.server ∧
      net'.sent = net.sent ++ outputs.filterMap (emitted net.client) := by
  simp only [nextNetwork] at hnext
  split at hnext
  · next hworld =>
      split at hnext
      · next client outputs hstep =>
          cases hnext
          exact ⟨hworld, outputs, hstep, rfl, rfl⟩
      · cases hnext
  · cases hnext

/-- An event of the server. -/
theorem nextNetwork_server {event : Event}
    (hnext : nextNetwork crypto deployment net (.server event) = some net') :
    ServerWorld deployment net event ∧ ∃ outputs,
      step crypto net.server event = some (.ok (net'.server, outputs)) ∧
      net'.client = net.client ∧
      net'.sent = net.sent ++ outputs.filterMap (emitted net.server) := by
  simp only [nextNetwork] at hnext
  split at hnext
  · next hworld =>
      split at hnext
      · next server outputs hstep =>
          cases hnext
          exact ⟨hworld, outputs, hstep, rfl, rfl⟩
      · cases hnext
  · cases hnext

/-- A new address is none of the server's. -/
theorem Fresh.ne_address {address : IpAddr} (hfresh : Fresh deployment net address)
    {path : Nat} {token : Int} (hrange : InRange deployment.client path token) :
    address ≠ deployment.address path token := by
  rintro rfl
  obtain ⟨hpath, hlow, hhigh⟩ := hrange
  refine hfresh.2 path hpath ⟨rfl, ?_, ?_⟩
  · simp only [Deployment.address, serverAddress]
    omega
  · simp only [Deployment.address, serverAddress]
    omega

theorem delivered_iff {index : Nat} {source : IpAddr} {bytes : List UInt8}
    {process : Process} {worker : Worker} (hworker : process.workers[index]? = some worker) :
    Delivered net process index source bytes ↔ ⟨source, worker.bound, bytes⟩ ∈ net.sent := by
  simp only [Delivered, hworker]

/-- The client by itself is in one of its own runs. -/
theorem client_reachable (hreach : Reachable (network crypto deployment) net) :
    Reachable (peer crypto deployment.client) net.client := by
  refine hreach.map (fun net : Network => net.client) ?_ ?_
  · rintro net rfl
    rfl
  · rintro net (event | event) net' hnext
    · obtain ⟨-, outputs, hstep, -⟩ := nextNetwork_client hnext
      exact Or.inr ⟨event, outputs, hstep⟩
    · obtain ⟨-, outputs, -, hother, -⟩ := nextNetwork_server hnext
      exact Or.inl hother

/-- So is the server. -/
theorem server_reachable (hreach : Reachable (network crypto deployment) net) :
    Reachable (peer crypto deployment.server) net.server := by
  refine hreach.map (fun net : Network => net.server) ?_ ?_
  · rintro net rfl
    rfl
  · rintro net (event | event) net' hnext
    · obtain ⟨-, outputs, -, hother, -⟩ := nextNetwork_client hnext
      exact Or.inl hother
    · obtain ⟨-, outputs, hstep, -⟩ := nextNetwork_server hnext
      exact Or.inr ⟨event, outputs, hstep⟩

theorem client_sameConf (hreach : Reachable (network crypto deployment) net) :
    SameConf (initCtx deployment.client) net.client.ctx :=
  sameConf_of_reachable (client_reachable hreach)

/-- The server has the client's paths and mtu. -/
theorem server_sameConf (hreach : Reachable (network crypto deployment) net) :
    net.server.ctx.mode = .server ∧ net.server.ctx.mtu = deployment.client.mtu ∧
      ∀ i, (net.server.ctx.paths i).portStart =
        ((initCtx deployment.client).paths i).portStart := by
  have hconf := sameConf_of_reachable (server_reachable hreach)
  refine ⟨hconf.mode.trans deployment.server_mode, hconf.mtu.trans deployment.same_mtu,
    fun i => ?_⟩
  rw [hconf.portStart, deployment.initCtx_server]

end Vpn
end Muon
