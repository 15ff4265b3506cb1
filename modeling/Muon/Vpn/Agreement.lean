import Muon.Vpn.NetworkInvariant

/-!
# Agreement of client and server

What a peer sends, the other one can read.  The triple that the client sends with
belongs to one worker; the triple that the server answers with names an open
socket of its own and a socket of the client, all of one token; and whatever the
network hands over decapsulates under the token of the worker that takes it.
-/

namespace Muon
namespace Vpn

open Foundation Packet Totp

variable {crypto : Crypto} {deployment : Deployment} {net : Network}
  {process process' : Process} {outputs : List Output}

/-! ## What is sent -/

/-- Whatever the client sends goes out under the token of the worker that owns
the socket, to the server's port for that token. -/
theorem NetworkInv.client_sends (hreach : Reachable (network crypto deployment) net)
    (hinv : NetworkInv crypto deployment net) {event : Event}
    (hstep : step crypto net.client event = some (.ok (process', outputs)))
    {path sock : Nat} {remote : IpAddr} {data : List UInt8}
    (hsend : .udpsend path sock remote data ∈ outputs) :
    ∃ worker, net.client.workers[sock]? = some worker ∧ worker.path = path ∧
      Carries crypto worker.token deployment.client.mtu data ∧
      remote = deployment.address path worker.token := by
  have hconf := client_sameConf hreach
  have hmtuEq : net.client.ctx.mtu = deployment.client.mtu := hconf.mtu
  obtain ⟨path', sock', data', hudpsend, hsock, -, hcarries⟩ := step_sentOn
    (by rw [hmtuEq]; exact deployment.mtu_nonneg) (by rw [hmtuEq]; exact deployment.mtu_le)
    hstep hsend
  cases hudpsend
  rw [hmtuEq] at hcarries
  obtain ⟨e, bound, he, -, hpath, htoken, hremote⟩ := hinv.client.triple path sock hsock
  obtain ⟨worker, hworker, rfl⟩ := exists_worker_of_endpoint he
  refine ⟨worker, hworker, hpath, ?_, hremote⟩
  have htoken : worker.token = (net.client.ctx.paths path).token := htoken
  rw [htoken]
  exact hcarries

/-- Whatever the server sends goes out of the open socket bound to the port of
the path's token, to a socket of the client with that token. -/
theorem NetworkInv.server_sends (hreach : Reachable (network crypto deployment) net)
    (hinv : NetworkInv crypto deployment net) {event : Event}
    (hstep : step crypto net.server event = some (.ok (process', outputs)))
    {path sock : Nat} {remote : IpAddr} {data : List UInt8}
    (hsend : .udpsend path sock remote data ∈ outputs) :
    (net.server.ctx.paths path).sock = some sock ∧
      (∃ worker, net.server.workers[sock]? = some worker ∧ worker.state = .receiving ∧
        worker.bound = deployment.address path (net.server.ctx.paths path).token) ∧
      remote = (net.server.ctx.paths path).remote ∧
      ClientSocket (endpoints net.client) path (net.server.ctx.paths path).token remote ∧
      Carries crypto (net.server.ctx.paths path).token deployment.client.mtu data := by
  obtain ⟨hmode, hmtuEq, -⟩ := server_sameConf hreach
  obtain ⟨path', sock', data', hudpsend, hsock, halive, hcarries⟩ := step_sentOn
    (by rw [hmtuEq]; exact deployment.mtu_nonneg) (by rw [hmtuEq]; exact deployment.mtu_le)
    hstep hsend
  cases hudpsend
  rw [hmtuEq] at hcarries
  obtain ⟨sock', e, hsock', he, rfl, htoken, hclient⟩ :=
    hinv.server.answer path (halive hmode)
  rw [hsock] at hsock'
  cases hsock'
  obtain ⟨worker, hworker, rfl⟩ := exists_worker_of_endpoint he
  have hbound := hinv.server.bound _ (endpoint_mem hworker)
  obtain ⟨hstate, hboundEq⟩ := server_worker_receiving deployment.server_mode
    (server_reachable hreach) hworker hbound
  refine ⟨hsock, ⟨worker, hworker, hstate, ?_⟩, rfl, hclient, hcarries⟩
  rw [← htoken]
  exact hboundEq

/-- A datagram that a peer emits. -/
theorem mem_emitted {datagram : Datagram}
    (hmem : datagram ∈ outputs.filterMap (emitted process)) :
    ∃ path sock remote data worker, .udpsend path sock remote data ∈ outputs ∧
      process.workers[sock]? = some worker ∧ worker.state = .receiving ∧
      datagram = ⟨worker.bound, remote, data⟩ := by
  obtain ⟨output, houtput, hemitted⟩ := List.mem_filterMap.mp hmem
  cases output with
  | tunWrite packet => cases hemitted
  | udpsend path sock remote data =>
      simp only [emitted] at hemitted
      split at hemitted
      · cases hemitted
      · next worker hworker =>
          split at hemitted
          · next hstate =>
              cases hemitted
              exact ⟨path, sock, remote, data, worker, houtput, hworker, hstate, rfl⟩
          · cases hemitted

theorem networkInv_initial (crypto : Crypto) (deployment : Deployment) :
    NetworkInv crypto deployment
      ⟨vpnRun deployment.client, vpnRun deployment.server, []⟩ := by
  have hnone : ∀ conf : Conf, ∀ e ∈ endpoints (vpnRun conf), False :=
    fun conf e he => List.not_mem_nil he
  refine ⟨⟨?_, ?_, ?_, ?_, ?_⟩, ⟨?_, ?_, ?_⟩, ?_⟩
  · exact fun e he => (hnone _ e he).elim
  · exact fun e he => (hnone _ e he).elim
  · exact fun e he => (hnone _ e he).elim
  · exact fun e he => (hnone _ e he).elim
  · intro path sock hsock
    rw [show (vpnRun deployment.client).ctx = initCtx deployment.client from rfl,
      initCtx_sock] at hsock
    cases hsock
  · exact fun e he => (hnone _ e he).elim
  · exact fun e he => (hnone _ e he).elim
  · intro path halive
    rw [show (vpnRun deployment.server).ctx = initCtx deployment.server from rfl,
      initCtx_alive] at halive
    exact absurd halive (Int.lt_irrefl 0)
  · exact fun datagram hsent => (List.not_mem_nil hsent).elim

/-- **The invariant holds in every run.** -/
theorem networkInv_of_reachable (hreach : Reachable (network crypto deployment) net) :
    NetworkInv crypto deployment net := by
  refine hreach.invariant (NetworkInv crypto deployment) ?_ ?_
  · rintro net rfl
    exact networkInv_initial crypto deployment
  · rintro net (event | event) net' hreach hinv hnext
    · obtain ⟨hworld, outputs, hstep, hother, hsentEq⟩ := nextNetwork_client hnext
      obtain ⟨hclient, hgrows⟩ := hinv.client.step hreach hworld hstep
      refine ⟨hclient, ?_, fun datagram hsent => ?_⟩
      · rw [hother]
        exact hinv.server.grow hgrows
      · rw [hsentEq] at hsent
        rcases List.mem_append.mp hsent with hold | hnew
        · exact (hinv.sent datagram hold).grow hgrows
        · obtain ⟨path, sock, remote, data, worker, hsend, hworker, hstate, rfl⟩ :=
            mem_emitted hnew
          obtain ⟨worker', hworker', hpath, hcarries, hremote⟩ :=
            hinv.client_sends hreach hstep hsend
          rw [hworker] at hworker'
          cases hworker'
          have hsocket : ClientSocket (endpoints net.client) path worker.token
              worker.bound :=
            ⟨worker.endpoint, endpoint_mem hworker, hpath, rfl,
              endpoint_bound_receiving hstate⟩
          exact ⟨path, worker.token, worker.bound, hsocket.grow hgrows, hcarries,
            Or.inl ⟨rfl, hremote⟩⟩
    · obtain ⟨hworld, outputs, hstep, hother, hsentEq⟩ := nextNetwork_server hnext
      have hserver := ServerInv.step hreach hinv hworld hstep
      rw [← hother] at hserver
      refine ⟨?_, hserver, fun datagram hsent => ?_⟩
      · rw [hother]
        exact hinv.client
      · rw [hsentEq] at hsent
        rw [hother]
        rcases List.mem_append.mp hsent with hold | hnew
        · exact hinv.sent datagram hold
        · obtain ⟨path, sock, remote, data, worker, hsend, hworker, hstate, rfl⟩ :=
            mem_emitted hnew
          obtain ⟨-, -, -, hclient, hcarries⟩ := hinv.server_sends hreach hstep hsend
          exact ⟨path, _, remote, hclient, hcarries, Or.inr rfl⟩

/-! ## Agreement -/

/-- Client and server agree. -/
structure Agreement (crypto : Crypto) (deployment : Deployment) (net : Network) : Prop where
  /-- The client sends under the token of the worker that owns the socket, to the
  server's port for that token. -/
  client_sends : ∀ event process' outputs,
    step crypto net.client event = some (.ok (process', outputs)) →
    ∀ path sock remote data, .udpsend path sock remote data ∈ outputs →
    ∃ worker, net.client.workers[sock]? = some worker ∧ worker.path = path ∧
      Carries crypto worker.token deployment.client.mtu data ∧
      remote = deployment.address path worker.token
  /-- The server sends under the token of the path, out of the open socket bound
  to the port of that token, to the address of a client socket whose worker has
  that token. -/
  server_sends : ∀ event process' outputs,
    step crypto net.server event = some (.ok (process', outputs)) →
    ∀ path sock remote data, .udpsend path sock remote data ∈ outputs →
    (net.server.ctx.paths path).sock = some sock ∧
      (∃ worker, net.server.workers[sock]? = some worker ∧ worker.state = .receiving ∧
        worker.bound = deployment.address path (net.server.ctx.paths path).token) ∧
      remote = (net.server.ctx.paths path).remote ∧
      ClientSocket (endpoints net.client) path (net.server.ctx.paths path).token remote ∧
      Carries crypto (net.server.ctx.paths path).token deployment.client.mtu data
  /-- A datagram that arrives at an open socket decapsulates to the packet that was
  sent, whatever the buffer held before. -/
  delivered : ∀ process : Process, process = net.client ∨ process = net.server →
    ∀ (index : Nat) (worker : Worker) (source : IpAddr) (bytes : List UInt8),
    process.workers[index]? = some worker → worker.state = .receiving →
    ⟨source, worker.bound, bytes⟩ ∈ net.sent →
    ∃ packet, CarriesPacket crypto worker.token deployment.client.mtu packet bytes ∧
      ∀ pbuf : Pbuf, payloadOffset ≤ bytes.length ∧
        (bytes.length : Int) ≤ deployment.client.mtu + payloadOffset ∧
        ∃ after, decapsulate crypto worker.token (pbuf.write 0 bytes) bytes.length =
            .ok ((packet.length : Int), after) ∧
          after.payload packet.length = packet

/-- **Client and server agree in every run**, whatever the network loses,
duplicates or reorders. -/
theorem agreement (crypto : Crypto) (hlossless : crypto.libraries.Lossless)
    (deployment : Deployment) (net : Network)
    (hreach : Reachable (network crypto deployment) net) :
    Agreement crypto deployment net := by
  have hinv := networkInv_of_reachable hreach
  refine ⟨?_, ?_, ?_⟩
  · intro event process' outputs hstep path sock remote data hsend
    exact hinv.client_sends hreach hstep hsend
  · intro event process' outputs hstep path sock remote data hsend
    exact hinv.server_sends hreach hstep hsend
  · intro process hprocess index worker source bytes hworker hstate hsent
    have hcarries : Carries crypto worker.token deployment.client.mtu bytes := by
      rcases hprocess with rfl | rfl
      · exact hinv.delivered_client hworker hstate hsent
      · exact (hinv.delivered_server hworker hstate hsent).2
    obtain ⟨packet, hpacket⟩ := hcarries
    exact ⟨packet, hpacket, hpacket.decapsulate hlossless deployment.mtu_le⟩

/-! ## One path with one port -/

/-- A peer with one path. -/
def onePathConf (mode : Mode) : Conf where
  mode := mode
  mtu := 1400
  route := false
  paths := [⟨"192.0.2.1", 1200, 1200⟩]
  tunif := "vpn0"
  address := "10.0.1.1/24"
  address6 := ""

/-- A client and a server with one path. -/
def onePath : Deployment where
  client := onePathConf .client
  server := onePathConf .server
  host := fun _ => 1
  client_mode := rfl
  server_mode := rfl
  same_paths := rfl
  same_mtu := rfl
  mtu_nonneg := by decide
  mtu_le := by decide
  ports := by decide
  distinct := by
    rintro path path' token token' ⟨hpath, -⟩ ⟨hpath', -⟩ -
    have hlength : (onePathConf .client).paths.length = 1 := rfl
    omega

/-- The client starts, hops, binds its socket and sends a heartbeat; the server
starts. -/
def opening : List NetworkEvent :=
  [.client (.start (Reference.bufferOf []) 0 none),
    .client (.start (Reference.bufferOf []) 0 none),
    .client (.start (Reference.bufferOf []) 0 none),
    .client (.hop (Timeval.ofMilliseconds 10000) (Reference.bufferOf []) 0),
    .client (.resolved 0 ⟨1, 1200⟩ (some ⟨2, 5000⟩)),
    .client (.heartbeat (fun _ _ => Timeval.ofMilliseconds 10000)
      fun _ => Reference.zeroDraws),
    .server (.start (Reference.bufferOf []) 0 (some ⟨1, 1200⟩)),
    .server (.start (Reference.bufferOf []) 0 none),
    .server (.start (Reference.bufferOf []) 0 none)]

/-- The server receives the datagram and answers it. -/
def answer (sent : List Datagram) : List NetworkEvent :=
  sent.map (fun datagram => .server (.received 0 datagram.source datagram.bytes)) ++
    [.server (.heartbeat (fun _ _ => Timeval.ofMilliseconds 10000)
      fun _ => Reference.zeroDraws)]

/-- They agree after a heartbeat and its answer. -/
theorem agreement_onePath :
    ∃ net, net.sent.length = 2 ∧ Agreement Reference.crypto onePath net := by
  have hruns : (((run (nextNetwork Reference.crypto onePath)
      ⟨vpnRun onePath.client, vpnRun onePath.server, []⟩ opening).bind fun net =>
        run (nextNetwork Reference.crypto onePath) net (answer net.sent)).any
          fun net => decide (net.sent.length = 2)) = true := by decide +kernel
  obtain ⟨final, hrun, hlength⟩ := (Option.any_eq_true _ _).mp hruns
  obtain ⟨net, hfirst, hsecond⟩ := Option.bind_eq_some_iff.mp hrun
  have hstart : Reachable (network Reference.crypto onePath)
      ⟨vpnRun onePath.client, vpnRun onePath.server, []⟩ := .initial rfl
  have hreach : Reachable (network Reference.crypto onePath) final :=
    Reachable.run (fun _ _ _ => id) (Reachable.run (fun _ _ _ => id) hstart hfirst) hsecond
  exact ⟨final, of_decide_eq_true hlength, agreement Reference.crypto
    Reference.libraries_lossless onePath final hreach⟩

end Vpn
end Muon
