import Muon.Vpn.Peers

/-!
# What is in flight

Every datagram on the network was sent by one side, on one path, and carries one
packet: the one just read from the TUN device, or the empty packet of `heartbeat`.
A tag is anything that can be said of these three and of the datagram; a tag that holds
of whatever is sent holds of whatever arrives, because an address leads to one socket.
-/

namespace Muon
namespace Vpn

open Foundation Packet Totp

variable {crypto : Crypto} {deployment : Deployment} {net : Network}
  {process process' : Process} {outputs : List Output}

/-- The packet of the datagrams that an event sends. -/
def sentPacket : Event → List UInt8
  | .tunRead packet _ => packet
  | _ => []

/-! ## The packet of a datagram -/

/-- A datagram of a path carries the packet under the token of the path. -/
def CarriesOn (crypto : Crypto) (packet : List UInt8) (ctx : Ctx) (output : Output) : Prop :=
  ∀ path sock remote data, output = .udpsend path sock remote data →
    CarriesPacket crypto (ctx.paths path).token ctx.mtu packet data

/-- `heartbeat` sends the empty packet. -/
theorem sendHeartbeat_carriesOn (crypto : Crypto) (draws : Draws) (path : Nat) (ctx : Ctx)
    (pbuf : Pbuf) (hmtu : 0 ≤ ctx.mtu) :
    ∀ output ∈ (sendHeartbeat crypto draws path ctx pbuf).2.2,
      CarriesOn crypto [] ctx output := by
  intro output houtput
  unfold sendHeartbeat at houtput
  split at houtput
  · split at houtput
    · cases houtput
    · next sock hsock =>
        rw [List.mem_singleton.mp houtput]
        intro path' sock' remote data heq
        cases heq
        exact ⟨_, draws, heartbeatLoad_loaded crypto pbuf, hmtu, rfl⟩
  · cases houtput

/-- **What a peer sends carries the packet of the event.** -/
theorem step_carriesOn {event : Event} (hlow : 0 ≤ process.ctx.mtu)
    (hhigh : process.ctx.mtu ≤ sizeofPayload)
    (hstep : step crypto process event = some (.ok (process', outputs)))
    {path sock : Nat} {remote : IpAddr} {data : List UInt8}
    (hsend : .udpsend path sock remote data ∈ outputs) :
    CarriesPacket crypto (process.ctx.paths path).token process.ctx.mtu (sentPacket event)
      data := by
  rcases step_udpsend_cases hstep hsend with ⟨packet, draws, rfl⟩ | ⟨readings, draws, rfl⟩
  · obtain ⟨pbuf, selected, next, pbuf', -, -, hmtu, -, hsender, -⟩ := step_tunRead hstep
    have hshort : packet.length < 65536 := by
      simp only [sizeofPayload] at hhigh
      omega
    simp only [udpSender] at hsender
    split at hsender
    · cases hsender
    · split at hsender
      · cases hsender
        cases hsend
      · cases hsender
        cases List.mem_singleton.mp hsend
        exact ⟨_, draws, tunWorkerLoad_loaded crypto pbuf hshort, hmtu, rfl⟩
  · obtain ⟨pbuf, ctx, pbuf', -, hround, -⟩ := step_heartbeat hstep
    have hsent := (heartbeatPaths_forall (CarriesOn crypto [])
      (fun hcarries hconf hsame path sock remote data heq => by
        have hdata := hcarries path sock remote data heq
        rwa [hsame.token, hconf.mtu] at hdata)
      crypto readings draws (List.range process.ctx.pathCount) process.ctx pbuf
      fun draws path ctx' pbuf hsame =>
        sendHeartbeat_carriesOn crypto draws path ctx' pbuf (by rw [hsame.mtu]; exact hlow)).2
    rw [hround] at hsent
    exact hsent _ hsend path sock remote data rfl

/-! ## Tags -/

/-- What can be said of a datagram: who sent it, on which path, and with which packet. -/
abbrev Tag := Side → Nat → List UInt8 → Datagram → Prop

/-- A datagram between a socket of the client and the server's port for its path and
token, with a packet that has the tag. -/
def Tagged (crypto : Crypto) (deployment : Deployment) (sockets : List Endpoint)
    (tag : Tag) (datagram : Datagram) : Prop :=
  ∃ side path token address packet, ClientSocket sockets path token address ∧
    CarriesPacket crypto token deployment.client.mtu packet datagram.bytes ∧
    tag side path packet datagram ∧
    match side with
    | .client => datagram.source = address ∧ datagram.target = deployment.address path token
    | .server => datagram.target = address

theorem Tagged.mono {sockets sockets' : List Endpoint} {tag tag' : Tag} {datagram : Datagram}
    (htagged : Tagged crypto deployment sockets tag datagram) (hgrows : Grows sockets sockets')
    (htag : ∀ side path packet, tag side path packet datagram →
      tag' side path packet datagram) :
    Tagged crypto deployment sockets' tag' datagram := by
  obtain ⟨side, path, token, address, packet, hsocket, hcarries, hside, hends⟩ := htagged
  exact ⟨side, path, token, address, packet, hsocket.grow hgrows, hcarries,
    htag side path packet hside, hends⟩

/-- What the client sends has the tags of the event. -/
theorem client_tagged (hreach : Reachable (network crypto deployment) net) {event : Event}
    (hstep : step crypto net.client event = some (.ok (process', outputs)))
    {tag : Tag}
    (htag : ∀ path sock remote data worker, .udpsend path sock remote data ∈ outputs →
      net.client.workers[sock]? = some worker → worker.state = .receiving →
      tag .client path (sentPacket event) ⟨worker.bound, remote, data⟩)
    {datagram : Datagram} (hmem : datagram ∈ outputs.filterMap (emitted net.client)) :
    Tagged crypto deployment (endpoints net.client) tag datagram := by
  have hinv := networkInv_of_reachable hreach
  have hmtu : net.client.ctx.mtu = deployment.client.mtu := (client_sameConf hreach).mtu
  obtain ⟨path, sock, remote, data, worker, hsend, hworker, hstate, rfl⟩ := mem_emitted hmem
  obtain ⟨worker', hworker', hpath, -, hremote⟩ := hinv.client_sends hreach hstep hsend
  rw [hworker] at hworker'
  cases hworker'
  -- the path has the token of the worker that owns its socket
  have htoken : worker.token = (net.client.ctx.paths path).token := by
    obtain ⟨e, bound, he, -, -, htoken, -⟩ :=
      hinv.client.triple path sock (step_sentThrough hstep hsend)
    rw [endpoints_getElem? hworker] at he
    cases he
    exact htoken
  have hcarries := step_carriesOn (by rw [hmtu]; exact deployment.mtu_nonneg)
    (by rw [hmtu]; exact deployment.mtu_le) hstep hsend
  rw [hmtu, ← htoken] at hcarries
  exact ⟨.client, path, worker.token, worker.bound, sentPacket event,
    ⟨worker.endpoint, endpoint_mem hworker, hpath, rfl, endpoint_bound_receiving hstate⟩,
    hcarries, htag path sock remote data worker hsend hworker hstate, rfl, hremote⟩

/-- What the server sends goes out on a live path and has the tags of the event. -/
theorem server_tagged (hreach : Reachable (network crypto deployment) net) {event : Event}
    (hstep : step crypto net.server event = some (.ok (process', outputs)))
    {tag : Tag}
    (htag : ∀ path sock remote data worker, .udpsend path sock remote data ∈ outputs →
      net.server.workers[sock]? = some worker → 0 < (net.server.ctx.paths path).alive →
      tag .server path (sentPacket event) ⟨worker.bound, remote, data⟩)
    {datagram : Datagram} (hmem : datagram ∈ outputs.filterMap (emitted net.server)) :
    Tagged crypto deployment (endpoints net.client) tag datagram := by
  have hinv := networkInv_of_reachable hreach
  obtain ⟨hmode, hmtu, -⟩ := server_sameConf hreach
  have hlow : 0 ≤ net.server.ctx.mtu := by
    rw [hmtu]
    exact deployment.mtu_nonneg
  have hhigh : net.server.ctx.mtu ≤ sizeofPayload := by
    rw [hmtu]
    exact deployment.mtu_le
  obtain ⟨path, sock, remote, data, worker, hsend, hworker, -, rfl⟩ := mem_emitted hmem
  obtain ⟨-, -, -, hclient, -⟩ := hinv.server_sends hreach hstep hsend
  have hcarries := step_carriesOn hlow hhigh hstep hsend
  obtain ⟨path', sock', data', heq, -, halive, -⟩ := step_sentOn hlow hhigh hstep hsend
  cases heq
  rw [hmtu] at hcarries
  exact ⟨.server, path, _, _, sentPacket event, hclient, hcarries,
    htag path sock _ data worker hsend hworker (halive hmode), rfl⟩

/-- What arrives at a socket of the server was sent by the client, on the path and with
the token of the socket. -/
theorem tagged_server (hreach : Reachable (network crypto deployment) net)
    {tag : Tag} {index : Nat} {worker : Worker}
    {source : IpAddr} {bytes : List UInt8}
    (hworker : net.server.workers[index]? = some worker) (hstate : worker.state = .receiving)
    (htagged : Tagged crypto deployment (endpoints net.client) tag
      ⟨source, worker.bound, bytes⟩) :
    ∃ packet, CarriesPacket crypto worker.token deployment.client.mtu packet bytes ∧
      tag .client worker.path packet ⟨source, worker.bound, bytes⟩ := by
  have hinv := networkInv_of_reachable hreach
  have hmem := endpoint_mem hworker
  have hrange := hinv.server.inRange _ hmem
  have hbound : worker.bound = deployment.address worker.path worker.token := by
    have heq := hinv.server.bound _ hmem
    rw [endpoint_bound_receiving hstate] at heq
    exact Option.some.inj heq
  obtain ⟨side, path, token, address, packet, ⟨e, he, rfl, rfl, hsome⟩, hcarries, htag, hends⟩ :=
    htagged
  cases side with
  | client =>
      have htarget : worker.bound = deployment.address e.path e.token := hends.2
      obtain ⟨hpath, htoken⟩ := deployment.address_inj hrange (hinv.client.inRange e he)
        (hbound.symm.trans htarget)
      have hpath : worker.path = e.path := hpath
      have htoken : worker.token = e.token := htoken
      rw [hpath, htoken]
      exact ⟨packet, hcarries, htag⟩
  | server =>
      -- no client socket has an address of the server
      have htarget : worker.bound = address := hends
      exact absurd (htarget.symm.trans hbound)
        (hinv.client.notServer e he address hsome _ _ hrange)

/-- What arrives at a socket of the client was sent by the server, on the path and with
the token of the worker that owns it. -/
theorem tagged_client (hreach : Reachable (network crypto deployment) net)
    {tag : Tag} {index : Nat} {worker : Worker}
    {source : IpAddr} {bytes : List UInt8}
    (hworker : net.client.workers[index]? = some worker) (hstate : worker.state = .receiving)
    (htagged : Tagged crypto deployment (endpoints net.client) tag
      ⟨source, worker.bound, bytes⟩) :
    ∃ packet, CarriesPacket crypto worker.token deployment.client.mtu packet bytes ∧
      tag .server worker.path packet ⟨source, worker.bound, bytes⟩ := by
  have hinv := networkInv_of_reachable hreach
  have hmem := endpoint_mem hworker
  have hbound := endpoint_bound_receiving hstate
  obtain ⟨side, path, token, address, packet, ⟨e, he, rfl, rfl, hsome⟩, hcarries, htag, hends⟩ :=
    htagged
  cases side with
  | client =>
      have htarget : worker.bound = deployment.address e.path e.token := hends.2
      exact absurd htarget (hinv.client.notServer _ hmem _ hbound _ _
        (hinv.client.inRange e he))
  | server =>
      have htarget : worker.bound = address := hends
      rw [htarget] at hbound
      -- the address is that of one worker only
      have heq := hinv.client.distinct _ hmem e he address hbound hsome
      have hpath : worker.path = e.path := congrArg Endpoint.path heq
      have htoken : worker.token = e.token := congrArg Endpoint.token heq
      rw [hpath, htoken]
      exact ⟨packet, hcarries, htag⟩

/-! ## Receiving a packet -/

/-- The value `decapsulate` returns for a packet is its length. -/
theorem decapsulate_len {token n m : Int} {pbuf after : Pbuf}
    (hdecapsulate : decapsulate crypto token pbuf n = .ok (m, after)) (hpositive : 0 < m) :
    m = after.len := by
  simp only [decapsulate] at hdecapsulate
  split at hdecapsulate
  · cases hdecapsulate
    omega
  · split at hdecapsulate
    · cases hdecapsulate
      omega
    · split at hdecapsulate
      · cases hdecapsulate
        omega
      · split at hdecapsulate
        · cases hdecapsulate
        · split at hdecapsulate
          · cases hdecapsulate
            omega
          · cases hdecapsulate
            rfl

/-- The scan of a server refuses the token of a worker. -/
def Refused (process : Process) (worker : Worker) : Prop :=
  process.ctx.mode = .server ∧
    tokenAccepted (process.ctx.paths worker.path).validTokens worker.token = false

instance (process : Process) (worker : Worker) : Decidable (Refused process worker) :=
  inferInstanceAs (Decidable (_ ∧ _))

/-- What is written to the TUN device for a packet. -/
def written (packet : List UInt8) : List Output :=
  if packet = [] then [] else [.tunWrite packet]

/-- **What a worker does with a datagram of its token.**  A server whose scan refuses
the token drops it; else the path is renewed, and a packet that is not empty is written
to the TUN device. -/
theorem receiveDatagram_carried (index : Nat) {worker : Worker} (source : IpAddr)
    {bytes packet : List UInt8} (hlossless : crypto.libraries.Lossless)
    (hlow : 0 ≤ process.ctx.mtu) (hhigh : process.ctx.mtu ≤ sizeofPayload)
    (hcarries : CarriesPacket crypto worker.token process.ctx.mtu packet bytes) :
    ∃ pbuf,
      (Refused process worker ∧
        receiveDatagram crypto process index worker source bytes =
          .ok ({ process with
            workers := process.workers.set index { worker with pbuf := pbuf } }, [])) ∨
      (¬ Refused process worker ∧
        receiveDatagram crypto process index worker source bytes =
          .ok ({ process with
            ctx := acceptDatagram process.ctx index { worker with pbuf := pbuf } source
              packet.length
            workers := process.workers.set index { worker with pbuf := pbuf } },
            written packet)) := by
  obtain ⟨hheader, hfits, after, hafter, hpayload⟩ :=
    hcarries.decapsulate hlossless hhigh worker.pbuf
  have hwhole : bytes.take (toUInt64 (process.ctx.mtu + payloadOffset)) = bytes := by
    apply List.take_of_length_le
    simp only [sizeofPayload, payloadOffset] at *
    rw [toUInt64_of_nonneg (by omega) (by omega)]
    omega
  by_cases hrefused : Refused process worker
  · refine ⟨worker.pbuf.write 0 bytes, Or.inl ⟨hrefused, ?_⟩⟩
    unfold receiveDatagram
    dsimp only
    rw [hwhole]
    exact if_pos hrefused
  · refine ⟨after, Or.inr ⟨hrefused, ?_⟩⟩
    unfold receiveDatagram
    dsimp only
    rw [hwhole, if_neg (show ¬ (_ ∧ _) from hrefused), if_neg (Nat.not_lt.mpr hheader), hafter]
    dsimp only
    rw [if_neg (Int.not_lt.mpr (Int.natCast_nonneg _)), List.set_set]
    by_cases hempty : packet = []
    · rw [hempty, written, if_pos rfl]
      rfl
    · have hpositive : 0 < packet.length := List.length_pos_iff.mpr hempty
      have hlen : ((packet.length : Int)) = after.len :=
        decapsulate_len hafter (Int.natCast_pos.mpr hpositive)
      rw [if_neg (by omega), written, if_neg hempty, ← Int.ofNat_inj.mp hlen, hpayload]

end Vpn
end Muon
