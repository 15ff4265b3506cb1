import Muon.Vpn.Tunnel

/-!
# Datagrams that nobody sent

Anyone can send to the ports of a peer.  Who does not have the key cannot make a checksum
that is right for the token of the port, and then `decapsulate` gives up before it looks at
anything else.  What is left of such a datagram are bytes in the receive buffer of a worker.

A run of client, server and a network that also makes up datagrams is, without them, a run
of client, server and network: the two peers end up in the same states, up to the receive
buffers, and at the TUN devices nothing else has happened.
-/

namespace Muon
namespace Vpn

open Foundation Packet Totp

variable {crypto : Crypto} {deployment : Deployment} {net net' : Network}
  {process process' low : Process} {lows : List Worker} {outputs : List Output}

/-! ## Receive buffers -/

/-- The worker with an empty receive buffer. -/
def Worker.emptied (worker : Worker) : Worker := { worker with pbuf := fun _ => 0 }

/-- The peers differ in the receive buffers of their workers at most. -/
structure SameButBuffers (process low : Process) : Prop where
  rest : low = { process with workers := low.workers }
  workers : low.workers.map Worker.emptied = process.workers.map Worker.emptied

theorem SameButBuffers.refl (process : Process) : SameButBuffers process process := ⟨rfl, rfl⟩

theorem sameButBuffers_iff : SameButBuffers process low ↔
    ∃ lows, low = { process with workers := lows } ∧
      lows.map Worker.emptied = process.workers.map Worker.emptied := by
  constructor
  · rintro ⟨hrest, hworkers⟩
    exact ⟨low.workers, hrest, hworkers⟩
  · rintro ⟨lows, rfl, hworkers⟩
    exact ⟨rfl, hworkers⟩

theorem SameButBuffers.symm (hsame : SameButBuffers process low) : SameButBuffers low process := by
  obtain ⟨lows, rfl, hlows⟩ := sameButBuffers_iff.mp hsame
  exact ⟨rfl, hlows.symm⟩

theorem SameButBuffers.trans {process between low : Process}
    (hfirst : SameButBuffers process between) (hsecond : SameButBuffers between low) :
    SameButBuffers process low := by
  obtain ⟨lows, rfl, hlows⟩ := sameButBuffers_iff.mp hsecond
  obtain ⟨betweens, rfl, hbetweens⟩ := sameButBuffers_iff.mp hfirst
  exact ⟨rfl, hlows.trans hbetweens⟩

/-- The other peer has the worker too. -/
theorem exists_lowWorker (hlows : lows.map Worker.emptied = process.workers.map Worker.emptied)
    {index : Nat} {worker : Worker} (hworker : process.workers[index]? = some worker) :
    ∃ buffer, lows[index]? = some { worker with pbuf := buffer } := by
  have hat : (lows[index]?).map Worker.emptied = some worker.emptied := by
    rw [← List.getElem?_map, hlows, List.getElem?_map, hworker, Option.map_some]
  obtain ⟨other, hother, heq⟩ := Option.map_eq_some_iff.mp hat
  obtain ⟨path, token, deadline, port, state, bound, buffer⟩ := other
  obtain ⟨path', token', deadline', port', state', bound', buffer'⟩ := worker
  cases heq
  exact ⟨buffer, hother⟩

theorem endpoints_alike (hlows : lows.map Worker.emptied = process.workers.map Worker.emptied) :
    endpoints { process with workers := lows } = endpoints process := by
  have hendpoint : Worker.endpoint = Worker.endpoint ∘ Worker.emptied := rfl
  unfold endpoints
  rw [hendpoint, ← List.map_map, ← List.map_map]
  exact congrArg _ hlows

/-- Another state of the same worker. -/
theorem map_emptied_set (hlows : lows.map Worker.emptied = process.workers.map Worker.emptied)
    (index : Nat) {worker worker' : Worker} (hsame : worker'.emptied = worker.emptied) :
    (lows.set index worker').map Worker.emptied =
      (process.workers.set index worker).map Worker.emptied := by
  rw [List.map_set, List.map_set, hlows, hsame]

/-! ## Events that do not look at a receive buffer -/

theorem sameButBuffers_bindWorker
    (hlows : lows.map Worker.emptied = process.workers.map Worker.emptied) (index : Nat)
    (worker : Worker) (buffer : Pbuf) (listen : Option IpAddr) :
    SameButBuffers (bindWorker process index worker listen)
      (bindWorker { process with workers := lows } index { worker with pbuf := buffer }
        listen) := by
  cases listen with
  | none => exact ⟨rfl, map_emptied_set hlows index rfl⟩
  | some bound => exact ⟨rfl, map_emptied_set hlows index rfl⟩

theorem sameButBuffers_startWorker
    (hlows : lows.map Worker.emptied = process.workers.map Worker.emptied) (path : Nat)
    (token timeout now : Int) (stack : Pbuf) (listen : Option IpAddr) :
    SameButBuffers (startWorker process path token timeout now stack listen)
      (startWorker { process with workers := lows } path token timeout now stack listen) := by
  have hlength : lows.length = process.workers.length := by
    have hmaps := congrArg List.length hlows
    rwa [List.length_map, List.length_map] at hmaps
  have happend : ∀ worker : Worker, (lows ++ [worker]).map Worker.emptied =
      (process.workers ++ [worker]).map Worker.emptied := by
    intro worker
    rw [List.map_append, List.map_append, hlows]
  cases hmode : process.ctx.mode with
  | client =>
      simp only [startWorker, hmode]
      exact ⟨rfl, happend _⟩
  | server =>
      simp only [startWorker, hmode, hlength]
      exact @sameButBuffers_bindWorker
        { process with
          ctx := process.ctx.updatePath path fun path => { path with alive := 0 }
          workers := process.workers ++ [_] } _ (happend _) _ _ stack listen

theorem sameButBuffers_runStart
    (hlows : lows.map Worker.emptied = process.workers.map Worker.emptied) (start : Start)
    (stack : Pbuf) (now : Int) (listen : Option IpAddr) :
    SameButBuffers (runStart process start stack now listen)
      (runStart { process with workers := lows } start stack now listen) := by
  cases start with
  | udpWorker path port => exact sameButBuffers_startWorker hlows path port (-1) now stack listen
  | clientHop | tunWorker | heartbeat => exact ⟨rfl, hlows⟩

/-- `udp_sender` does not look at the workers. -/
theorem udpSender_workers (crypto : Crypto) (process : Process) (lows : List Worker)
    (path : Nat) (pbuf : Pbuf) (draws : Draws) {next : Process} {pbuf' : Pbuf}
    (hsender : udpSender crypto process path pbuf draws = .ok (next, pbuf', outputs)) :
    next.workers = process.workers ∧
      udpSender crypto { process with workers := lows } path pbuf draws =
        .ok ({ next with workers := lows }, pbuf', outputs) := by
  simp only [udpSender] at hsender ⊢
  split at hsender
  · cases hsender
  · split at hsender
    · next halive =>
        cases hsender
        rw [if_pos halive]
        exact ⟨rfl, rfl⟩
    · next halive =>
        cases hsender
        rw [if_neg halive]
        exact ⟨rfl, rfl⟩

/-- An event other than the arrival of a datagram does the same to both peers. -/
theorem SameButBuffers.step (hsame : SameButBuffers process low) {event : Event}
    (hevent : ∀ index source bytes, event ≠ .received index source bytes)
    (hstep : step crypto process event = some (.ok (process', outputs))) :
    ∃ low', step crypto low event = some (.ok (low', outputs)) ∧
      SameButBuffers process' low' := by
  obtain ⟨lows, rfl, hlows⟩ := sameButBuffers_iff.mp hsame
  cases event with
  | start stack now listen =>
      obtain ⟨start, starts, hstarts, rfl, rfl⟩ := step_start hstep
      refine ⟨runStart { process with starts := starts, workers := lows } start stack now listen,
        by simp only [Vpn.step, hstarts], ?_⟩
      exact @sameButBuffers_runStart { process with starts := starts } lows hlows start stack now
        listen
  | hop clock stack now =>
      obtain ⟨path, hnext, hpath, rfl, rfl⟩ := step_hop hstep
      refine ⟨startWorker { process with hopNext := some (path + 1), workers := lows } path
        (totp crypto (process.ctx.paths path).portRange clock 0) 5000 now stack none,
        by simp only [Vpn.step, hnext, if_pos hpath], ?_⟩
      exact @sameButBuffers_startWorker { process with hopNext := some (path + 1) } lows hlows path
        _ 5000 now stack none
  | hopWake =>
      obtain ⟨path, hnext, hpath, rfl, rfl⟩ := step_hopWake hstep
      refine ⟨{ process with hopNext := some 0, workers := lows }, ?_, rfl, hlows⟩
      simp only [Vpn.step, hnext, if_neg (Nat.not_lt.mpr hpath)]
  | resolved index remote listen =>
      obtain ⟨worker, hworker, hstate, rfl, rfl⟩ := step_resolved hstep
      obtain ⟨buffer, hlow⟩ := exists_lowWorker hlows hworker
      refine ⟨resolveWorker { process with workers := lows } index { worker with pbuf := buffer }
        remote listen, by simp only [Vpn.step, hlow, if_pos hstate], ?_⟩
      exact @sameButBuffers_bindWorker
        { process with
          ctx := process.ctx.updatePath worker.path fun path =>
            { path with remote := remote, token := worker.token } } lows hlows index worker buffer
        listen
  | received index source bytes => exact absurd rfl (hevent index source bytes)
  | receiveError index =>
      obtain ⟨worker, hworker, hstate, hprocess, rfl⟩ := step_receiveError hstep
      obtain ⟨buffer, hlow⟩ := exists_lowWorker hlows hworker
      refine ⟨{ process with workers := lows }, ?_, ?_⟩
      · simp only [Vpn.step, hlow, if_pos hstate]
      · rw [hprocess]
        exact ⟨rfl, hlows⟩
  | timeout index now =>
      obtain ⟨worker, hworker, hstate, hdeadline, hnow, rfl, rfl⟩ := step_timeout hstep
      obtain ⟨buffer, hlow⟩ := exists_lowWorker hlows hworker
      refine ⟨receiveTimeout { process with workers := lows } index { worker with pbuf := buffer },
        ?_, ?_⟩
      · simp only [Vpn.step, hlow, if_pos (And.intro hstate (And.intro hdeadline hnow))]
      unfold receiveTimeout
      dsimp only
      split
      · exact ⟨rfl, hlows⟩
      · exact ⟨rfl, map_emptied_set hlows index rfl⟩
  | tunRead packet draws =>
      obtain ⟨pbuf, path, next, pbuf', htun, hlow, hhigh, hselect, hsender, rfl⟩ :=
        step_tunRead hstep
      obtain ⟨hworkers, hlowSender⟩ := udpSender_workers crypto process lows path _ draws hsender
      rw [htun] at hlowSender
      refine ⟨{ next with tun := some pbuf', workers := lows }, ?_, rfl, ?_⟩
      · simp only [Vpn.step, htun, if_pos (And.intro hlow hhigh), hselect, hlowSender]
      · dsimp only
        rw [hworkers, hlows]
  | tunReadError =>
      obtain ⟨pbuf, htun, rfl, rfl⟩ := step_tunReadError hstep
      refine ⟨{ process with tun := none, workers := lows }, ?_, rfl, hlows⟩
      simp only [Vpn.step, htun]
  | heartbeat readings draws =>
      obtain ⟨pbuf, ctx, pbuf', hpbuf, hround, rfl⟩ := step_heartbeat hstep
      refine ⟨{ process with ctx := ctx, heartbeat := some pbuf', workers := lows }, ?_, rfl, hlows⟩
      simp only [Vpn.step, hpbuf, hround]

/-- A datagram of the worker's token does the same to both peers. -/
theorem SameButBuffers.received (hsame : SameButBuffers process low)
    (hlossless : crypto.libraries.Lossless) (hlow : 0 ≤ process.ctx.mtu)
    (hhigh : process.ctx.mtu ≤ sizeofPayload) {index : Nat} {worker : Worker}
    {source : IpAddr} {bytes packet : List UInt8}
    (hworker : process.workers[index]? = some worker) (hstate : worker.state = .receiving)
    (hcarries : CarriesPacket crypto worker.token process.ctx.mtu packet bytes)
    (hstep : Vpn.step crypto process (.received index source bytes) =
      some (.ok (process', outputs))) :
    ∃ low', Vpn.step crypto low (.received index source bytes) = some (.ok (low', outputs)) ∧
      SameButBuffers process' low' := by
  obtain ⟨lows, rfl, hlows⟩ := sameButBuffers_iff.mp hsame
  obtain ⟨buffer, hlowWorker⟩ := exists_lowWorker hlows hworker
  simp only [Vpn.step, hworker, if_pos hstate] at hstep
  have hreceive := Option.some.inj hstep
  obtain ⟨pbuf, hcases⟩ := receiveDatagram_carried index source hlossless hlow hhigh hcarries
  obtain ⟨pbuf', hcases'⟩ := @receiveDatagram_carried crypto { process with workers := lows } index
    { worker with pbuf := buffer } source bytes packet hlossless hlow hhigh hcarries
  simp only [Vpn.step, hlowWorker, if_pos hstate]
  -- both scans look at the same pool for the same token
  rcases hcases with ⟨hrefused, hdrops⟩ | ⟨haccepted, haccepts⟩
  · rcases hcases' with ⟨-, hdrops'⟩ | ⟨haccepted', -⟩
    · rw [hdrops] at hreceive
      cases hreceive
      rw [hdrops']
      exact ⟨_, rfl, rfl, map_emptied_set hlows index rfl⟩
    · exact absurd hrefused haccepted'
  · rcases hcases' with ⟨hrefused', -⟩ | ⟨-, haccepts'⟩
    · exact absurd hrefused' haccepted
    · rw [haccepts] at hreceive
      cases hreceive
      rw [haccepts']
      exact ⟨_, rfl, rfl, map_emptied_set hlows index rfl⟩

/-- A datagram that arrives is one of the worker's token. -/
def Genuine (crypto : Crypto) (process : Process) (event : Event) : Prop :=
  ∀ (index : Nat) (source : IpAddr) (bytes : List UInt8) (worker : Worker),
    event = .received index source bytes → process.workers[index]? = some worker →
    worker.state = .receiving →
    ∃ packet, CarriesPacket crypto worker.token process.ctx.mtu packet bytes

theorem SameButBuffers.genuine (hsame : SameButBuffers process low) {event : Event}
    (hgenuine : Genuine crypto low event) : Genuine crypto process event := by
  intro index source bytes worker hevent hworker hstate
  obtain ⟨lows, rfl, hlows⟩ := sameButBuffers_iff.mp hsame
  obtain ⟨buffer, hlow⟩ := exists_lowWorker hlows hworker
  exact hgenuine index source bytes { worker with pbuf := buffer } hevent hlow hstate

/-- An event does the same to both peers, if no datagram that arrives is made up. -/
theorem SameButBuffers.allowed (hsame : SameButBuffers process low)
    (hlossless : crypto.libraries.Lossless) (hlow : 0 ≤ process.ctx.mtu)
    (hhigh : process.ctx.mtu ≤ sizeofPayload) {event : Event}
    (hgenuine : Genuine crypto process event)
    (hstep : Vpn.step crypto process event = some (.ok (process', outputs))) :
    ∃ low', Vpn.step crypto low event = some (.ok (low', outputs)) ∧
      SameButBuffers process' low' := by
  by_cases hevent : ∃ index source bytes, event = .received index source bytes
  · obtain ⟨index, source, bytes, rfl⟩ := hevent
    obtain ⟨worker, hworker, hstate, -⟩ := step_received hstep
    obtain ⟨packet, hpacket⟩ := hgenuine index source bytes worker rfl hworker hstate
    exact hsame.received hlossless hlow hhigh hworker hstate hpacket hstep
  · exact hsame.step (fun index source bytes heq => hevent ⟨index, source, bytes, heq⟩) hstep

/-! ## Forged datagrams -/

/-- What a worker receives is too short for a header, or its checksum is wrong. -/
def Forged (crypto : Crypto) (mtu : Int) (worker : Worker) (bytes : List UInt8) : Prop :=
  let data := bytes.take (toUInt64 (mtu + payloadOffset))
  data.length < payloadOffset ∨
    (crypto.cryptoDecrypt worker.token (worker.pbuf.write 0 data)
      (toUInt64 (data.length : Nat))).1 ≠ 0

instance (crypto : Crypto) (mtu : Int) (worker : Worker) (bytes : List UInt8) :
    Decidable (Forged crypto mtu worker bytes) :=
  inferInstanceAs (Decidable (_ ∨ _))

/-- A forged datagram gets as far as the receive buffer. -/
theorem receiveDatagram_forged {index : Nat} {worker : Worker} (source : IpAddr)
    {bytes : List UInt8} (hforged : Forged crypto process.ctx.mtu worker bytes) :
    ∃ buffer, receiveDatagram crypto process index worker source bytes =
      .ok ({ process with
        workers := process.workers.set index { worker with pbuf := buffer } }, []) := by
  unfold receiveDatagram
  dsimp only
  split
  · exact ⟨_, rfl⟩
  split
  · exact ⟨_, rfl⟩
  next hlong =>
  have hchecksum := hforged.resolve_left hlong
  simp only [decapsulate]
  rw [if_pos hchecksum]
  dsimp only
  rw [if_pos (show (-1 : Int) < 0 by decide), List.set_set]
  exact ⟨_, rfl⟩

/-! ## A network that makes up datagrams -/

/-- A datagram that nobody sent arrives at a socket. -/
inductive Injects (crypto : Crypto) (net : Network) : NetworkEvent → Network → Prop where
  | client {index : Nat} {worker : Worker} {source : IpAddr} {bytes : List UInt8}
      {client : Process} {outputs : List Output} : net.client.workers[index]? = some worker →
      Forged crypto net.client.ctx.mtu worker bytes →
      step crypto net.client (.received index source bytes) = some (.ok (client, outputs)) →
      Injects crypto net (.client (.received index source bytes))
        { net with
          client := client
          sent := net.sent ++ outputs.filterMap (emitted net.client) }
  | server {index : Nat} {worker : Worker} {source : IpAddr} {bytes : List UInt8}
      {server : Process} {outputs : List Output} : net.server.workers[index]? = some worker →
      Forged crypto net.server.ctx.mtu worker bytes →
      step crypto net.server (.received index source bytes) = some (.ok (server, outputs)) →
      Injects crypto net (.server (.received index source bytes))
        { net with
          server := server
          sent := net.sent ++ outputs.filterMap (emitted net.server) }

/-- An event of the two peers, and whether the network made it up. -/
inductive HostileEvent where
  | honest (event : NetworkEvent)
  | forged (event : NetworkEvent)

/-- The runs of both peers with a network that makes up datagrams besides. -/
def hostile (crypto : Crypto) (deployment : Deployment) :
    TransitionSystem Network HostileEvent where
  initial := (network crypto deployment).initial
  step net event net' :=
    match event with
    | .honest event => nextNetwork crypto deployment net event = some net'
    | .forged event => Injects crypto net event net'

/-- What is written down of a step: the event, and what it does at the TUN devices. -/
def log (crypto : Crypto) (step : Step Network NetworkEvent) : List (NetworkEvent ⊕ TunEvent) :=
  .inl step.event :: (tunEvents crypto step).map .inr

/-- Of a made up event only what it does is written down. -/
def hostileLog (crypto : Crypto) (step : Step Network HostileEvent) :
    List (NetworkEvent ⊕ TunEvent) :=
  match step.event with
  | .honest event => log crypto ⟨step.before, event, step.after⟩
  | .forged event => (tunEvents crypto ⟨step.before, event, step.after⟩).map .inr

/-- Both peers are alike up to the receive buffers. -/
structure Alike (net low : Network) : Prop where
  client : SameButBuffers net.client low.client
  server : SameButBuffers net.server low.server
  sent : low.sent = net.sent

variable {low : Network}

theorem Alike.symm (halike : Alike net low) : Alike low net :=
  ⟨halike.client.symm, halike.server.symm, halike.sent.symm⟩

/-- The socket of a worker is the same. -/
theorem emitted_alike {process low : Process} (hsame : SameButBuffers process low) :
    emitted low = emitted process := by
  obtain ⟨lows, rfl, hlows⟩ := sameButBuffers_iff.mp hsame
  funext output
  cases output with
  | tunWrite packet => rfl
  | udpsend path sock remote data =>
      simp only [emitted]
      cases hworker : process.workers[sock]? with
      | some worker =>
          obtain ⟨buffer, hlow⟩ := exists_lowWorker hlows hworker
          rw [hlow]
      | none =>
          have hlow : lows[sock]? = none := by
            have hmap : (lows[sock]?).map Worker.emptied = none := by
              rw [← List.getElem?_map, hlows, List.getElem?_map, hworker, Option.map_none]
            exact Option.map_eq_none_iff.mp hmap
          rw [hlow]

/-- What the outside world may answer does not depend on the receive buffers. -/
theorem clientWorld_alike (halike : Alike net low) {event : Event}
    (hworld : ClientWorld deployment net event) : ClientWorld deployment low event := by
  obtain ⟨lows, hrest, hlows⟩ := sameButBuffers_iff.mp halike.client
  cases event with
  | resolved index remote listen =>
      simp only [ClientWorld, Resolved] at hworld ⊢
      split at hworld
      · next worker bound hworker =>
          obtain ⟨buffer, hlow⟩ := exists_lowWorker hlows hworker
          obtain ⟨hremote, hfresh⟩ := hworld
          have hendpoints : endpoints low.client = endpoints net.client := by
            rw [hrest]
            exact endpoints_alike hlows
          rw [hrest]
          simp only [hlow]
          refine ⟨hremote, ?_, hfresh.2⟩
          rw [hendpoints]
          exact hfresh.1
      · cases hworld
  | received index source bytes =>
      simp only [ClientWorld, Delivered] at hworld ⊢
      split at hworld
      · cases hworld
      · next worker hworker =>
          obtain ⟨buffer, hlow⟩ := exists_lowWorker hlows hworker
          rw [hrest]
          simp only [hlow, halike.sent]
          exact hworld
  | start | hop | hopWake | receiveError | timeout | tunRead | tunReadError | heartbeat =>
      trivial

theorem serverWorld_alike (halike : Alike net low) {event : Event}
    (hworld : ServerWorld deployment net event) : ServerWorld deployment low event := by
  obtain ⟨lows, hrest, hlows⟩ := sameButBuffers_iff.mp halike.server
  cases event with
  | start stack now listen =>
      simp only [ServerWorld] at hworld ⊢
      rw [hrest]
      exact hworld
  | received index source bytes =>
      simp only [ServerWorld, Delivered] at hworld ⊢
      split at hworld
      · cases hworld
      · next worker hworker =>
          obtain ⟨buffer, hlow⟩ := exists_lowWorker hlows hworker
          rw [hrest]
          simp only [hlow, halike.sent]
          exact hworld
  | resolved | hop | hopWake | receiveError | timeout | tunRead | tunReadError | heartbeat =>
      trivial

/-- What the network delivers was sent to the worker. -/
theorem client_genuine (hlossless : crypto.libraries.Lossless)
    (hreach : Reachable (network crypto deployment) net) {event : Event}
    (hworld : ClientWorld deployment net event) : Genuine crypto net.client event := by
  rintro index source bytes worker rfl hworker hstate
  have hmtu : net.client.ctx.mtu = deployment.client.mtu := (client_sameConf hreach).mtu
  have hsent := (delivered_iff hworker).mp hworld
  obtain ⟨packet, hcarries, -⟩ :=
    tagged_client hreach hworker hstate (tagged_of_sent hlossless hreach hsent)
  rw [← hmtu] at hcarries
  exact ⟨packet, hcarries⟩

theorem server_genuine (hlossless : crypto.libraries.Lossless)
    (hreach : Reachable (network crypto deployment) net) {event : Event}
    (hworld : ServerWorld deployment net event) : Genuine crypto net.server event := by
  rintro index source bytes worker rfl hworker hstate
  obtain ⟨-, hmtu, -⟩ := server_sameConf hreach
  have hsent := (delivered_iff hworker).mp hworld
  obtain ⟨packet, hcarries, -⟩ :=
    tagged_server hreach hworker hstate (tagged_of_sent hlossless hreach hsent)
  rw [← hmtu] at hcarries
  exact ⟨packet, hcarries⟩

/-- One of the two networks is without made up datagrams. -/
def Clean (crypto : Crypto) (deployment : Deployment) (net low : Network) : Prop :=
  Reachable (network crypto deployment) net ∨ Reachable (network crypto deployment) low

/-- What the one network allows does the same in the other one. -/
theorem Alike.stepClient (halike : Alike net low) (hlossless : crypto.libraries.Lossless)
    (hclean : Clean crypto deployment net low) {event : Event} {client : Process}
    (hworld : ClientWorld deployment net event)
    (hstep : step crypto net.client event = some (.ok (client, outputs))) :
    ∃ client', step crypto low.client event = some (.ok (client', outputs)) ∧
      SameButBuffers client client' := by
  have hrest : low.client.ctx = net.client.ctx := by rw [halike.client.rest]
  obtain ⟨hmtu, hgenuine⟩ : net.client.ctx.mtu = deployment.client.mtu ∧
      Genuine crypto net.client event := by
    rcases hclean with hreach | hreach
    · exact ⟨(client_sameConf hreach).mtu, client_genuine hlossless hreach hworld⟩
    · refine ⟨?_, halike.client.genuine
        (client_genuine hlossless hreach (clientWorld_alike halike hworld))⟩
      rw [← hrest]
      exact (client_sameConf hreach).mtu
  exact halike.client.allowed hlossless (by rw [hmtu]; exact deployment.mtu_nonneg)
    (by rw [hmtu]; exact deployment.mtu_le) hgenuine hstep

theorem Alike.stepServer (halike : Alike net low) (hlossless : crypto.libraries.Lossless)
    (hclean : Clean crypto deployment net low) {event : Event} {server : Process}
    (hworld : ServerWorld deployment net event)
    (hstep : step crypto net.server event = some (.ok (server, outputs))) :
    ∃ server', step crypto low.server event = some (.ok (server', outputs)) ∧
      SameButBuffers server server' := by
  have hrest : low.server.ctx = net.server.ctx := by rw [halike.server.rest]
  obtain ⟨hmtu, hgenuine⟩ : net.server.ctx.mtu = deployment.client.mtu ∧
      Genuine crypto net.server event := by
    rcases hclean with hreach | hreach
    · exact ⟨(server_sameConf hreach).2.1, server_genuine hlossless hreach hworld⟩
    · refine ⟨?_, halike.server.genuine
        (server_genuine hlossless hreach (serverWorld_alike halike hworld))⟩
      rw [← hrest]
      exact (server_sameConf hreach).2.1
  exact halike.server.allowed hlossless (by rw [hmtu]; exact deployment.mtu_nonneg)
    (by rw [hmtu]; exact deployment.mtu_le) hgenuine hstep

/-- Events with the same outputs do the same at the TUN device. -/
theorem tunEventsOf_congr {process process' other other' : Process} {event : Event} (side : Side)
    (hstep : step crypto process event = some (.ok (process', outputs)))
    (hother : step crypto other event = some (.ok (other', outputs))) :
    tunEventsOf crypto side other event = tunEventsOf crypto side process event := by
  unfold tunEventsOf
  rw [hstep, hother]

/-- An honest event is matched by itself. -/
theorem Alike.honest (halike : Alike net low) (hlossless : crypto.libraries.Lossless)
    (hclean : Clean crypto deployment net low) {event : NetworkEvent}
    (hnext : nextNetwork crypto deployment net event = some net') :
    ∃ low', nextNetwork crypto deployment low event = some low' ∧ Alike net' low' ∧
      log crypto ⟨low, event, low'⟩ = log crypto ⟨net, event, net'⟩ := by
  cases event with
  | client event =>
      obtain ⟨hworld, outputs, hstep, hserver, hsent⟩ := nextNetwork_client hnext
      obtain ⟨client', hlow, hsame⟩ := halike.stepClient hlossless hclean hworld hstep
      refine ⟨{ low with
        client := client'
        sent := low.sent ++ outputs.filterMap (emitted low.client) }, ?_, ?_, ?_⟩
      · rw [nextNetwork, if_pos (clientWorld_alike halike hworld), hlow]
      · refine ⟨hsame, hserver ▸ halike.server, ?_⟩
        rw [hsent, halike.sent, emitted_alike halike.client]
      · simp only [log, tunEvents, tunEventsOf_congr .client hstep hlow]
  | server event =>
      obtain ⟨hworld, outputs, hstep, hclient, hsent⟩ := nextNetwork_server hnext
      obtain ⟨server', hlow, hsame⟩ := halike.stepServer hlossless hclean hworld hstep
      refine ⟨{ low with
        server := server'
        sent := low.sent ++ outputs.filterMap (emitted low.server) }, ?_, ?_, ?_⟩
      · rw [nextNetwork, if_pos (serverWorld_alike halike hworld), hlow]
      · refine ⟨hclient ▸ halike.client, hsame, ?_⟩
        rw [hsent, halike.sent, emitted_alike halike.server]
      · simp only [log, tunEvents, tunEventsOf_congr .server hstep hlow]

/-- A forged datagram can arrive at any open socket: no assertion fails. -/
theorem exists_step_forged {index : Nat} {worker : Worker} (source : IpAddr)
    {bytes : List UInt8} (hworker : process.workers[index]? = some worker)
    (hstate : worker.state = .receiving) (hforged : Forged crypto process.ctx.mtu worker bytes) :
    ∃ buffer, step crypto process (.received index source bytes) = some (.ok ({ process with
      workers := process.workers.set index { worker with pbuf := buffer } }, [])) := by
  obtain ⟨buffer, hdrops⟩ :=
    @receiveDatagram_forged crypto process index worker source bytes hforged
  refine ⟨buffer, ?_⟩
  simp only [Vpn.step, hworker, if_pos hstate, hdrops]

/-- It changes a receive buffer at most, and nothing is written. -/
theorem step_forged {index : Nat} {worker : Worker} {source : IpAddr} {bytes : List UInt8}
    (hworker : process.workers[index]? = some worker)
    (hforged : Forged crypto process.ctx.mtu worker bytes)
    (hstep : step crypto process (.received index source bytes) =
      some (.ok (process', outputs))) :
    SameButBuffers process' process ∧ outputs = [] := by
  obtain ⟨worker', hworker', hstate, -⟩ := step_received hstep
  rw [hworker] at hworker'
  cases hworker'
  obtain ⟨buffer, hdrops⟩ := exists_step_forged source hworker hstate hforged
  rw [hdrops] at hstep
  cases hstep
  refine ⟨⟨rfl, ?_⟩, rfl⟩
  have hat : (process.workers.map Worker.emptied)[index]? = some worker.emptied := by
    rw [List.getElem?_map, hworker, Option.map_some]
  obtain ⟨hlength, hget⟩ := List.getElem?_eq_some_iff.mp hat
  have hsame : ({ worker with pbuf := buffer } : Worker).emptied = worker.emptied := rfl
  dsimp only
  rw [List.map_set, hsame, ← hget, List.set_getElem_self]

/-- A forged datagram is matched by nothing. -/
theorem Alike.forged (halike : Alike net low) {event : NetworkEvent}
    (hinjects : Injects crypto net event net') :
    Alike net' low ∧ tunEvents crypto ⟨net, event, net'⟩ = [] := by
  cases hinjects with
  | client hworker hforged hstep =>
      obtain ⟨hsame, rfl⟩ := step_forged hworker hforged hstep
      refine ⟨⟨hsame.trans halike.client, halike.server, ?_⟩, ?_⟩
      · rw [halike.sent, List.filterMap_nil, List.append_nil]
      · simp only [tunEvents, tunEventsOf, hstep]
        rfl
  | server hworker hforged hstep =>
      obtain ⟨hsame, rfl⟩ := step_forged hworker hforged hstep
      refine ⟨⟨halike.client, hsame.trans halike.server, ?_⟩, ?_⟩
      · rw [halike.sent, List.filterMap_nil, List.append_nil]
      · simp only [tunEvents, tunEventsOf, hstep]
        rfl

/-- Without the forged datagrams it is a run of the network. -/
theorem network_hides (hlossless : crypto.libraries.Lossless) (deployment : Deployment) :
    Hiding (hostile crypto deployment) (network crypto deployment) (hostileLog crypto)
      (log crypto) Alike where
  initial net hinitial := ⟨net, hinitial, .refl net.client, .refl net.server, rfl⟩
  step := by
    rintro net (event | event) net' low hreach halike hnext
    · obtain ⟨low', hlow, halike', hlog⟩ := halike.honest hlossless (Or.inr hreach) hnext
      exact Or.inr ⟨event, low', hlow, halike', hlog⟩
    · obtain ⟨halike', hnothing⟩ := halike.forged hnext
      refine Or.inl ⟨?_, halike'⟩
      simp only [hostileLog, hnothing, List.map_nil]

/-- The events at the TUN devices. -/
theorem getRight_log (crypto : Crypto) (steps : List (Step Network NetworkEvent)) :
    (observed (log crypto) steps).filterMap Sum.getRight? = observed (tunEvents crypto) steps := by
  induction steps with
  | nil => rfl
  | cons step steps ih =>
      rw [observed_cons, observed_cons, List.filterMap_append, ih, log, List.filterMap_cons]
      simp only [Sum.getRight?, List.filterMap_map]
      exact congrArg _ (List.filterMap_some ..)

/-- What a network can do that makes up datagrams: nothing that one without them cannot do. -/
structure WithstandsForgery (crypto : Crypto) (deployment : Deployment)
    (steps : List (Step Network HostileEvent)) (net : Network) : Prop where
  /-- There is a run without the made up datagrams, with all other events of this one and with
  the same packets at the TUN devices.  It ends alike, and with the same events possible. -/
  hidden : ∃ steps' low, History (network crypto deployment) steps' low ∧ Alike net low ∧
    observed (log crypto) steps' = observed (hostileLog crypto) steps ∧
    ∀ event, (nextNetwork crypto deployment net event).isSome =
      (nextNetwork crypto deployment low event).isSome
  /-- A packet that is written was read on the other side. -/
  written : ∀ before side packet after,
    (observed (hostileLog crypto) steps).filterMap Sum.getRight? =
        before ++ .write side packet :: after →
      .read side.other packet ∈ before
  /-- No assertion of the client fails. -/
  client : ∀ (index : Nat) (worker : Worker) (source : IpAddr) (bytes : List UInt8),
    net.client.workers[index]? = some worker → worker.state = .receiving →
    Forged crypto net.client.ctx.mtu worker bytes →
    ∃ net', Injects crypto net (.client (.received index source bytes)) net'
  /-- No assertion of the server fails. -/
  server : ∀ (index : Nat) (worker : Worker) (source : IpAddr) (bytes : List UInt8),
    net.server.workers[index]? = some worker → worker.state = .receiving →
    Forged crypto net.server.ctx.mtu worker bytes →
    ∃ net', Injects crypto net (.server (.received index source bytes)) net'

/-- The same events are possible. -/
theorem Alike.isSome_nextNetwork (halike : Alike net low)
    (hlossless : crypto.libraries.Lossless)
    (hreach : Reachable (network crypto deployment) low) (event : NetworkEvent) :
    (nextNetwork crypto deployment net event).isSome =
      (nextNetwork crypto deployment low event).isSome := by
  rw [Bool.eq_iff_iff, Option.isSome_iff_exists, Option.isSome_iff_exists]
  constructor
  · rintro ⟨net', hnext⟩
    obtain ⟨low', hlow, -⟩ := halike.honest hlossless (Or.inr hreach) hnext
    exact ⟨low', hlow⟩
  · rintro ⟨low', hlow⟩
    obtain ⟨net', hnext, -⟩ := halike.symm.honest hlossless (Or.inl hreach) hlow
    exact ⟨net', hnext⟩

/-- **Forged datagrams achieve nothing**, whenever and however many of them arrive. -/
theorem hostile_hidden (crypto : Crypto) (hlossless : crypto.libraries.Lossless)
    (deployment : Deployment) (steps : List (Step Network HostileEvent)) (net : Network)
    (hrun : History (hostile crypto deployment) steps net) :
    WithstandsForgery crypto deployment steps net := by
  obtain ⟨steps', low, hlow, halike, hsame⟩ := (network_hides hlossless deployment).history hrun
  refine ⟨⟨steps', low, hlow, halike, hsame, fun event =>
    halike.isSome_nextNetwork hlossless hlow.reachable event⟩, ?_, ?_, ?_⟩
  · intro before side packet after htrace
    obtain ⟨first, final, hinitial, hpath, -⟩ :=
      (tunnel_simulates hlossless deployment).history hlow
    rw [← hsame, getRight_log] at htrace
    rw [htrace] at hpath
    exact read_of_written hinitial hpath
  · intro index worker source bytes hworker hstate hforged
    obtain ⟨buffer, hstep⟩ := exists_step_forged source hworker hstate hforged
    exact ⟨_, .client hworker hforged hstep⟩
  · intro index worker source bytes hworker hstate hforged
    obtain ⟨buffer, hstep⟩ := exists_step_forged source hworker hstate hforged
    exact ⟨_, .server hworker hforged hstep⟩

/-- Without forged datagrams it is a run of this network. -/
theorem history_honest {steps : List (Step Network NetworkEvent)}
    (hrun : History (network crypto deployment) steps net) :
    History (hostile crypto deployment)
      (steps.map fun step => ⟨step.before, .honest step.event, step.after⟩) net := by
  induction hrun with
  | initial hinitial => exact .initial hinitial
  | step _ hnext ih => exact .step ih hnext

/-- Twenty zeroes arrive at the server. -/
theorem hostile_hidden_zeroes : ∃ steps step net,
    History (hostile Reference.crypto onePath) (step :: steps) net ∧
      step.event = .forged (.server (.received 0 ⟨6, 6⟩ (List.replicate 20 0))) ∧
      WithstandsForgery Reference.crypto onePath (step :: steps) net := by
  have hruns : ((run (nextNetwork Reference.crypto onePath)
      ⟨vpnRun onePath.client, vpnRun onePath.server, []⟩ opening).any fun net =>
        (net.server.workers[0]?).any fun worker => decide (worker.state = .receiving ∧
          Forged Reference.crypto net.server.ctx.mtu worker (List.replicate 20 0))) = true := by
    decide +kernel
  obtain ⟨net, hrun, hworkers⟩ := (Option.any_eq_true _ _).mp hruns
  obtain ⟨worker, hworker, hboth⟩ := (Option.any_eq_true _ _).mp hworkers
  obtain ⟨hstate, hforged⟩ := of_decide_eq_true hboth
  have hinitial : (network Reference.crypto onePath).initial
      ⟨vpnRun onePath.client, vpnRun onePath.server, []⟩ := rfl
  obtain ⟨steps, hhistory, -⟩ := exists_history_of_run (fun _ _ _ => id) hinitial hrun
  obtain ⟨buffer, hstep⟩ := exists_step_forged ⟨6, 6⟩ hworker hstate hforged
  obtain ⟨net', hnext⟩ : ∃ net', (hostile Reference.crypto onePath).step net
      (.forged (.server (.received 0 ⟨6, 6⟩ (List.replicate 20 0)))) net' :=
    ⟨_, Injects.server hworker hforged hstep⟩
  have hlonger := History.step (history_honest hhistory) hnext
  exact ⟨_, _, _, hlonger, rfl, hostile_hidden Reference.crypto Reference.libraries_lossless
    onePath _ _ hlonger⟩

end Vpn
end Muon
