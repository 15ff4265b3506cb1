import Mathlib.Data.Set.Insert
import Muon.Foundation.Simulation
import Muon.Vpn.Traffic

/-!
# The tunnel between the TUN devices

Seen from the TUN devices, client, server and network are one channel in each
direction: a packet that was read on one side can be written on the other one, any
number of times, in any order, or never; and nothing else is ever written.

The abstract tunnel knows the packets that were read.  The network of the peers is
simulated by it, step by step; what ties a state of the network to a state of the
tunnel is that every packet in flight was read by the side that sent it.
-/

namespace Muon
namespace Vpn

open Foundation Packet Totp

variable {crypto : Crypto} {deployment : Deployment} {net net' : Network}

/-! ## The abstract tunnel -/

/-- What happens at the TUN devices. -/
inductive TunEvent where
  /-- A packet is read on a side. -/
  | read (side : Side) (packet : List UInt8)
  /-- A packet is written on a side. -/
  | write (side : Side) (packet : List UInt8)
  deriving DecidableEq, Repr

/-- The packets that were read on each side are all that can be written on the other. -/
def tunnel : TransitionSystem (Side → Set (List UInt8)) TunEvent where
  initial carried := ∀ side, carried side = ∅
  step carried event carried' :=
    match event with
    | .read side packet =>
        packet ≠ [] ∧ carried' = Function.update carried side (insert packet (carried side))
    | .write side packet => packet ∈ carried side.other ∧ carried' = carried

/-- What the tunnel carries was read. -/
theorem read_of_carried {carried carried' : Side → Set (List UInt8)} {events : List TunEvent}
    (hpath : Path tunnel carried events carried') {side : Side} {packet : List UInt8}
    (hcarried : packet ∈ carried' side) :
    packet ∈ carried side ∨ .read side packet ∈ events := by
  induction hpath with
  | nil => exact Or.inl hcarried
  | @cons state state' final event events hstep _ ih =>
      rcases ih hcarried with hbefore | hlater
      · cases event with
        | read side' packet' =>
            obtain ⟨-, rfl⟩ := hstep
            rcases eq_or_ne side side' with rfl | hne
            · rw [Function.update_self] at hbefore
              rcases Set.mem_insert_iff.mp hbefore with rfl | hold
              · exact Or.inr List.mem_cons_self
              · exact Or.inl hold
            · rw [Function.update_of_ne hne] at hbefore
              exact Or.inl hbefore
        | write side' packet' =>
            obtain ⟨-, rfl⟩ := hstep
            exact Or.inl hbefore
      · exact Or.inr (List.mem_cons_of_mem _ hlater)

/-- Every packet that is written was read before on the other side. -/
theorem read_of_written {first final : Side → Set (List UInt8)}
    {before after : List TunEvent} {side : Side} {packet : List UInt8}
    (hinitial : tunnel.initial first)
    (hpath : Path tunnel first (before ++ .write side packet :: after) final) :
    .read side.other packet ∈ before := by
  obtain ⟨middle, hbefore, hrest⟩ := hpath.of_append
  cases hrest with
  | cons hstep _ =>
      rcases read_of_carried hbefore hstep.1 with hfirst | hread
      · rw [hinitial] at hfirst
        exact absurd hfirst (Set.notMem_empty packet)
      · exact hread

/-! ## What the peers do at their TUN devices -/

/-- What an event of a peer does at its TUN device. -/
def tunEventsOf (crypto : Crypto) (side : Side) (process : Process) (event : Event) :
    List TunEvent :=
  (match event with
    | .tunRead packet _ => [.read side packet]
    | _ => []) ++
  match step crypto process event with
  | some (.ok (_, outputs)) => outputs.filterMap fun
      | .tunWrite packet => some (.write side packet)
      | .udpsend _ _ _ _ => none
  | _ => []

/-- What a step of the network does at the TUN devices. -/
def tunEvents (crypto : Crypto) (step : Step Network NetworkEvent) : List TunEvent :=
  match step.event with
  | .client event => tunEventsOf crypto .client step.before.client event
  | .server event => tunEventsOf crypto .server step.before.server event

/-- Only a worker writes to the TUN device. -/
theorem step_tunWrite {process process' : Process} {outputs : List Output} {event : Event}
    (hstep : step crypto process event = some (.ok (process', outputs)))
    {packet : List UInt8} (hwrite : .tunWrite packet ∈ outputs) :
    ∃ index source bytes, event = .received index source bytes := by
  have hquiet : outputs ≠ [] := List.ne_nil_of_mem hwrite
  cases event with
  | received index source bytes => exact ⟨index, source, bytes, rfl⟩
  | start stack now listen =>
      obtain ⟨start, starts, -, -, hnone⟩ := step_start hstep
      exact absurd hnone hquiet
  | hop clock stack now =>
      obtain ⟨path, -, -, -, hnone⟩ := step_hop hstep
      exact absurd hnone hquiet
  | hopWake =>
      obtain ⟨path, -, -, -, hnone⟩ := step_hopWake hstep
      exact absurd hnone hquiet
  | resolved index remote listen =>
      obtain ⟨worker, -, -, -, hnone⟩ := step_resolved hstep
      exact absurd hnone hquiet
  | receiveError index =>
      obtain ⟨worker, -, -, -, hnone⟩ := step_receiveError hstep
      exact absurd hnone hquiet
  | timeout index now =>
      obtain ⟨worker, -, -, -, -, -, hnone⟩ := step_timeout hstep
      exact absurd hnone hquiet
  | tunReadError =>
      obtain ⟨pbuf, -, -, hnone⟩ := step_tunReadError hstep
      exact absurd hnone hquiet
  | tunRead packet' draws =>
      obtain ⟨pbuf, path, next, pbuf', -, -, -, -, hsend, -⟩ := step_tunRead hstep
      simp only [udpSender] at hsend
      split at hsend
      · cases hsend
      · split at hsend
        · cases hsend
          cases hwrite
        · cases hsend
          cases List.mem_singleton.mp hwrite
  | heartbeat readings draws =>
      obtain ⟨pbuf, ctx, pbuf', -, hround, -⟩ := step_heartbeat hstep
      have hsends := (heartbeatPaths_forall
        (fun _ output => output ≠ .tunWrite packet) (fun hne _ _ => hne) crypto readings draws
        (List.range process.ctx.pathCount) process.ctx pbuf (by
          rintro draws path ctx' pbuf - output houtput rfl
          unfold sendHeartbeat at houtput
          split at houtput
          · split at houtput
            · cases houtput
            · cases List.mem_singleton.mp houtput
          · cases houtput)).2
      rw [hround] at hsends
      exact absurd rfl (hsends _ hwrite)

/-- A datagram with a packet under the worker's token: the event is possible, and writes
the packet unless the scan of a server refuses the token. -/
theorem step_received_carried {process : Process} {index : Nat} {worker : Worker}
    (source : IpAddr) {bytes packet : List UInt8} (hlossless : crypto.libraries.Lossless)
    (hlow : 0 ≤ process.ctx.mtu) (hhigh : process.ctx.mtu ≤ sizeofPayload)
    (hworker : process.workers[index]? = some worker) (hstate : worker.state = .receiving)
    (hcarries : CarriesPacket crypto worker.token process.ctx.mtu packet bytes) :
    ∃ process' pbuf,
      step crypto process (.received index source bytes) =
        some (.ok (process', if Refused process worker then [] else written packet)) ∧
      process'.ctx = (if Refused process worker then process.ctx
        else acceptDatagram process.ctx index { worker with pbuf := pbuf } source
          packet.length) ∧
      process'.workers = process.workers.set index { worker with pbuf := pbuf } := by
  obtain ⟨pbuf, ⟨hrefused, hreceive⟩ | ⟨haccepted, hreceive⟩⟩ :=
    receiveDatagram_carried index source hlossless hlow hhigh hcarries
  · refine ⟨{ process with
      workers := process.workers.set index { worker with pbuf := pbuf } }, pbuf, ?_, ?_, rfl⟩
    · simp only [step, hworker, hstate, if_pos, hreceive, hrefused]
    · rw [if_pos hrefused]
  · refine ⟨{ process with
      ctx := acceptDatagram process.ctx index { worker with pbuf := pbuf } source packet.length
      workers := process.workers.set index { worker with pbuf := pbuf } }, pbuf, ?_, ?_, rfl⟩
    · simp only [step, hworker, hstate, if_pos, hreceive, if_neg haccepted]
    · rw [if_neg haccepted]

/-- A worker writes the packet of the datagram. -/
theorem eq_of_written {process process' : Process} {outputs : List Output} {index : Nat}
    {worker : Worker} {source : IpAddr} {bytes packet packet' : List UInt8}
    (hlossless : crypto.libraries.Lossless)
    (hlow : 0 ≤ process.ctx.mtu) (hhigh : process.ctx.mtu ≤ sizeofPayload)
    (hworker : process.workers[index]? = some worker) (hstate : worker.state = .receiving)
    (hcarries : CarriesPacket crypto worker.token process.ctx.mtu packet bytes)
    (hstep : step crypto process (.received index source bytes) =
      some (.ok (process', outputs)))
    (hwrite : .tunWrite packet' ∈ outputs) : packet' = packet ∧ packet ≠ [] := by
  obtain ⟨process'', pbuf, hreceived, -⟩ :=
    step_received_carried source hlossless hlow hhigh hworker hstate hcarries
  rw [hreceived] at hstep
  cases hstep
  split at hwrite
  · cases hwrite
  · unfold written at hwrite
    split at hwrite
    · cases hwrite
    · next hempty =>
        cases List.mem_singleton.mp hwrite
        exact ⟨rfl, hempty⟩

/-! ## The simulation -/

/-- Every packet in flight was read by the side that sent it. -/
def InFlight (crypto : Crypto) (deployment : Deployment) (net : Network)
    (carried : Side → Set (List UInt8)) : Prop :=
  ∀ datagram ∈ net.sent, Tagged crypto deployment (endpoints net.client)
    (fun side _ packet _ => packet ≠ [] → packet ∈ carried side) datagram

/-- Writes of what the tunnel carries leave it alone. -/
theorem path_writes {carried : Side → Set (List UInt8)} {side : Side} {outputs : List Output}
    (hwrites : ∀ packet, .tunWrite packet ∈ outputs → packet ∈ carried side.other) :
    Path tunnel carried (outputs.filterMap fun
      | .tunWrite packet => some (.write side packet)
      | .udpsend _ _ _ _ => none) carried := by
  induction outputs with
  | nil => exact .nil
  | cons output outputs ih =>
      have hrest := ih fun packet hmem => hwrites packet (List.mem_cons_of_mem _ hmem)
      cases output with
      | tunWrite packet => exact .cons ⟨hwrites packet List.mem_cons_self, rfl⟩ hrest
      | udpsend path sock remote data => exact hrest

/-- What a peer does at its TUN device, the tunnel does: it goes on carrying what it
carried, and it carries what the event sends. -/
theorem exists_path_tunEventsOf {process process' : Process} {outputs : List Output}
    {event : Event} (hstep : step crypto process event = some (.ok (process', outputs)))
    (side : Side) (carried : Side → Set (List UInt8))
    (hwrites : ∀ packet, .tunWrite packet ∈ outputs → packet ∈ carried side.other) :
    ∃ carried', Path tunnel carried (tunEventsOf crypto side process event) carried' ∧
      (∀ side packet, packet ∈ carried side → packet ∈ carried' side) ∧
      (sentPacket event ≠ [] → sentPacket event ∈ carried' side) := by
  unfold tunEventsOf
  rw [hstep]
  cases event with
  | tunRead packet draws =>
      obtain ⟨pbuf, path, next, pbuf', -, hlength, -⟩ := step_tunRead hstep
      have hkeeps : ∀ side' packet', packet' ∈ carried side' →
          packet' ∈ Function.update carried side (insert packet (carried side)) side' := by
        intro side' packet' hmem
        rcases eq_or_ne side' side with rfl | hne
        · rw [Function.update_self]
          exact Set.mem_insert_of_mem _ hmem
        · rwa [Function.update_of_ne hne]
      refine ⟨Function.update carried side (insert packet (carried side)),
        .cons ⟨List.length_pos_iff.mp hlength, rfl⟩ (path_writes ?_), hkeeps, fun _ => ?_⟩
      · exact fun packet' hmem => hkeeps side.other packet' (hwrites packet' hmem)
      · rw [Function.update_self]
        exact Set.mem_insert _ _
  | start | hop | hopWake | resolved | received | receiveError | timeout | tunReadError
  | heartbeat =>
      exact ⟨carried, path_writes hwrites, fun _ _ hmem => hmem, fun hne => absurd rfl hne⟩

/-- What the client writes is in flight from the server. -/
theorem client_writes (hlossless : crypto.libraries.Lossless)
    (hreach : Reachable (network crypto deployment) net)
    {carried : Side → Set (List UInt8)} (hflight : InFlight crypto deployment net carried)
    {event : Event} {outputs : List Output} {process' : Process}
    (hworld : ClientWorld deployment net event)
    (hstep : step crypto net.client event = some (.ok (process', outputs)))
    {packet : List UInt8} (hwrite : .tunWrite packet ∈ outputs) : packet ∈ carried .server := by
  have hmtu : net.client.ctx.mtu = deployment.client.mtu := (client_sameConf hreach).mtu
  obtain ⟨index, source, bytes, rfl⟩ := step_tunWrite hstep hwrite
  obtain ⟨worker, hworker, hstate, -⟩ := step_received hstep
  have hsent := hflight _ ((delivered_iff hworker).mp hworld)
  obtain ⟨packet', hcarries, htag⟩ := tagged_client hreach hworker hstate hsent
  rw [← hmtu] at hcarries
  obtain ⟨rfl, hempty⟩ := eq_of_written hlossless (by rw [hmtu]; exact deployment.mtu_nonneg)
    (by rw [hmtu]; exact deployment.mtu_le) hworker hstate hcarries hstep hwrite
  exact htag hempty

/-- What the server writes is in flight from the client. -/
theorem server_writes (hlossless : crypto.libraries.Lossless)
    (hreach : Reachable (network crypto deployment) net)
    {carried : Side → Set (List UInt8)} (hflight : InFlight crypto deployment net carried)
    {event : Event} {outputs : List Output} {process' : Process}
    (hworld : ServerWorld deployment net event)
    (hstep : step crypto net.server event = some (.ok (process', outputs)))
    {packet : List UInt8} (hwrite : .tunWrite packet ∈ outputs) : packet ∈ carried .client := by
  obtain ⟨-, hmtu, -⟩ := server_sameConf hreach
  obtain ⟨index, source, bytes, rfl⟩ := step_tunWrite hstep hwrite
  obtain ⟨worker, hworker, hstate, -⟩ := step_received hstep
  have hsent := hflight _ ((delivered_iff hworker).mp hworld)
  obtain ⟨packet', hcarries, htag⟩ := tagged_server hreach hworker hstate hsent
  rw [← hmtu] at hcarries
  obtain ⟨rfl, hempty⟩ := eq_of_written hlossless (by rw [hmtu]; exact deployment.mtu_nonneg)
    (by rw [hmtu]; exact deployment.mtu_le) hworker hstate hcarries hstep hwrite
  exact htag hempty

/-- **The tunnel simulates the network.** -/
theorem tunnel_simulates (hlossless : crypto.libraries.Lossless) (deployment : Deployment) :
    Simulation (network crypto deployment) tunnel (tunEvents crypto)
      (InFlight crypto deployment) where
  initial := by
    rintro net rfl
    exact ⟨fun _ => ∅, fun _ => rfl, fun datagram hsent => absurd hsent List.not_mem_nil⟩
  step := by
    rintro net (event | event) net' carried hreach hflight hnext
    · obtain ⟨hworld, outputs, hstep, -, hsent⟩ := nextNetwork_client hnext
      obtain ⟨-, hgrows⟩ := (networkInv_of_reachable hreach).client.step hreach hworld hstep
      obtain ⟨carried', hpath, hkeeps, hread⟩ := exists_path_tunEventsOf hstep .client carried
        fun packet hwrite => client_writes hlossless hreach hflight hworld hstep hwrite
      refine ⟨carried', hpath, fun datagram hmem => ?_⟩
      rw [hsent] at hmem
      rcases List.mem_append.mp hmem with hold | hnew
      · exact (hflight datagram hold).mono hgrows
          fun side path packet htag hempty => hkeeps side packet (htag hempty)
      · have htagged : Tagged crypto deployment (endpoints net.client)
            (fun side _ packet _ => packet ≠ [] → packet ∈ carried' side) datagram :=
          client_tagged hreach hstep (fun _ _ _ _ _ _ _ _ => hread) hnew
        exact htagged.mono hgrows fun _ _ _ htag => htag
    · obtain ⟨hworld, outputs, hstep, hother, hsent⟩ := nextNetwork_server hnext
      obtain ⟨carried', hpath, hkeeps, hread⟩ := exists_path_tunEventsOf hstep .server carried
        fun packet hwrite => server_writes hlossless hreach hflight hworld hstep hwrite
      refine ⟨carried', hpath, fun datagram hmem => ?_⟩
      rw [hsent] at hmem
      rw [hother]
      rcases List.mem_append.mp hmem with hold | hnew
      · exact (hflight datagram hold).mono (.refl _)
          fun side path packet htag hempty => hkeeps side packet (htag hempty)
      · exact server_tagged hreach hstep (fun _ _ _ _ _ _ _ _ => hread) hnew

/-- **The tunnel neither invents nor alters nor reflects packets.**  In every run, whatever
the network loses, duplicates or reorders, what happens at the two TUN devices is a run of
the abstract tunnel; so every packet written on one side was read before, byte for byte,
on the other. -/
theorem network_refinesTunnel (crypto : Crypto) (hlossless : crypto.libraries.Lossless)
    (deployment : Deployment) (steps : List (Step Network NetworkEvent)) (net : Network)
    (hrun : History (network crypto deployment) steps net) :
    (∃ first final, tunnel.initial first ∧
        Path tunnel first (observed (tunEvents crypto) steps) final) ∧
      ∀ before side packet after,
        observed (tunEvents crypto) steps = before ++ .write side packet :: after →
          .read side.other packet ∈ before := by
  obtain ⟨first, final, hinitial, hpath, -⟩ :=
    (tunnel_simulates hlossless deployment).history hrun
  refine ⟨⟨first, final, hinitial, hpath⟩, fun before side packet after htrace => ?_⟩
  rw [htrace] at hpath
  exact read_of_written hinitial hpath

/-! ## Delivery -/

/-- What every datagram does that arrives at an open socket.  The event is possible, so no
assertion fails; the packet that was encapsulated is written and nothing else is; and
`alive` of the path is set again.  A client keeps `sock`, `remote` and `token` of every path;
a server takes those of the path from the worker and the source.  Only a server whose scan
refuses the token drops the datagram, and then its context is as before. -/
structure Delivers (crypto : Crypto) (deployment : Deployment) (net : Network) : Prop where
  client : ∀ (index : Nat) (worker : Worker) (source : IpAddr) (bytes : List UInt8),
    net.client.workers[index]? = some worker → worker.state = .receiving →
    ⟨source, worker.bound, bytes⟩ ∈ net.sent →
    ∃ packet net', CarriesPacket crypto worker.token deployment.client.mtu packet bytes ∧
      nextNetwork crypto deployment net (.client (.received index source bytes)) = some net' ∧
      tunEvents crypto ⟨net, .client (.received index source bytes), net'⟩ =
        (if packet = [] then [] else [.write .client packet]) ∧
      (net'.client.ctx.paths worker.path).alive = 5 ∧
      SameTriples net.client.ctx net'.client.ctx
  server : ∀ (index : Nat) (worker : Worker) (source : IpAddr) (bytes : List UInt8),
    net.server.workers[index]? = some worker → worker.state = .receiving →
    ⟨source, worker.bound, bytes⟩ ∈ net.sent →
    ∃ packet net', CarriesPacket crypto worker.token deployment.client.mtu packet bytes ∧
      nextNetwork crypto deployment net (.server (.received index source bytes)) = some net' ∧
      (tokenAccepted (net.server.ctx.paths worker.path).validTokens worker.token = false →
        tunEvents crypto ⟨net, .server (.received index source bytes), net'⟩ = [] ∧
          net'.server.ctx = net.server.ctx) ∧
      (tokenAccepted (net.server.ctx.paths worker.path).validTokens worker.token = true →
        tunEvents crypto ⟨net, .server (.received index source bytes), net'⟩ =
            (if packet = [] then [] else [.write .server packet]) ∧
          (net'.server.ctx.paths worker.path).alive = 5 ∧
          (net'.server.ctx.paths worker.path).sock = some index ∧
          (net'.server.ctx.paths worker.path).remote = source ∧
          (net'.server.ctx.paths worker.path).token = worker.token)

/-- The writes of a delivered packet. -/
theorem tunEventsOf_written {process process' : Process} {side : Side} {index : Nat}
    {source : IpAddr} {bytes packet : List UInt8}
    (hstep : step crypto process (.received index source bytes) =
      some (.ok (process', written packet))) :
    tunEventsOf crypto side process (.received index source bytes) =
      if packet = [] then [] else [.write side packet] := by
  unfold tunEventsOf
  rw [hstep]
  by_cases hempty : packet = []
  · rw [written, if_pos hempty, if_pos hempty]
    rfl
  · rw [written, if_neg hempty, if_neg hempty]
    rfl

/-- Everything in flight is tagged, with a tag that says nothing. -/
theorem tagged_of_sent (hlossless : crypto.libraries.Lossless)
    (hreach : Reachable (network crypto deployment) net) {datagram : Datagram}
    (hsent : datagram ∈ net.sent) :
    Tagged crypto deployment (endpoints net.client) (fun _ _ _ _ => True) datagram := by
  obtain ⟨steps, hrun⟩ := hreach.exists_history
  obtain ⟨-, carried, -, -, hflight⟩ := (tunnel_simulates hlossless deployment).history hrun
  exact (hflight datagram hsent).mono (.refl _) fun _ _ _ _ => trivial

/-- A datagram that arrives at an open socket of the client. -/
theorem delivers_client (hlossless : crypto.libraries.Lossless)
    (hreach : Reachable (network crypto deployment) net) {index : Nat} {worker : Worker}
    {source : IpAddr} {bytes : List UInt8}
    (hworker : net.client.workers[index]? = some worker) (hstate : worker.state = .receiving)
    (hsent : ⟨source, worker.bound, bytes⟩ ∈ net.sent) :
    ∃ packet net', CarriesPacket crypto worker.token deployment.client.mtu packet bytes ∧
      nextNetwork crypto deployment net (.client (.received index source bytes)) = some net' ∧
      tunEvents crypto ⟨net, .client (.received index source bytes), net'⟩ =
        (if packet = [] then [] else [.write .client packet]) ∧
      (net'.client.ctx.paths worker.path).alive = 5 ∧
      SameTriples net.client.ctx net'.client.ctx := by
  have hconf := client_sameConf hreach
  have hmode : net.client.ctx.mode = .client := hconf.mode.trans deployment.client_mode
  have hmtu : net.client.ctx.mtu = deployment.client.mtu := hconf.mtu
  obtain ⟨packet, hcarries, -⟩ :=
    tagged_client hreach hworker hstate (tagged_of_sent hlossless hreach hsent)
  have hcarried := hcarries
  rw [← hmtu] at hcarried
  obtain ⟨process', pbuf, hstep, hctx, -⟩ := step_received_carried source hlossless
    (by rw [hmtu]; exact deployment.mtu_nonneg) (by rw [hmtu]; exact deployment.mtu_le)
    hworker hstate hcarried
  have hnot : ¬ Refused net.client worker := by
    rintro ⟨hserver, -⟩
    rw [hmode] at hserver
    cases hserver
  rw [if_neg hnot] at hstep hctx
  obtain ⟨net', hnext, rfl, -, -⟩ := @exists_nextNetwork crypto deployment net _ _ .client
    (.received index source bytes) ((delivered_iff hworker).mpr hsent) hstep
  refine ⟨packet, net', hcarries, hnext, tunEventsOf_written hstep, ?_⟩
  have hctx : net'.client.ctx = _ := hctx
  rw [hctx]
  exact ⟨(acceptDatagram_alive _ index { worker with pbuf := pbuf } source _).1,
    acceptDatagram_client hmode index { worker with pbuf := pbuf } source _⟩

/-- A datagram that arrives at an open socket of the server. -/
theorem delivers_server (hlossless : crypto.libraries.Lossless)
    (hreach : Reachable (network crypto deployment) net) {index : Nat} {worker : Worker}
    {source : IpAddr} {bytes : List UInt8}
    (hworker : net.server.workers[index]? = some worker) (hstate : worker.state = .receiving)
    (hsent : ⟨source, worker.bound, bytes⟩ ∈ net.sent) :
    ∃ packet net', CarriesPacket crypto worker.token deployment.client.mtu packet bytes ∧
      nextNetwork crypto deployment net (.server (.received index source bytes)) = some net' ∧
      (tokenAccepted (net.server.ctx.paths worker.path).validTokens worker.token = false →
        tunEvents crypto ⟨net, .server (.received index source bytes), net'⟩ = [] ∧
          net'.server.ctx = net.server.ctx) ∧
      (tokenAccepted (net.server.ctx.paths worker.path).validTokens worker.token = true →
        tunEvents crypto ⟨net, .server (.received index source bytes), net'⟩ =
            (if packet = [] then [] else [.write .server packet]) ∧
          (net'.server.ctx.paths worker.path).alive = 5 ∧
          (net'.server.ctx.paths worker.path).sock = some index ∧
          (net'.server.ctx.paths worker.path).remote = source ∧
          (net'.server.ctx.paths worker.path).token = worker.token) := by
  obtain ⟨hmode, hmtu, -⟩ := server_sameConf hreach
  obtain ⟨packet, hcarries, -⟩ :=
    tagged_server hreach hworker hstate (tagged_of_sent hlossless hreach hsent)
  have hcarried := hcarries
  rw [← hmtu] at hcarried
  obtain ⟨process', pbuf, hstep, hctx, -⟩ := step_received_carried source hlossless
    (by rw [hmtu]; exact deployment.mtu_nonneg) (by rw [hmtu]; exact deployment.mtu_le)
    hworker hstate hcarried
  obtain ⟨net', hnext, rfl, -, -⟩ := @exists_nextNetwork crypto deployment net _ _ .server
    (.received index source bytes) ((delivered_iff hworker).mpr hsent) hstep
  have hctx : net'.server.ctx = _ := hctx
  refine ⟨packet, net', hcarries, hnext, ?_, ?_⟩
  · intro hscan
    rw [if_pos ⟨hmode, hscan⟩] at hstep hctx
    refine ⟨?_, hctx⟩
    show tunEventsOf crypto .server net.server (.received index source bytes) = []
    unfold tunEventsOf
    rw [hstep]
    rfl
  · intro hscan
    have hnot : ¬ Refused net.server worker := fun hrefused => by
      rw [hrefused.2] at hscan
      cases hscan
    rw [if_neg hnot] at hstep hctx
    obtain ⟨hsock, hremote, htoken, -⟩ := acceptDatagram_server hmode index
      { worker with pbuf := pbuf } source packet.length
    rw [hctx]
    exact ⟨tunEventsOf_written hstep,
      (acceptDatagram_alive _ index { worker with pbuf := pbuf } source _).1, hsock, hremote,
      htoken⟩

/-- **Whatever arrives is delivered**, in every reachable state. -/
theorem network_delivers (crypto : Crypto) (hlossless : crypto.libraries.Lossless)
    (deployment : Deployment) (net : Network)
    (hreach : Reachable (network crypto deployment) net) : Delivers crypto deployment net where
  client _ _ _ _ := delivers_client hlossless hreach
  server _ _ _ _ := delivers_server hlossless hreach

/-! ## A packet of the client -/

/-- A datagram arrives at the first worker of a side. -/
def arrives (side : Side) (datagram : Datagram) : NetworkEvent :=
  match side with
  | .client => .client (.received 0 datagram.source datagram.bytes)
  | .server => .server (.received 0 datagram.source datagram.bytes)

/-- The heartbeats are exchanged, and a packet is read on the client. -/
def firstPacketSent : Option Network :=
  (run (nextNetwork Reference.crypto onePath)
      ⟨vpnRun onePath.client, vpnRun onePath.server, []⟩ opening).bind fun net =>
    (run (nextNetwork Reference.crypto onePath) net (answer net.sent)).bind fun net =>
      run (nextNetwork Reference.crypto onePath) net
        ((net.sent.drop 1).map (arrives .client) ++ [.client (.tunRead [69] Reference.zeroDraws)])

/-- The path is alive, the datagram of the packet is the third one in flight, and the
server writes the packet. -/
theorem exists_firstPacketSent :
    ∃ steps net net' datagram, History (network Reference.crypto onePath) steps net ∧
      0 < (net.client.ctx.paths 0).alive ∧ net.sent.length = 3 ∧
      nextNetwork Reference.crypto onePath net (arrives .server datagram) = some net' ∧
      tunEvents Reference.crypto ⟨net, arrives .server datagram, net'⟩ =
        [.write .server [69]] := by
  have hruns : (firstPacketSent.any fun net =>
      decide (0 < (net.client.ctx.paths 0).alive ∧ net.sent.length = 3) &&
      (net.sent[2]?).any fun datagram =>
        (nextNetwork Reference.crypto onePath net (arrives .server datagram)).isSome &&
          decide (tunEvents Reference.crypto ⟨net, arrives .server datagram, net⟩ =
            [.write .server [69]])) = true := by decide +kernel
  obtain ⟨net, hrun, hnet⟩ := (Option.any_eq_true _ _).mp hruns
  obtain ⟨hcounts, hwrites⟩ := (Bool.and_eq_true _ _).mp hnet
  obtain ⟨halive, hlength⟩ := of_decide_eq_true hcounts
  obtain ⟨datagram, -, hboth⟩ := (Option.any_eq_true _ _).mp hwrites
  obtain ⟨hsome, htrace⟩ := (Bool.and_eq_true _ _).mp hboth
  obtain ⟨net', hnext⟩ := Option.isSome_iff_exists.mp hsome
  obtain ⟨net₁, hfirst, hrest⟩ := Option.bind_eq_some_iff.mp hrun
  obtain ⟨net₂, hsecond, hthird⟩ := Option.bind_eq_some_iff.mp hrest
  have hinitial : (network Reference.crypto onePath).initial
      ⟨vpnRun onePath.client, vpnRun onePath.server, []⟩ := rfl
  have hreach : Reachable (network Reference.crypto onePath) net :=
    Reachable.run (fun _ _ _ => id) (Reachable.run (fun _ _ _ => id)
      (Reachable.run (fun _ _ _ => id) (.initial hinitial) hfirst) hsecond) hthird
  obtain ⟨steps, hhistory⟩ := hreach.exists_history
  exact ⟨steps, net, net', datagram, hhistory, halive, hlength, hnext,
    of_decide_eq_true htrace⟩

/-- The packet is written on the server, and had been read on the client. -/
theorem network_refinesTunnel_firstPacket :
    ∃ steps net step, History (network Reference.crypto onePath) (step :: steps) net ∧
      tunEvents Reference.crypto step = [.write .server [69]] ∧
      .read .client [69] ∈ observed (tunEvents Reference.crypto) steps := by
  obtain ⟨steps, net, net', datagram, hhistory, -, -, hnext, hwrites⟩ :=
    exists_firstPacketSent
  refine ⟨steps, net', _, .step hhistory hnext, hwrites, ?_⟩
  refine (network_refinesTunnel Reference.crypto Reference.libraries_lossless onePath _ net'
    (.step hhistory hnext)).2 _ .server [69] [] ?_
  rw [observed_cons, hwrites]

/-- Three datagrams are in flight, and all of them can be delivered. -/
theorem network_delivers_firstPacket :
    ∃ net, net.sent.length = 3 ∧ Delivers Reference.crypto onePath net := by
  obtain ⟨steps, net, net', datagram, hhistory, -, hlength, -⟩ := exists_firstPacketSent
  exact ⟨net, hlength, network_delivers Reference.crypto Reference.libraries_lossless onePath
    net hhistory.reachable⟩

end Vpn
end Muon
