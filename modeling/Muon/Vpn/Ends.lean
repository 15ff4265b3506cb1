import Muon.Vpn.PathSelection
import Muon.Vpn.ServerHistory
import Muon.Vpn.Tunnel

/-!
# The ends of a path

A peer is aimed at an address when the path sends through a worker that listens, with the
worker's token and to this address.  Two peers that are aimed at each other, with no other
path alive, carry packets in both directions.
-/

namespace Muon
namespace Vpn

open Foundation Packet Totp

variable {crypto : Crypto} {deployment : Deployment} {net net' : Network}
  {process process' : Process} {outputs : List Output}
  {index path : Nat} {token : Int} {bound remote : IpAddr}

/-- A worker listens for a token. -/
def Listening (process : Process) (index path : Nat) (token : Int) (bound : IpAddr) : Prop :=
  ∃ worker, process.workers[index]? = some worker ∧ worker.state = .receiving ∧
    worker.path = path ∧ worker.token = token ∧ worker.bound = bound

/-- The path sends through the socket of this worker, under its token. -/
structure Aimed (process : Process) (index path : Nat) (token : Int) (bound remote : IpAddr) :
    Prop where
  listening : Listening process index path token bound
  sock : (process.ctx.paths path).sock = some index
  remote : (process.ctx.paths path).remote = remote
  token : (process.ctx.paths path).token = token

/-- No path other than this one is alive. -/
def Quiet (ctx : Ctx) (path : Nat) : Prop :=
  ∀ i, i < ctx.pathCount → i ≠ path → (ctx.paths i).alive ≤ 0

/-- One end of the path: aimed at the other one, with no other path alive. -/
structure End (process : Process) (index path : Nat) (token : Int) (bound remote : IpAddr) :
    Prop extends Aimed process index path token bound remote where
  quiet : Quiet process.ctx path

theorem Aimed.of_same (haimed : Aimed process index path token bound remote)
    (hworkers : process'.workers = process.workers)
    (hsame : SameTriples process.ctx process'.ctx) :
    Aimed process' index path token bound remote := by
  refine ⟨?_, (hsame.sock path).trans haimed.sock, (hsame.remote path).trans haimed.remote,
    (hsame.token path).trans haimed.token⟩
  rw [Listening, hworkers]
  exact haimed.listening

/-- What the path sends goes out of the worker's socket. -/
theorem Aimed.emitted (haimed : Aimed process index path token bound remote) {data : List UInt8}
    (hsend : .udpsend path index remote data ∈ outputs) :
    ⟨bound, remote, data⟩ ∈ outputs.filterMap (emitted process) := by
  obtain ⟨worker, hworker, hstate, -, -, rfl⟩ := haimed.listening
  refine List.mem_filterMap.mpr ⟨_, hsend, ?_⟩
  simp only [Vpn.emitted, hworker, if_pos hstate]

/-- A round of `heartbeat` sends on every path that has a socket and may send. -/
theorem heartbeatPaths_sends (crypto : Crypto) (readings : Nat → Nat → Timeval)
    (draws : Nat → Draws) {paths : List Nat} (hmem : path ∈ paths) (ctx : Ctx) (pbuf : Pbuf)
    (hsock : (ctx.paths path).sock = some index)
    (hmay : ctx.mode = .client ∨ 0 < (ctx.paths path).alive) :
    ∃ data, .udpsend path index (ctx.paths path).remote data ∈
      (heartbeatPaths crypto readings draws paths ctx pbuf).2.2 := by
  induction paths generalizing ctx pbuf with
  | nil => cases hmem
  | cons first paths ih =>
      simp only [heartbeatPaths, List.mem_append]
      rcases eq_or_ne path first with rfl | hne
      · have hrefreshed := refreshPath_sameSockets crypto (readings path) path ctx
        have hconf := refreshPath_sameConf crypto (readings path) path ctx
        have halive : ((refreshPath crypto (readings path) path ctx).paths path).alive =
            (ctx.paths path).alive := by
          unfold refreshPath
          apply ctx.field_updatePath path _ PathCtx.alive
          rfl
        simp only [heartbeatPath, sendHeartbeat, hconf.mode, halive, if_pos hmay,
          hrefreshed.sock, hsock, emit, hrefreshed.remote]
        exact ⟨_, Or.inl (List.mem_singleton.mpr rfl)⟩
      · have hsockets := heartbeatPath_sameSockets crypto (readings first) (draws first) first ctx
          pbuf
        have hconf := (heartbeatPath_spec crypto (readings first) (draws first) first ctx pbuf).1
        obtain ⟨data, hdata⟩ := ih ((List.mem_cons.mp hmem).resolve_left hne)
          (heartbeatPath crypto (readings first) (draws first) first ctx pbuf).1
          (heartbeatPath crypto (readings first) (draws first) first ctx pbuf).2.1
          ((hsockets.sock path).trans hsock) (by
            rw [hconf.mode, heartbeatPath_alive, if_neg fun h => hne h.1]
            exact hmay)
        rw [hsockets.remote] at hdata
        exact ⟨data, Or.inr hdata⟩

/-- What a round of `heartbeat` does to a peer. -/
structure Beat (process process' : Process) : Prop where
  conf : SameConf process.ctx process'.ctx
  triples : SameTriples process.ctx process'.ctx
  workers : process'.workers = process.workers
  starts : process'.starts = process.starts
  hopNext : process'.hopNext = process.hopNext
  alive : ∀ i, (process'.ctx.paths i).alive =
    if i < process.ctx.pathCount ∧ 0 < (process.ctx.paths i).alive then
      (process.ctx.paths i).alive - 1
    else (process.ctx.paths i).alive

theorem step_heartbeat_beat {readings : Nat → Nat → Timeval} {draws : Nat → Draws}
    (hstep : step crypto process (.heartbeat readings draws) =
      some (.ok (process', outputs))) : Beat process process' := by
  have hconf := (step_heartbeat_validTokens hstep).1
  obtain ⟨pbuf, ctx, pbuf', -, hround, rfl⟩ := step_heartbeat hstep
  have hsockets := heartbeatPaths_sameSockets crypto readings draws
    (List.range process.ctx.pathCount) process.ctx pbuf
  have halive := heartbeatPaths_alive crypto readings draws
    (List.nodup_range (n := process.ctx.pathCount)) process.ctx pbuf
  rw [hround] at hsockets halive
  refine ⟨hconf, hsockets.toSameTriples, rfl, rfl, rfl, fun i => ?_⟩
  rw [halive i]
  simp only [List.mem_range]

/-- A round of an aimed peer sends an empty packet. -/
theorem Aimed.heartbeat (haimed : Aimed process index path token bound remote)
    (hlow : 0 ≤ process.ctx.mtu) (hhigh : process.ctx.mtu ≤ sizeofPayload)
    (hpath : path < process.ctx.pathCount)
    (hmay : process.ctx.mode = .client ∨ 0 < (process.ctx.paths path).alive)
    {readings : Nat → Nat → Timeval} {draws : Nat → Draws}
    (hstep : step crypto process (.heartbeat readings draws) =
      some (.ok (process', outputs))) :
    ∃ data, ⟨bound, remote, data⟩ ∈ outputs.filterMap (Vpn.emitted process) ∧
      CarriesPacket crypto token process.ctx.mtu [] data := by
  obtain ⟨pbuf, ctx, pbuf', -, hround, -⟩ := step_heartbeat hstep
  obtain ⟨data, hsend⟩ := heartbeatPaths_sends crypto readings draws (List.mem_range.mpr hpath)
    process.ctx pbuf haimed.sock hmay
  rw [hround, haimed.remote] at hsend
  have hcarries := step_carriesOn hlow hhigh hstep hsend
  rw [haimed.token] at hcarries
  exact ⟨data, haimed.emitted hsend, hcarries⟩

/-- With its path alive an end sends a packet from its TUN device on it. -/
theorem End.tunRead (hend : End process index path token bound remote)
    (hhigh : process.ctx.mtu ≤ sizeofPayload) (hpath : path < process.ctx.pathCount)
    (halive : 0 < (process.ctx.paths path).alive)
    (hlast : process.senderPath < process.ctx.pathCount) (htun : process.tun ≠ none)
    {packet : List UInt8} (hempty : packet ≠ []) (hfits : packet.length ≤ process.ctx.mtu)
    (draws : Draws) :
    ∃ process' outputs data, step crypto process (.tunRead packet draws) =
        some (.ok (process', outputs)) ∧
      ⟨bound, remote, data⟩ ∈ outputs.filterMap (Vpn.emitted process) ∧
      CarriesPacket crypto token process.ctx.mtu packet data := by
  obtain ⟨pbuf, hpbuf⟩ := Option.ne_none_iff_exists'.mp htun
  have hlength : 1 ≤ packet.length := List.length_pos_iff.mpr hempty
  -- the selected path is alive, so it is this one
  obtain ⟨selected, hselect, hselected⟩ := selectPath_spec hlast
  have hlive := alive_of_selectPath hlast hpath halive hselect
  obtain rfl : selected = path := by
    by_contra hne
    exact absurd (hend.quiet selected hselected hne) (Int.not_le.mpr hlive)
  obtain ⟨process', outputs, hstep, hsend⟩ : ∃ process' outputs,
      step crypto process (.tunRead packet draws) = some (.ok (process', outputs)) ∧
      ∃ data, .udpsend selected index remote data ∈ outputs := by
    simp only [Vpn.step, hpbuf, if_pos (And.intro hlength hfits), hselect, udpSender,
      hend.sock, if_neg (Int.not_le.mpr hlive), emit, hend.remote]
    exact ⟨_, _, rfl, _, List.mem_singleton.mpr rfl⟩
  obtain ⟨data, hdata⟩ := hsend
  have hcarries := step_carriesOn (by omega) hhigh hstep hdata
  rw [hend.token] at hcarries
  exact ⟨process', outputs, data, hstep, hend.emitted hdata, hcarries⟩

/-- A listening peer takes a datagram of its token: the path is alive, and the peer is aimed
at where the datagram came from. -/
theorem Listening.received (hlistening : Listening process index path token bound)
    (hlossless : crypto.libraries.Lossless)
    (hlow : 0 ≤ process.ctx.mtu) (hhigh : process.ctx.mtu ≤ sizeofPayload)
    {source : IpAddr} {packet bytes : List UInt8}
    (hcarries : CarriesPacket crypto token process.ctx.mtu packet bytes)
    (haccepted : process.ctx.mode = .client ∧ Aimed process index path token bound source ∨
      process.ctx.mode = .server ∧
        tokenAccepted (process.ctx.paths path).validTokens token = true) :
    ∃ process', step crypto process (.received index source bytes) =
        some (.ok (process', written packet)) ∧
      Aimed process' index path token bound source ∧
      (process'.ctx.paths path).alive = 5 ∧
      ∀ i, i ≠ path → process'.ctx.paths i = process.ctx.paths i := by
  obtain ⟨worker, hworker, hstate, rfl, rfl, rfl⟩ := hlistening
  obtain ⟨process', pbuf, hstep, hctx, hworkers⟩ :=
    step_received_carried source hlossless hlow hhigh hworker hstate hcarries
  have hrefused : ¬ Refused process worker := by
    rintro ⟨hmode, hrefused⟩
    rcases haccepted with ⟨hclient, -⟩ | ⟨-, haccepted⟩
    · rw [hmode] at hclient
      cases hclient
    · rw [haccepted] at hrefused
      cases hrefused
  rw [if_neg hrefused] at hstep hctx
  have hlistening' : Listening process' index worker.path worker.token worker.bound := by
    refine ⟨{ worker with pbuf := pbuf }, ?_, hstate, rfl, rfl, rfl⟩
    rw [hworkers, List.getElem?_set_self (List.getElem?_eq_some_iff.mp hworker).1]
  obtain ⟨halive, hothers⟩ := acceptDatagram_alive process.ctx index
    { worker with pbuf := pbuf } source packet.length
  refine ⟨process', hstep, ?_, by rw [hctx]; exact halive, by rw [hctx]; exact hothers⟩
  rcases haccepted with ⟨hclient, haimed⟩ | ⟨hserver, -⟩
  · have hsame := acceptDatagram_client hclient index { worker with pbuf := pbuf } source
      packet.length
    rw [← hctx] at hsame
    exact ⟨hlistening', (hsame.sock _).trans haimed.sock, (hsame.remote _).trans haimed.remote,
      (hsame.token _).trans haimed.token⟩
  · obtain ⟨hsock, hremote, htoken, -⟩ := acceptDatagram_server hserver index
      { worker with pbuf := pbuf } source packet.length
    rw [← hctx] at hsock hremote htoken
    exact ⟨hlistening', hsock, hremote, htoken⟩

/-! ## The two ends of a path -/

theorem peer_senderPath (hreach : Reachable (network crypto deployment) net)
    (hpaths : 0 < deployment.client.paths.length) (side : Side) :
    (net.peer side).senderPath < (net.peer side).ctx.pathCount := by
  cases side with
  | client => exact senderPath_lt_of_reachable hpaths (client_reachable hreach)
  | server =>
      refine senderPath_lt_of_reachable ?_ (server_reachable hreach)
      rw [deployment.same_paths]
      exact hpaths

/-- The path is alive at both ends, it is the only one, and the server takes its token. -/
structure Linked (path : Nat) (token : Int) (index : Side → Nat) (address : Side → IpAddr)
    (net : Network) : Prop where
  ends : ∀ side, End (net.peer side) (index side) path token (address side) (address side.other)
  alive : ∀ side, 0 < ((net.peer side).ctx.paths path).alive
  accepted : tokenAccepted (net.server.ctx.paths path).validTokens token = true

/-- The side takes the datagrams of the other end. -/
def Takes (side : Side) (index path : Nat) (token : Int) (bound remote : IpAddr)
    (process : Process) : Prop :=
  Listening process index path token bound ∧
    match side with
    | .client => Aimed process index path token bound remote
    | .server => tokenAccepted (process.ctx.paths path).validTokens token = true

/-- What arrives from the other end is taken: the path is alive and aimed at the other end,
and the packet is written. -/
theorem deliver {side : Side} {index path : Nat} {token : Int} {bound source : IpAddr}
    {packet bytes : List UInt8} (hlossless : crypto.libraries.Lossless)
    (hreach : Reachable (network crypto deployment) net)
    (htakes : Takes side index path token bound source (net.peer side))
    (hsent : ⟨source, bound, bytes⟩ ∈ net.sent)
    (hcarries : CarriesPacket crypto token deployment.client.mtu packet bytes) :
    ∃ net', nextNetwork crypto deployment net (.of side (.received index source bytes)) =
        some net' ∧
      Aimed (net'.peer side) index path token bound source ∧
      ((net'.peer side).ctx.paths path).alive = 5 ∧
      (∀ i, i ≠ path → (net'.peer side).ctx.paths i = (net.peer side).ctx.paths i) ∧
      net'.peer side.other = net.peer side.other ∧
      tunEvents crypto ⟨net, .of side (.received index source bytes), net'⟩ =
        if packet = [] then [] else [.write side packet] := by
  obtain ⟨hlistening, htaken⟩ := htakes
  have hconf := peerConf hreach side
  have haccepted : (net.peer side).ctx.mode = .client ∧
        Aimed (net.peer side) index path token bound source ∨
      (net.peer side).ctx.mode = .server ∧
        tokenAccepted ((net.peer side).ctx.paths path).validTokens token = true := by
    cases side with
    | client => exact Or.inl ⟨hconf.mode, htaken⟩
    | server => exact Or.inr ⟨hconf.mode, htaken⟩
  rw [← hconf.mtu] at hcarries
  obtain ⟨process', hstep, haimed, halive, hothers⟩ :=
    hlistening.received hlossless hconf.mtu_nonneg hconf.mtu_le hcarries haccepted
  obtain ⟨worker, hworker, -, -, -, rfl⟩ := hlistening
  have hworld : World deployment net side (.received index source bytes) := by
    cases side with
    | client => exact (delivered_iff hworker).mpr hsent
    | server => exact (delivered_iff hworker).mpr hsent
  obtain ⟨net', hnext, rfl, hother, -⟩ := exists_nextNetwork hworld hstep
  refine ⟨net', hnext, haimed, halive, hothers, hother, ?_⟩
  rw [← tunEventsOf_written hstep]
  cases side <;> rfl

theorem Linked.takes {path : Nat} {token : Int} {index : Side → Nat} {address : Side → IpAddr}
    (hlinked : Linked path token index address net) (side : Side) :
    Takes side (index side) path token (address side) (address side.other) (net.peer side) := by
  refine ⟨(hlinked.ends side).listening, ?_⟩
  cases side with
  | client => exact (hlinked.ends .client).toAimed
  | server => exact hlinked.accepted

/-- Every packet that is read on the side can be written on the other one at once. -/
def Connects (crypto : Crypto) (deployment : Deployment) (side : Side) (net : Network) : Prop :=
  ∀ (packet : List UInt8) (draws : Draws), packet ≠ [] →
    (packet.length : Int) ≤ deployment.client.mtu →
    ∃ net₁ index source bytes net₂,
      nextNetwork crypto deployment net (.of side (.tunRead packet draws)) = some net₁ ∧
      nextNetwork crypto deployment net₁ (.of side.other (.received index source bytes)) =
        some net₂ ∧
      tunEvents crypto ⟨net₁, .of side.other (.received index source bytes), net₂⟩ =
        [.write side.other packet]

/-- Packets get through between the ends of a linked path. -/
theorem Linked.connects {path : Nat} {token : Int} {index : Side → Nat}
    {address : Side → IpAddr} (hlinked : Linked path token index address net)
    (hlossless : crypto.libraries.Lossless)
    (hreach : Reachable (network crypto deployment) net)
    (hpath : path < deployment.client.paths.length) {side : Side}
    (htun : (net.peer side).tun ≠ none) : Connects crypto deployment side net := by
  intro packet draws hempty hfits
  have hconf := peerConf hreach side
  have hin : path < (net.peer side).ctx.pathCount := by
    rw [hconf.pathCount]
    exact hpath
  obtain ⟨process', outputs, data, hstep, hemitted, hcarries⟩ :=
    (hlinked.ends side).tunRead hconf.mtu_le hin (hlinked.alive side)
      (peer_senderPath hreach (by omega) side) htun hempty (by rw [hconf.mtu]; exact hfits) draws
  have hworld : World deployment net side (.tunRead packet draws) := by
    cases side <;> trivial
  obtain ⟨net₁, hnext₁, -, hother, hsent⟩ := exists_nextNetwork hworld hstep
  have htakes := hlinked.takes side.other
  rw [← hother, Side.other_other] at htakes
  rw [hconf.mtu] at hcarries
  obtain ⟨net₂, hnext₂, -, -, -, -, hwrites⟩ := deliver hlossless (hreach.step hnext₁) htakes
    (by rw [hsent]; exact List.mem_append_right _ hemitted) hcarries
  rw [if_neg hempty] at hwrites
  exact ⟨net₁, _, _, _, net₂, hnext₁, hnext₂, hwrites⟩

end Vpn
end Muon
