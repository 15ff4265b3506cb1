import Muon.Packet.HeaderIntegrity
import Muon.Vpn.StepCases

/-!
# Sockets, remotes and tokens of the paths

The triple of `sock`, `remote` and `token` of a path is written by workers only:
`heartbeat` and `udp_sender` read it.  This module says which events leave the
triples alone, which only count `alive` down, what a datagram that is given to
`udpsend` carries, and how the workers of a peer change.
-/

namespace Muon
namespace Vpn

open Foundation Packet Totp

variable {crypto : Crypto} {process process' : Process} {outputs : List Output}

/-! ## Contexts with the same triples -/

/-- The same triples. -/
structure SameTriples (ctx ctx' : Ctx) : Prop where
  sock : ∀ i, (ctx'.paths i).sock = (ctx.paths i).sock
  remote : ∀ i, (ctx'.paths i).remote = (ctx.paths i).remote
  token : ∀ i, (ctx'.paths i).token = (ctx.paths i).token

/-- The same triples, and no path that has become alive. -/
structure SameSockets (ctx ctx' : Ctx) : Prop extends SameTriples ctx ctx' where
  alive : ∀ i, 0 < (ctx'.paths i).alive → 0 < (ctx.paths i).alive

theorem SameSockets.refl (ctx : Ctx) : SameSockets ctx ctx :=
  ⟨⟨fun _ => rfl, fun _ => rfl, fun _ => rfl⟩, fun _ halive => halive⟩

theorem SameTriples.trans {ctx ctx' ctx'' : Ctx} (hfirst : SameTriples ctx ctx')
    (hsecond : SameTriples ctx' ctx'') : SameTriples ctx ctx'' :=
  ⟨fun i => (hsecond.sock i).trans (hfirst.sock i),
    fun i => (hsecond.remote i).trans (hfirst.remote i),
    fun i => (hsecond.token i).trans (hfirst.token i)⟩

theorem SameSockets.trans {ctx ctx' ctx'' : Ctx} (hfirst : SameSockets ctx ctx')
    (hsecond : SameSockets ctx' ctx'') : SameSockets ctx ctx'' :=
  ⟨hfirst.toSameTriples.trans hsecond.toSameTriples,
    fun i halive => hfirst.alive i (hsecond.alive i halive)⟩

/-- A write that keeps the triple of its path. -/
theorem sameTriples_updatePath (ctx : Ctx) (path : Nat) {assign : PathCtx → PathCtx}
    (hassign : ∀ p, (assign p).sock = p.sock ∧ (assign p).remote = p.remote ∧
      (assign p).token = p.token) :
    SameTriples ctx (ctx.updatePath path assign) := by
  obtain ⟨hsock, hremote, htoken⟩ := hassign (ctx.paths path)
  exact ⟨ctx.field_updatePath path assign PathCtx.sock hsock,
    ctx.field_updatePath path assign PathCtx.remote hremote,
    ctx.field_updatePath path assign PathCtx.token htoken⟩

/-- A write that keeps the triple of its path and does not revive it. -/
theorem sameSockets_updatePath (ctx : Ctx) (path : Nat) {assign : PathCtx → PathCtx}
    (hassign : ∀ p, (assign p).sock = p.sock ∧ (assign p).remote = p.remote ∧
      (assign p).token = p.token)
    (halive : ∀ p, 0 < (assign p).alive → 0 < p.alive) :
    SameSockets ctx (ctx.updatePath path assign) := by
  refine ⟨sameTriples_updatePath ctx path hassign, fun i => ?_⟩
  rcases eq_or_ne i path with rfl | hne
  · rw [Ctx.paths_updatePath_same]
    exact halive _
  · rw [Ctx.paths_updatePath_of_ne _ _ _ hne]
    exact id

theorem emit_sameSockets (crypto : Crypto) (ctx : Ctx) (path sock : Nat) (pbuf : Pbuf)
    (draws : Draws) : SameSockets ctx (emit crypto ctx path sock pbuf draws).1 :=
  ⟨⟨fun _ => rfl, fun _ => rfl, fun _ => rfl⟩, fun _ halive => halive⟩

theorem refreshPath_sameSockets (crypto : Crypto) (readings : Nat → Timeval) (path : Nat)
    (ctx : Ctx) : SameSockets ctx (refreshPath crypto readings path ctx) := by
  unfold refreshPath
  refine sameSockets_updatePath _ _ ?_ ?_
  · exact fun _ => ⟨rfl, rfl, rfl⟩
  · exact fun _ halive => halive

theorem sendHeartbeat_sameSockets (crypto : Crypto) (draws : Draws) (path : Nat) (ctx : Ctx)
    (pbuf : Pbuf) : SameSockets ctx (sendHeartbeat crypto draws path ctx pbuf).1 := by
  unfold sendHeartbeat
  split
  · split
    · exact .refl _
    · next sock hsock => exact emit_sameSockets crypto ctx path sock _ draws
  · exact .refl _

theorem countDown_sameSockets (path : Nat) (ctx : Ctx) :
    SameSockets ctx (countDown path ctx) := by
  unfold countDown
  split
  · refine sameSockets_updatePath _ _ ?_ ?_
    · exact fun _ => ⟨rfl, rfl, rfl⟩
    · intro p halive
      dsimp only at halive
      omega
  · exact .refl _

theorem heartbeatPath_sameSockets (crypto : Crypto) (readings : Nat → Timeval)
    (draws : Draws) (path : Nat) (ctx : Ctx) (pbuf : Pbuf) :
    SameSockets ctx (heartbeatPath crypto readings draws path ctx pbuf).1 :=
  (refreshPath_sameSockets crypto readings path ctx).trans
    ((sendHeartbeat_sameSockets crypto draws path _ pbuf).trans
      (countDown_sameSockets path _))

theorem udpSender_sameSockets {path : Nat} {pbuf pbuf' : Pbuf} {draws : Draws}
    (hsend : udpSender crypto process path pbuf draws = .ok (process', pbuf', outputs)) :
    SameSockets process.ctx process'.ctx := by
  simp only [udpSender] at hsend
  split at hsend
  · cases hsend
  · next sock hsock =>
      split at hsend
      · cases hsend
        exact .refl _
      · cases hsend
        exact emit_sameSockets crypto process.ctx path sock pbuf draws

/-! ## What is sent -/

/-- The bytes given to `udpsend` for a packet under a token. -/
def CarriesPacket (crypto : Crypto) (token mtu : Int) (packet data : List UInt8) : Prop :=
  ∃ pbuf draws, Loaded crypto packet pbuf ∧ (packet.length : Int) ≤ mtu ∧
    data = (encapsulate crypto token pbuf mtu draws).2.read 0
      (toUInt64 (encapsulate crypto token pbuf mtu draws).1)

/-- The bytes given to `udpsend` for some packet under a token. -/
def Carries (crypto : Crypto) (token mtu : Int) (data : List UInt8) : Prop :=
  ∃ packet, CarriesPacket crypto token mtu packet data

/-- An output is a datagram of the triple of its path, and a server sends only
on paths that are alive. -/
def SentOn (crypto : Crypto) (ctx : Ctx) (output : Output) : Prop :=
  ∃ path sock data, output = .udpsend path sock (ctx.paths path).remote data ∧
    (ctx.paths path).sock = some sock ∧
    (ctx.mode = .server → 0 < (ctx.paths path).alive) ∧
    Carries crypto (ctx.paths path).token ctx.mtu data

/-- What is sent on a context with the same triples is sent on the original. -/
theorem SentOn.of_same {ctx ctx' : Ctx} {output : Output} (hsent : SentOn crypto ctx' output)
    (hconf : SameConf ctx ctx') (hsockets : SameSockets ctx ctx') :
    SentOn crypto ctx output := by
  obtain ⟨path, sock, data, houtput, hsock, halive, hcarries⟩ := hsent
  rw [hsockets.remote] at houtput
  rw [hsockets.sock] at hsock
  rw [hconf.mode] at halive
  rw [hsockets.token, hconf.mtu] at hcarries
  exact ⟨path, sock, data, houtput, hsock,
    fun hserver => hsockets.alive path (halive hserver), hcarries⟩

/-- `heartbeat` sends an empty packet. -/
theorem sendHeartbeat_sentOn (crypto : Crypto) (draws : Draws) (path : Nat) (ctx : Ctx)
    (pbuf : Pbuf) (hmtu : 0 ≤ ctx.mtu) :
    ∀ output ∈ (sendHeartbeat crypto draws path ctx pbuf).2.2, SentOn crypto ctx output := by
  unfold sendHeartbeat
  split
  · next hguard =>
      split
      · simp
      · next sock hsock =>
          intro output houtput
          rw [List.mem_singleton.mp houtput]
          have hserver : ctx.mode = .server → 0 < (ctx.paths path).alive := by
            intro hmode
            rw [hmode] at hguard
            exact hguard.resolve_left (by decide)
          exact ⟨path, sock, _, rfl, hsock, hserver, [], _, draws,
            heartbeatLoad_loaded crypto pbuf, hmtu, rfl⟩
  · simp

/-- A round of `heartbeat`, over the paths in order: what holds of everything an
iteration sends, and does not depend on the iterations before it, holds of
everything the round sends. -/
theorem heartbeatPaths_forall (R : Ctx → Output → Prop)
    (hof : ∀ {ctx ctx' : Ctx} {output : Output}, R ctx' output → SameConf ctx ctx' →
      SameSockets ctx ctx' → R ctx output)
    (crypto : Crypto) (readings : Nat → Nat → Timeval) (draws : Nat → Draws)
    (paths : List Nat) (ctx : Ctx) (pbuf : Pbuf)
    (hsend : ∀ (draws : Draws) (path : Nat) (ctx' : Ctx) (pbuf : Pbuf), SameConf ctx ctx' →
      ∀ output ∈ (sendHeartbeat crypto draws path ctx' pbuf).2.2, R ctx' output) :
    SameSockets ctx (heartbeatPaths crypto readings draws paths ctx pbuf).1 ∧
      ∀ output ∈ (heartbeatPaths crypto readings draws paths ctx pbuf).2.2, R ctx output := by
  induction paths generalizing ctx pbuf with
  | nil => exact ⟨.refl ctx, by simp [heartbeatPaths]⟩
  | cons path paths ih =>
      have hrefreshed := refreshPath_sameConf crypto (readings path) path ctx
      have hconf := (heartbeatPath_spec crypto (readings path) (draws path) path ctx pbuf).1
      have hsockets := heartbeatPath_sameSockets crypto (readings path) (draws path) path ctx
        pbuf
      obtain ⟨hrestSockets, hrestSent⟩ := ih
        (heartbeatPath crypto (readings path) (draws path) path ctx pbuf).1
        (heartbeatPath crypto (readings path) (draws path) path ctx pbuf).2.1
        fun draws path ctx' pbuf hsame => hsend draws path ctx' pbuf (hconf.trans hsame)
      refine ⟨hsockets.trans hrestSockets, fun output houtput => ?_⟩
      simp only [heartbeatPaths, List.mem_append] at houtput
      rcases houtput with hfirst | hrest
      · exact hof (hsend (draws path) path (refreshPath crypto (readings path) path ctx) pbuf
          hrefreshed output hfirst) hrefreshed (refreshPath_sameSockets crypto _ path ctx)
      · exact hof (hrestSent output hrest) hconf hsockets

/-- A round keeps every triple and revives no path. -/
theorem heartbeatPaths_sameSockets (crypto : Crypto) (readings : Nat → Nat → Timeval)
    (draws : Nat → Draws) (paths : List Nat) (ctx : Ctx) (pbuf : Pbuf) :
    SameSockets ctx (heartbeatPaths crypto readings draws paths ctx pbuf).1 :=
  (heartbeatPaths_forall (fun _ _ => True) (fun _ _ _ => trivial) crypto readings draws paths
    ctx pbuf fun _ _ _ _ _ _ _ => trivial).1

/-- A round of `heartbeat` sends on the triples it starts from. -/
theorem heartbeatPaths_sockets (crypto : Crypto) (readings : Nat → Nat → Timeval)
    (draws : Nat → Draws) (paths : List Nat) (ctx : Ctx) (pbuf : Pbuf)
    (hmtu : 0 ≤ ctx.mtu) :
    SameSockets ctx (heartbeatPaths crypto readings draws paths ctx pbuf).1 ∧
      ∀ output ∈ (heartbeatPaths crypto readings draws paths ctx pbuf).2.2,
        SentOn crypto ctx output := by
  refine heartbeatPaths_forall (SentOn crypto) SentOn.of_same crypto readings draws paths ctx
    pbuf ?_
  intro draws path ctx' pbuf hsame
  exact sendHeartbeat_sentOn crypto draws path ctx' pbuf (by rw [hsame.mtu]; exact hmtu)

/-- `udp_sender` sends the packet of `tun_worker`. -/
theorem udpSender_sentOn {path : Nat} {pbuf pbuf' : Pbuf} {packet : List UInt8}
    {draws : Draws} (hpacket : packet.length < 65536) (hmtu : packet.length ≤ process.ctx.mtu)
    (hsend : udpSender crypto process path (tunWorkerLoad pbuf packet) draws =
      .ok (process', pbuf', outputs)) :
    ∀ output ∈ outputs, SentOn crypto process.ctx output := by
  simp only [udpSender] at hsend
  split at hsend
  · cases hsend
  · next sock hsock =>
      split at hsend
      · cases hsend
        simp
      · next halive =>
          cases hsend
          intro output houtput
          rw [List.mem_singleton.mp houtput]
          exact ⟨path, sock, _, rfl, hsock, fun _ => Int.lt_of_not_ge halive, packet, _,
            draws, tunWorkerLoad_loaded crypto pbuf hpacket, hmtu, rfl⟩

/-- Only `udp_sender` and `heartbeat` send. -/
theorem step_udpsend_cases {event : Event}
    (hstep : step crypto process event = some (.ok (process', outputs)))
    {path sock : Nat} {remote : IpAddr} {data : List UInt8}
    (hsend : .udpsend path sock remote data ∈ outputs) :
    (∃ packet draws, event = .tunRead packet draws) ∨
      ∃ readings draws, event = .heartbeat readings draws := by
  have hquiet : outputs ≠ [] := List.ne_nil_of_mem hsend
  cases event with
  | start stack now listen =>
      obtain ⟨start, starts, -, -, hnone⟩ := step_start hstep
      exact absurd hnone hquiet
  | hop clock stack now =>
      obtain ⟨path, -, -, -, hnone⟩ := step_hop hstep
      exact absurd hnone hquiet
  | hopWake =>
      obtain ⟨path, -, -, -, hnone⟩ := step_hopWake hstep
      exact absurd hnone hquiet
  | resolved index remote listen =>
      obtain ⟨worker, -, -, -, hnone⟩ := step_resolved hstep
      exact absurd hnone hquiet
  | received index source bytes =>
      obtain ⟨worker, -, -, hreceive⟩ := step_received hstep
      obtain ⟨pbuf, ⟨-, hnone⟩ | ⟨n, data, -, -, -, -, -, -, hwrites⟩⟩ :=
        receiveDatagram_cases hreceive
      · exact absurd hnone hquiet
      · obtain ⟨packet, hpacket⟩ := hwrites _ hsend
        cases hpacket
  | receiveError index =>
      obtain ⟨worker, -, -, -, hnone⟩ := step_receiveError hstep
      exact absurd hnone hquiet
  | timeout index now =>
      obtain ⟨worker, -, -, -, -, -, hnone⟩ := step_timeout hstep
      exact absurd hnone hquiet
  | tunReadError =>
      obtain ⟨pbuf, -, -, hnone⟩ := step_tunReadError hstep
      exact absurd hnone hquiet
  | tunRead packet draws => exact Or.inl ⟨packet, draws, rfl⟩
  | heartbeat readings draws => exact Or.inr ⟨readings, draws, rfl⟩

/-- **Whatever a peer sends is a datagram of the triple of its path.** -/
theorem step_sentOn {event : Event} (hlow : 0 ≤ process.ctx.mtu)
    (hhigh : process.ctx.mtu ≤ sizeofPayload)
    (hstep : step crypto process event = some (.ok (process', outputs)))
    {path sock : Nat} {remote : IpAddr} {data : List UInt8}
    (hsend : .udpsend path sock remote data ∈ outputs) :
    SentOn crypto process.ctx (.udpsend path sock remote data) := by
  rcases step_udpsend_cases hstep hsend with ⟨packet, draws, rfl⟩ | ⟨readings, draws, rfl⟩
  · obtain ⟨pbuf, path, next, pbuf', -, -, hmtu, -, hsender, -⟩ := step_tunRead hstep
    simp only [sizeofPayload] at hhigh
    exact udpSender_sentOn (by omega) hmtu hsender _ hsend
  · obtain ⟨pbuf, ctx, pbuf', -, hround, -⟩ := step_heartbeat hstep
    have hsent := (heartbeatPaths_sockets crypto readings draws
      (List.range process.ctx.pathCount) process.ctx pbuf hlow).2
    rw [hround] at hsent
    exact hsent _ hsend

/-- An output goes through the socket of its path. -/
def SentThrough (ctx : Ctx) (output : Output) : Prop :=
  ∀ path sock remote data, output = .udpsend path sock remote data →
    (ctx.paths path).sock = some sock

/-- Whatever the mtu, a peer sends through the socket of the path. -/
theorem step_sentThrough {event : Event}
    (hstep : step crypto process event = some (.ok (process', outputs)))
    {path sock : Nat} {remote : IpAddr} {data : List UInt8}
    (hsend : .udpsend path sock remote data ∈ outputs) :
    (process.ctx.paths path).sock = some sock := by
  rcases step_udpsend_cases hstep hsend with ⟨packet, draws, rfl⟩ | ⟨readings, draws, rfl⟩
  · obtain ⟨pbuf, selected, next, pbuf', -, -, -, -, hsender, -⟩ := step_tunRead hstep
    simp only [udpSender] at hsender
    split at hsender
    · cases hsender
    · next sock' hsock =>
        split at hsender
        · cases hsender
          cases hsend
        · cases hsender
          cases List.mem_singleton.mp hsend
          exact hsock
  · obtain ⟨pbuf, ctx, pbuf', -, hround, -⟩ := step_heartbeat hstep
    have hiteration : ∀ (draws : Draws) (path : Nat) (ctx' : Ctx) (pbuf : Pbuf),
        SameConf process.ctx ctx' →
        ∀ output ∈ (sendHeartbeat crypto draws path ctx' pbuf).2.2,
          SentThrough ctx' output := by
      rintro draws path ctx' pbuf - output houtput
      unfold sendHeartbeat at houtput
      split at houtput
      · split at houtput
        · cases houtput
        · next sock' hsock =>
            rw [List.mem_singleton.mp houtput]
            intro path' sock'' remote' data' heq
            cases heq
            exact hsock
      · cases houtput
    have hsent := (heartbeatPaths_forall SentThrough
      (fun hthrough _ hsame path sock remote data heq =>
        (hsame.sock path).symm.trans (hthrough path sock remote data heq))
      crypto readings draws (List.range process.ctx.pathCount) process.ctx pbuf
      hiteration).2
    rw [hround] at hsent
    exact hsent _ hsend path sock remote data rfl

/-- The receiver with the token of a datagram takes its packet, whatever its
buffer held before. -/
theorem CarriesPacket.decapsulate {token mtu : Int} {packet data : List UInt8}
    (hcarries : CarriesPacket crypto token mtu packet data)
    (hlossless : crypto.libraries.Lossless) (hmtu : mtu ≤ sizeofPayload) (pbuf : Pbuf) :
    payloadOffset ≤ data.length ∧ (data.length : Int) ≤ mtu + payloadOffset ∧
      ∃ after, decapsulate crypto token (pbuf.write 0 data) data.length =
          .ok ((packet.length : Int), after) ∧
        after.payload packet.length = packet := by
  obtain ⟨loaded, draws, hloaded, hpacket, hdata⟩ := hcarries
  have hsmallPacket : packet.length ≤ sizeofPayload :=
    Int.ofNat_le.mp (Int.le_trans hpacket hmtu)
  obtain ⟨hsize, hsealed⟩ := encapsulate_sealed token hloaded
    (wireBody_add_wirePadding_le crypto draws hsmallPacket hmtu)
  have hbound := datagramSize_le crypto draws hpacket
  have hlow := hsealed.size_ge
  have hsmall : datagramSize crypto draws mtu packet < 2 ^ 63 := by
    simp only [sizeofPayload, payloadOffset] at *
    omega
  have hcount : toUInt64 (encapsulate crypto token loaded mtu draws).1 =
      datagramSize crypto draws mtu packet := by
    rw [hsize]
    exact toUInt64_natCast (Nat.lt_trans hsmall (by decide))
  rw [hcount] at hdata
  have hlength : data.length = datagramSize crypto draws mtu packet := by
    rw [hdata, ByteMemory.length_read]
  have hagree : ByteMemory.AgreeBelow (datagramSize crypto draws mtu packet)
      (pbuf.write 0 data) (encapsulate crypto token loaded mtu draws).2 := by
    rw [hdata]
    exact ByteMemory.agreeBelow_write_zero pbuf _ _
  obtain ⟨after, hafter, hreturned⟩ := hsealed.decapsulate_loaded hlossless hsmallPacket
    hlow (Nat.le_refl _) hsmall hagree
  rw [hlength]
  exact ⟨by omega, hbound, after, hafter, hreturned.payload_eq⟩

end Vpn
end Muon
