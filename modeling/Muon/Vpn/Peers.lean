import Muon.Vpn.Agreement

/-!
# Either side of the network

Client and server run the same coroutines.  What does not depend on the mode is said once,
for a side.
-/

namespace Muon
namespace Vpn

open Foundation Packet

/-- The ends of the tunnel. -/
inductive Side where
  | client
  | server
  deriving DecidableEq, Repr

namespace Side

/-- The other end. -/
def other : Side → Side
  | .client => .server
  | .server => .client

/-- The mode of a side. -/
def mode : Side → Mode
  | .client => .client
  | .server => .server

/-- A value for each side. -/
def pick {α : Type} (client server : α) : Side → α
  | .client => client
  | .server => server

theorem other_other (side : Side) : side.other.other = side := by
  cases side <;> rfl

/-- What holds of a side and of the other one holds of both. -/
theorem both {P : Side → Prop} (side : Side) (hside : P side) (hother : P side.other) :
    ∀ side, P side := by
  cases side with
  | client => rintro (_ | _) <;> assumption
  | server => rintro (_ | _) <;> assumption

end Side

/-- One of the peers. -/
def Network.peer (net : Network) : Side → Process
  | .client => net.client
  | .server => net.server

/-- An event of one of the peers. -/
def NetworkEvent.of : Side → Event → NetworkEvent
  | .client => .client
  | .server => .server

/-- What the outside world may answer a peer. -/
def World (deployment : Deployment) (net : Network) : Side → Event → Prop
  | .client => ClientWorld deployment net
  | .server => ServerWorld deployment net

variable {crypto : Crypto} {deployment : Deployment} {net net' : Network}
  {process' : Process} {outputs : List Output} {side : Side} {event : Event}

/-- An event of a peer. -/
theorem nextNetwork_peer (hnext : nextNetwork crypto deployment net (.of side event) = some net') :
    World deployment net side event ∧ ∃ outputs,
      step crypto (net.peer side) event = some (.ok (net'.peer side, outputs)) ∧
      net'.peer side.other = net.peer side.other ∧
      net'.sent = net.sent ++ outputs.filterMap (emitted (net.peer side)) := by
  cases side with
  | client => exact nextNetwork_client hnext
  | server => exact nextNetwork_server hnext

/-- A step of a peer that the outside world allows is a step of the network. -/
theorem exists_nextNetwork (hworld : World deployment net side event)
    (hstep : step crypto (net.peer side) event = some (.ok (process', outputs))) :
    ∃ net', nextNetwork crypto deployment net (.of side event) = some net' ∧
      net'.peer side = process' ∧ net'.peer side.other = net.peer side.other ∧
      net'.sent = net.sent ++ outputs.filterMap (emitted (net.peer side)) := by
  cases side with
  | client =>
      have hworld : ClientWorld deployment net event := hworld
      have hstep : step crypto net.client event = some (.ok (process', outputs)) := hstep
      simp only [NetworkEvent.of, nextNetwork, if_pos hworld, hstep]
      exact ⟨_, rfl, rfl, rfl, rfl⟩
  | server =>
      have hworld : ServerWorld deployment net event := hworld
      have hstep : step crypto net.server event = some (.ok (process', outputs)) := hstep
      simp only [NetworkEvent.of, nextNetwork, if_pos hworld, hstep]
      exact ⟨_, rfl, rfl, rfl, rfl⟩

/-- What a peer takes from the configuration: up to the mode, both take what the client does. -/
structure PeerConf (deployment : Deployment) (side : Side) (ctx : Ctx) : Prop where
  mode : ctx.mode = side.mode
  mtu : ctx.mtu = deployment.client.mtu
  pathCount : ctx.pathCount = deployment.client.paths.length
  portRange : ∀ i, (ctx.paths i).portRange = ((initCtx deployment.client).paths i).portRange
  portStart : ∀ i, (ctx.paths i).portStart = ((initCtx deployment.client).paths i).portStart

theorem peerConf (hreach : Reachable (network crypto deployment) net) (side : Side) :
    PeerConf deployment side (net.peer side).ctx := by
  cases side with
  | client =>
      have hconf := client_sameConf hreach
      exact ⟨hconf.mode.trans deployment.client_mode, hconf.mtu, hconf.pathCount,
        hconf.portRange, hconf.portStart⟩
  | server =>
      have hconf := sameConf_of_reachable (server_reachable hreach)
      have hpaths := deployment.initCtx_server
      refine ⟨hconf.mode.trans deployment.server_mode, hconf.mtu.trans deployment.same_mtu,
        hconf.pathCount.trans (congrArg List.length deployment.same_paths), fun i => ?_,
        fun i => ?_⟩
      · rw [← hpaths]
        exact hconf.portRange i
      · rw [← hpaths]
        exact hconf.portStart i

theorem PeerConf.mtu_nonneg {ctx : Ctx} (hconf : PeerConf deployment side ctx) : 0 ≤ ctx.mtu := by
  rw [hconf.mtu]
  exact deployment.mtu_nonneg

theorem PeerConf.mtu_le {ctx : Ctx} (hconf : PeerConf deployment side ctx) :
    ctx.mtu ≤ sizeofPayload := by
  rw [hconf.mtu]
  exact deployment.mtu_le

end Vpn
end Muon
