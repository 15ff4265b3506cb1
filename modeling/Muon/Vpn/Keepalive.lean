import Muon.Vpn.Tunnel

/-!
# What `alive` tells a peer

A client puts packets on a path only while its `alive` is positive.  Behind a positive
`alive` there is a round trip on that very path: a datagram of the client that a worker
of the server accepted, and after that a datagram of the server that a worker of the
client accepted.  Behind a positive `alive` of the server there is the first half of it.

The round trip is read off the history, so the statement is about runs: the four steps
are there, in this order, and the datagrams that arrive are those that were sent.
-/

namespace Muon
namespace Vpn

open Foundation Packet Totp

variable {crypto : Crypto} {deployment : Deployment} {net net' : Network}

/-- In this step a peer sends the datagram on a path. -/
def Sends (crypto : Crypto) (side : Side) (path : Nat) (datagram : Datagram)
    (step : Step Network NetworkEvent) : Prop :=
  ∃ event process' outputs sock worker, step.event = .of side event ∧
    Vpn.step crypto (step.before.peer side) event = some (.ok (process', outputs)) ∧
    .udpsend path sock datagram.target datagram.bytes ∈ outputs ∧
    (step.before.peer side).workers[sock]? = some worker ∧ datagram.source = worker.bound

/-- In this step a worker accepts the datagram and renews its path. -/
def Accepts (side : Side) (path : Nat) (datagram : Datagram)
    (step : Step Network NetworkEvent) : Prop :=
  ∃ index worker pbuf n, step.event =
      .of side (.received index datagram.source datagram.bytes) ∧
    (step.before.peer side).workers[index]? = some worker ∧ worker.path = path ∧
    datagram.target = worker.bound ∧
    (step.after.peer side).ctx = acceptDatagram (step.before.peer side).ctx index
      { worker with pbuf := pbuf } datagram.source n

/-- Only a datagram that is accepted revives a path. -/
theorem step_revives {process process' : Process} {outputs : List Output} {event : Event}
    (hmtu : 0 ≤ process.ctx.mtu)
    (hstep : step crypto process event = some (.ok (process', outputs))) {path : Nat}
    (halive : 0 < (process'.ctx.paths path).alive) :
    0 < (process.ctx.paths path).alive ∨
      ∃ index source bytes worker pbuf n, event = .received index source bytes ∧
        process.workers[index]? = some worker ∧ worker.state = .receiving ∧
        worker.path = path ∧
        process'.ctx = acceptDatagram process.ctx index { worker with pbuf := pbuf } source n := by
  have hbind : ∀ (process : Process) (index : Nat) (worker : Worker) (listen : Option IpAddr),
      ((bindWorker process index worker listen).ctx.paths path).alive =
        (process.ctx.paths path).alive := by
    intro process index worker listen
    cases listen with
    | none => rfl
    | some bound =>
        exact process.ctx.field_updatePath worker.path
          (fun path => { path with sock := some index }) PathCtx.alive rfl path
  cases event with
  | start stack now listen =>
      obtain ⟨start, starts, -, rfl, -⟩ := step_start hstep
      cases start with
      | clientHop => exact Or.inl halive
      | tunWorker => exact Or.inl halive
      | heartbeat => exact Or.inl halive
      | udpWorker path' port =>
          left
          simp only [runStart, startWorker] at halive
          split at halive
          · exact halive
          · rw [hbind] at halive
            -- a server's worker starts its path dead
            rcases eq_or_ne path path' with rfl | hne
            · rw [Ctx.paths_updatePath_same] at halive
              exact absurd halive (Int.lt_irrefl 0)
            · rwa [Ctx.paths_updatePath_of_ne _ _ _ hne] at halive
  | hop clock stack now =>
      obtain ⟨path', -, -, rfl, -⟩ := step_hop hstep
      left
      simp only [startWorker] at halive
      split at halive
      · exact halive
      · rw [hbind] at halive
        rcases eq_or_ne path path' with rfl | hne
        · rw [Ctx.paths_updatePath_same] at halive
          exact absurd halive (Int.lt_irrefl 0)
        · rwa [Ctx.paths_updatePath_of_ne _ _ _ hne] at halive
  | resolved index remote listen =>
      obtain ⟨worker, -, -, rfl, -⟩ := step_resolved hstep
      left
      unfold resolveWorker at halive
      rw [hbind] at halive
      rwa [Ctx.field_updatePath process.ctx worker.path
        (fun path => { path with remote := remote, token := worker.token }) PathCtx.alive rfl path]
        at halive
  | received index source bytes =>
      obtain ⟨worker, hworker, hstate, hreceive⟩ := step_received hstep
      obtain ⟨pbuf, ⟨rfl, -⟩ | ⟨n, data, -, -, -, -, -, rfl, -⟩⟩ :=
        receiveDatagram_cases hreceive
      · exact Or.inl halive
      · rcases eq_or_ne path worker.path with rfl | hne
        · exact Or.inr ⟨index, source, bytes, worker, pbuf, n, rfl, hworker, hstate, rfl, rfl⟩
        · left
          have hother := (acceptDatagram_alive process.ctx index { worker with pbuf := pbuf }
            source n).2 path hne
          rwa [hother] at halive
  | hopWake | receiveError | timeout | tunRead | tunReadError | heartbeat =>
      exact Or.inl ((step_kept hstep id hmtu).2.alive path halive)

/-! ## Round trips -/

/-- A datagram of the client reached the server. -/
def Reached (crypto : Crypto) (path : Nat) (steps : List (Step Network NetworkEvent)) : Prop :=
  ∃ request asked taken, [taken, asked].Sublist steps ∧
    Sends crypto .client path request asked ∧ Accepts .server path request taken

/-- The server sent the datagram after a datagram of the client had reached it. -/
def Answered (crypto : Crypto) (path : Nat) (answer : Datagram)
    (steps : List (Step Network NetworkEvent)) : Prop :=
  ∃ request asked taken answered, [answered, taken, asked].Sublist steps ∧
    Sends crypto .client path request asked ∧ Accepts .server path request taken ∧
    Sends crypto .server path answer answered

/-- And that datagram reached the client. -/
def RoundTrip (crypto : Crypto) (path : Nat) (steps : List (Step Network NetworkEvent)) : Prop :=
  ∃ request answer asked taken answered heard,
    [heard, answered, taken, asked].Sublist steps ∧
    Sends crypto .client path request asked ∧ Accepts .server path request taken ∧
    Sends crypto .server path answer answered ∧ Accepts .client path answer heard

variable {path : Nat} {step : Step Network NetworkEvent}
  {steps : List (Step Network NetworkEvent)}

theorem Reached.cons (hreached : Reached crypto path steps) :
    Reached crypto path (step :: steps) := by
  obtain ⟨request, asked, taken, hsub, hrest⟩ := hreached
  exact ⟨request, asked, taken, hsub.cons step, hrest⟩

theorem RoundTrip.cons (htrip : RoundTrip crypto path steps) :
    RoundTrip crypto path (step :: steps) := by
  obtain ⟨request, answer, asked, taken, answered, heard, hsub, hrest⟩ := htrip
  exact ⟨request, answer, asked, taken, answered, heard, hsub.cons step, hrest⟩

/-- The tag of a run: what the client sent, and what the server answered. -/
def Caused (crypto : Crypto) (steps : List (Step Network NetworkEvent)) : Tag :=
  fun side path _ datagram =>
    match side with
    | .client => ∃ asked ∈ steps, Sends crypto .client path datagram asked
    | .server => Answered crypto path datagram steps

theorem Caused.cons {side : Side} {packet : List UInt8} {datagram : Datagram}
    (hcaused : Caused crypto steps side path packet datagram) :
    Caused crypto (step :: steps) side path packet datagram := by
  cases side with
  | client =>
      obtain ⟨asked, hmem, hsends⟩ := hcaused
      exact ⟨asked, List.mem_cons_of_mem _ hmem, hsends⟩
  | server =>
      obtain ⟨request, asked, taken, answered, hsub, hrest⟩ := hcaused
      exact ⟨request, asked, taken, answered, hsub.cons step, hrest⟩

/-- What a run says of the datagrams in flight and of the counters. -/
structure Explained (crypto : Crypto) (deployment : Deployment)
    (steps : List (Step Network NetworkEvent)) (net : Network) : Prop where
  sent : ∀ datagram ∈ net.sent,
    Tagged crypto deployment (endpoints net.client) (Caused crypto steps) datagram
  server : ∀ path, 0 < (net.server.ctx.paths path).alive → Reached crypto path steps
  client : ∀ path, 0 < (net.client.ctx.paths path).alive → RoundTrip crypto path steps

/-- A step of the client. -/
theorem Explained.client_step (hexplained : Explained crypto deployment steps net)
    (hreach : Reachable (network crypto deployment) net) {event : Event}
    (hnext : nextNetwork crypto deployment net (.client event) = some net') :
    Explained crypto deployment (⟨net, .client event, net'⟩ :: steps) net' := by
  obtain ⟨hworld, outputs, hstep, hother, hsent⟩ := nextNetwork_client hnext
  obtain ⟨-, hgrows⟩ := (networkInv_of_reachable hreach).client.step hreach hworld hstep
  have hmtu : 0 ≤ net.client.ctx.mtu := by
    rw [(client_sameConf hreach).mtu]
    exact deployment.mtu_nonneg
  constructor
  · intro datagram hmem
    rw [hsent] at hmem
    rcases List.mem_append.mp hmem with hold | hnew
    · exact (hexplained.sent datagram hold).mono hgrows fun _ _ _ hcaused => hcaused.cons
    · have htagged : Tagged crypto deployment (endpoints net.client)
          (Caused crypto (⟨net, .client event, net'⟩ :: steps)) datagram := by
        refine client_tagged hreach hstep ?_ hnew
        intro path sock remote data worker hsend hworker _
        exact ⟨_, List.mem_cons_self, event, net'.client, outputs, sock, worker, rfl, hstep,
          hsend, hworker, rfl⟩
      exact htagged.mono hgrows fun _ _ _ hcaused => hcaused
  · intro path halive
    rw [hother] at halive
    exact (hexplained.server path halive).cons
  · intro path halive
    rcases step_revives hmtu hstep halive with
      hbefore | ⟨index, source, bytes, worker, pbuf, n, rfl, hworker, hstate, rfl, hctx⟩
    · exact (hexplained.client path hbefore).cons
    · -- the datagram that revives the path is an answer
      have htagged := hexplained.sent _ ((delivered_iff hworker).mp hworld)
      obtain ⟨packet, -, request, asked, taken, answered, hsub, hasked, htaken, hanswered⟩ :=
        tagged_client hreach hworker hstate htagged
      exact ⟨request, _, asked, taken, answered, _, hsub.cons_cons _, hasked, htaken, hanswered,
        index, worker, pbuf, n, rfl, hworker, rfl, rfl, hctx⟩

/-- A step of the server. -/
theorem Explained.server_step (hexplained : Explained crypto deployment steps net)
    (hreach : Reachable (network crypto deployment) net) {event : Event}
    (hnext : nextNetwork crypto deployment net (.server event) = some net') :
    Explained crypto deployment (⟨net, .server event, net'⟩ :: steps) net' := by
  obtain ⟨hworld, outputs, hstep, hother, hsent⟩ := nextNetwork_server hnext
  obtain ⟨-, hmtuEq, -⟩ := server_sameConf hreach
  have hmtu : 0 ≤ net.server.ctx.mtu := by
    rw [hmtuEq]
    exact deployment.mtu_nonneg
  constructor
  · intro datagram hmem
    rw [hsent] at hmem
    rw [hother]
    rcases List.mem_append.mp hmem with hold | hnew
    · exact (hexplained.sent datagram hold).mono (.refl _) fun _ _ _ hcaused => hcaused.cons
    · refine server_tagged hreach hstep ?_ hnew
      intro path sock remote data worker hsend hworker halive
      -- the server answers on paths that a datagram of the client revived
      obtain ⟨request, asked, taken, hsub, hasked, htaken⟩ := hexplained.server path halive
      exact ⟨request, asked, taken, _, hsub.cons_cons _, hasked, htaken, event, net'.server,
        outputs, sock, worker, rfl, hstep, hsend, hworker, rfl⟩
  · intro path halive
    rcases step_revives hmtu hstep halive with
      hbefore | ⟨index, source, bytes, worker, pbuf, n, rfl, hworker, hstate, rfl, hctx⟩
    · exact (hexplained.server path hbefore).cons
    · have htagged := hexplained.sent _ ((delivered_iff hworker).mp hworld)
      obtain ⟨packet, -, asked, hmem, hasked⟩ := tagged_server hreach hworker hstate htagged
      exact ⟨_, asked, _, (List.singleton_sublist.mpr hmem).cons_cons _, hasked, index, worker,
        pbuf, n, rfl, hworker, rfl, rfl, hctx⟩
  · intro path halive
    rw [hother] at halive
    exact (hexplained.client path halive).cons

/-- **A live path works in both directions.**  In every run, whatever the network does: a
path that is alive on the client has carried a datagram of the client that the server
accepted, and after that one of the server that the client accepted; a path that is alive
on the server has carried the first one. -/
theorem alive_roundTrip (crypto : Crypto) (deployment : Deployment)
    (steps : List (Step Network NetworkEvent)) (net : Network)
    (hrun : History (network crypto deployment) steps net) (path : Nat) :
    (0 < (net.client.ctx.paths path).alive → RoundTrip crypto path steps) ∧
      (0 < (net.server.ctx.paths path).alive → Reached crypto path steps) := by
  have hexplained : Explained crypto deployment steps net := by
    induction hrun with
    | initial hinitial =>
        cases hinitial
        refine ⟨fun datagram hmem => absurd hmem List.not_mem_nil, ?_, ?_⟩
        · intro path halive
          rw [show (vpnRun deployment.server).ctx = initCtx deployment.server from rfl,
            initCtx_alive] at halive
          exact absurd halive (Int.lt_irrefl 0)
        · intro path halive
          rw [show (vpnRun deployment.client).ctx = initCtx deployment.client from rfl,
            initCtx_alive] at halive
          exact absurd halive (Int.lt_irrefl 0)
    | @step steps net net' event hhistory hnext ih =>
        cases event with
        | client event => exact ih.client_step hhistory.reachable hnext
        | server event => exact ih.server_step hhistory.reachable hnext
  exact ⟨hexplained.client path, hexplained.server path⟩

/-- Before the client sends its first packet, there was a round trip. -/
theorem alive_roundTrip_firstPacket :
    ∃ steps net, History (network Reference.crypto onePath) steps net ∧
      0 < (net.client.ctx.paths 0).alive ∧ RoundTrip Reference.crypto 0 steps := by
  obtain ⟨steps, net, net', datagram, hhistory, halive, -⟩ := exists_firstPacketSent
  exact ⟨steps, net, hhistory, halive,
    (alive_roundTrip Reference.crypto onePath steps net hhistory 0).1 halive⟩

end Vpn
end Muon
