import Muon.Vpn.Process

/-!
# What an event can do to a peer

One inversion lemma for each event, and from them two frame facts that most
invariants rest on: no event changes what `vpn_init` took from the configuration,
and only a round of `heartbeat` changes a token pool, each path's by its own
refresh.
-/

namespace Muon
namespace Vpn

open Foundation Packet Totp

variable {crypto : Crypto} {process process' : Process} {outputs : List Output}

/-! ## Inversion -/

theorem step_start {stack : Pbuf} {now : Int} {listen : Option IpAddr}
    (hstep : step crypto process (.start stack now listen) = some (.ok (process', outputs))) :
    ∃ start starts, process.starts = start :: starts ∧
      process' = runStart { process with starts := starts } start stack now listen ∧
      outputs = [] := by
  simp only [step] at hstep
  split at hstep
  · cases hstep
  · next start starts hstarts =>
      cases hstep
      exact ⟨start, starts, hstarts, rfl, rfl⟩

theorem step_hop {clock : Timeval} {stack : Pbuf} {now : Int}
    (hstep : step crypto process (.hop clock stack now) = some (.ok (process', outputs))) :
    ∃ path, process.hopNext = some path ∧ path < process.ctx.pathCount ∧
      process' = startWorker { process with hopNext := some (path + 1) } path
        (totp crypto (process.ctx.paths path).portRange clock 0) 5000 now stack none ∧
      outputs = [] := by
  simp only [step] at hstep
  split at hstep
  · cases hstep
  · next path hpath =>
      split at hstep
      · next hlt =>
          cases hstep
          exact ⟨path, hpath, hlt, rfl, rfl⟩
      · cases hstep

theorem step_hopWake
    (hstep : step crypto process .hopWake = some (.ok (process', outputs))) :
    ∃ path, process.hopNext = some path ∧ process.ctx.pathCount ≤ path ∧
      process' = { process with hopNext := some 0 } ∧ outputs = [] := by
  simp only [step] at hstep
  split at hstep
  · cases hstep
  · next path hpath =>
      split at hstep
      · cases hstep
      · next hdone =>
          cases hstep
          exact ⟨path, hpath, Nat.le_of_not_lt hdone, rfl, rfl⟩

theorem step_resolved {index : Nat} {remote : IpAddr} {listen : Option IpAddr}
    (hstep : step crypto process (.resolved index remote listen) =
      some (.ok (process', outputs))) :
    ∃ worker, process.workers[index]? = some worker ∧ worker.state = .resolving ∧
      process' = resolveWorker process index worker remote listen ∧ outputs = [] := by
  simp only [step] at hstep
  split at hstep
  · cases hstep
  · next worker hworker =>
      split at hstep
      · next hstate =>
          cases hstep
          exact ⟨worker, hworker, hstate, rfl, rfl⟩
      · cases hstep

theorem step_received {index : Nat} {source : IpAddr} {bytes : List UInt8}
    (hstep : step crypto process (.received index source bytes) =
      some (.ok (process', outputs))) :
    ∃ worker, process.workers[index]? = some worker ∧ worker.state = .receiving ∧
      receiveDatagram crypto process index worker source bytes =
        .ok (process', outputs) := by
  simp only [step] at hstep
  split at hstep
  · cases hstep
  · next worker hworker =>
      split at hstep
      · next hstate => exact ⟨worker, hworker, hstate, Option.some.inj hstep⟩
      · cases hstep

theorem step_receiveError {index : Nat}
    (hstep : step crypto process (.receiveError index) = some (.ok (process', outputs))) :
    ∃ worker, process.workers[index]? = some worker ∧ worker.state = .receiving ∧
      process' = process ∧ outputs = [] := by
  simp only [step] at hstep
  split at hstep
  · cases hstep
  · next worker hworker =>
      split at hstep
      · next hstate =>
          cases hstep
          exact ⟨worker, hworker, hstate, rfl, rfl⟩
      · cases hstep

theorem step_timeout {index : Nat} {now : Int}
    (hstep : step crypto process (.timeout index now) = some (.ok (process', outputs))) :
    ∃ worker, process.workers[index]? = some worker ∧ worker.state = .receiving ∧
      0 ≤ worker.deadline ∧ worker.deadline ≤ now ∧
      process' = receiveTimeout process index worker ∧ outputs = [] := by
  simp only [step] at hstep
  split at hstep
  · cases hstep
  · next worker hworker =>
      split at hstep
      · next hguard =>
          cases hstep
          obtain ⟨hstate, hdeadline, hnow⟩ := hguard
          exact ⟨worker, hworker, hstate, hdeadline, hnow, rfl, rfl⟩
      · cases hstep

theorem step_tunRead {packet : List UInt8} {draws : Draws}
    (hstep : step crypto process (.tunRead packet draws) = some (.ok (process', outputs))) :
    ∃ pbuf path next pbuf', process.tun = some pbuf ∧
      1 ≤ packet.length ∧ packet.length ≤ process.ctx.mtu ∧
      selectPath process.ctx process.senderPath = some path ∧
      udpSender crypto process path (tunWorkerLoad pbuf packet) draws =
        .ok (next, pbuf', outputs) ∧
      process' = { next with tun := some pbuf' } := by
  simp only [step] at hstep
  split at hstep
  · cases hstep
  · next pbuf hpbuf =>
      split at hstep
      · next hread =>
          split at hstep
          · cases hstep
          · next path hpath =>
              split at hstep
              · cases hstep
              · next next pbuf' outputs' hsend =>
                  cases hstep
                  exact ⟨pbuf, path, next, pbuf', hpbuf, hread.1, hread.2, hpath, hsend, rfl⟩
      · cases hstep

theorem step_tunReadError
    (hstep : step crypto process .tunReadError = some (.ok (process', outputs))) :
    ∃ pbuf, process.tun = some pbuf ∧ process' = { process with tun := none } ∧
      outputs = [] := by
  simp only [step] at hstep
  split at hstep
  · cases hstep
  · next pbuf hpbuf =>
      cases hstep
      exact ⟨pbuf, hpbuf, rfl, rfl⟩

theorem step_heartbeat {readings : Nat → Nat → Timeval} {draws : Nat → Draws}
    (hstep : step crypto process (.heartbeat readings draws) =
      some (.ok (process', outputs))) :
    ∃ pbuf ctx pbuf', process.heartbeat = some pbuf ∧
      heartbeatPaths crypto readings draws (List.range process.ctx.pathCount) process.ctx
        pbuf = (ctx, pbuf', outputs) ∧
      process' = { process with ctx := ctx, heartbeat := some pbuf' } := by
  simp only [step] at hstep
  split at hstep
  · cases hstep
  · next pbuf hpbuf =>
      cases hstep
      exact ⟨pbuf, _, _, hpbuf, rfl, rfl⟩

/-- A datagram is dropped, which only shows in the worker's buffer, or accepted:
its token passed the scan, it has a whole header, and it decapsulated. -/
theorem receiveDatagram_cases {index : Nat} {worker : Worker} {source : IpAddr}
    {bytes : List UInt8}
    (hreceive : receiveDatagram crypto process index worker source bytes =
      .ok (process', outputs)) :
    ∃ pbuf,
      (process' = { process with
          workers := process.workers.set index { worker with pbuf := pbuf } } ∧
        outputs = []) ∨
      ∃ n data, data = bytes.take (toUInt64 (process.ctx.mtu + payloadOffset)) ∧
        (process.ctx.mode = .server →
          tokenAccepted (process.ctx.paths worker.path).validTokens worker.token = true) ∧
        payloadOffset ≤ data.length ∧
        decapsulate crypto worker.token (worker.pbuf.write 0 data) data.length =
          .ok (n, pbuf) ∧
        0 ≤ n ∧
        process' = { process with
          ctx := acceptDatagram process.ctx index { worker with pbuf := pbuf } source n
          workers := process.workers.set index { worker with pbuf := pbuf } } ∧
        ∀ output ∈ outputs, ∃ packet, output = .tunWrite packet := by
  simp only [receiveDatagram, List.set_set] at hreceive
  split at hreceive
  · cases hreceive
    exact ⟨_, Or.inl ⟨rfl, rfl⟩⟩
  · next hscan =>
      split at hreceive
      · cases hreceive
        exact ⟨_, Or.inl ⟨rfl, rfl⟩⟩
      · next hlength =>
          split at hreceive
          · cases hreceive
          · next n pbuf hdecapsulate =>
              split at hreceive
              · cases hreceive
                exact ⟨pbuf, Or.inl ⟨rfl, rfl⟩⟩
              · next hvalid =>
                  refine ⟨pbuf, Or.inr ⟨n, _, rfl, fun hserver => ?_, by omega, hdecapsulate,
                    by omega, ?_⟩⟩
                  · simpa [hserver] using hscan
                  · split at hreceive
                    · cases hreceive
                      exact ⟨rfl, by simp⟩
                    · cases hreceive
                      exact ⟨rfl, by simp⟩

/-! ## What no event changes -/

/-- The fields of the context that `vpn_init` takes from the configuration. -/
structure SameConf (ctx ctx' : Ctx) : Prop where
  mode : ctx'.mode = ctx.mode
  mtu : ctx'.mtu = ctx.mtu
  pathCount : ctx'.pathCount = ctx.pathCount
  server : ∀ i, (ctx'.paths i).server = (ctx.paths i).server
  portStart : ∀ i, (ctx'.paths i).portStart = (ctx.paths i).portStart
  portRange : ∀ i, (ctx'.paths i).portRange = (ctx.paths i).portRange

/-- The token pools as well. -/
structure SameTokens (ctx ctx' : Ctx) : Prop extends SameConf ctx ctx' where
  validTokens : ∀ i, (ctx'.paths i).validTokens = (ctx.paths i).validTokens

theorem SameConf.refl (ctx : Ctx) : SameConf ctx ctx :=
  ⟨rfl, rfl, rfl, fun _ => rfl, fun _ => rfl, fun _ => rfl⟩

theorem SameConf.trans {ctx ctx' ctx'' : Ctx} (hfirst : SameConf ctx ctx')
    (hsecond : SameConf ctx' ctx'') : SameConf ctx ctx'' :=
  ⟨hsecond.mode.trans hfirst.mode, hsecond.mtu.trans hfirst.mtu,
    hsecond.pathCount.trans hfirst.pathCount,
    fun i => (hsecond.server i).trans (hfirst.server i),
    fun i => (hsecond.portStart i).trans (hfirst.portStart i),
    fun i => (hsecond.portRange i).trans (hfirst.portRange i)⟩

theorem SameTokens.refl (ctx : Ctx) : SameTokens ctx ctx := ⟨.refl ctx, fun _ => rfl⟩

theorem SameTokens.trans {ctx ctx' ctx'' : Ctx} (hfirst : SameTokens ctx ctx')
    (hsecond : SameTokens ctx' ctx'') : SameTokens ctx ctx'' :=
  ⟨hfirst.toSameConf.trans hsecond.toSameConf,
    fun i => (hsecond.validTokens i).trans (hfirst.validTokens i)⟩

/-- A write that keeps these fields of its path. -/
theorem sameConf_updatePath (ctx : Ctx) (path : Nat) {assign : PathCtx → PathCtx}
    (hassign : ∀ p, (assign p).server = p.server ∧ (assign p).portStart = p.portStart ∧
      (assign p).portRange = p.portRange) :
    SameConf ctx (ctx.updatePath path assign) := by
  obtain ⟨hserver, hstart, hrange⟩ := hassign (ctx.paths path)
  exact ⟨rfl, rfl, rfl, ctx.field_updatePath path assign PathCtx.server hserver,
    ctx.field_updatePath path assign PathCtx.portStart hstart,
    ctx.field_updatePath path assign PathCtx.portRange hrange⟩

theorem sameTokens_updatePath (ctx : Ctx) (path : Nat) {assign : PathCtx → PathCtx}
    (hassign : ∀ p, (assign p).server = p.server ∧ (assign p).portStart = p.portStart ∧
      (assign p).portRange = p.portRange)
    (htokens : ∀ p, (assign p).validTokens = p.validTokens) :
    SameTokens ctx (ctx.updatePath path assign) := by
  exact ⟨sameConf_updatePath ctx path hassign,
    ctx.field_updatePath path assign PathCtx.validTokens (htokens _)⟩

theorem bindWorker_sameTokens (process : Process) (index : Nat) (worker : Worker)
    (listen : Option IpAddr) :
    SameTokens process.ctx (bindWorker process index worker listen).ctx := by
  cases listen with
  | none => exact .refl _
  | some bound =>
      simp only [bindWorker]
      refine sameTokens_updatePath _ _ ?_ ?_
      · exact fun _ => ⟨rfl, rfl, rfl⟩
      · exact fun _ => rfl

theorem startWorker_sameTokens (process : Process) (path : Nat) (token timeout now : Int)
    (stack : Pbuf) (listen : Option IpAddr) :
    SameTokens process.ctx (startWorker process path token timeout now stack listen).ctx := by
  cases hmode : process.ctx.mode with
  | client =>
      simp only [startWorker, hmode]
      exact .refl _
  | server =>
      simp only [startWorker, hmode]
      refine SameTokens.trans ?_ (bindWorker_sameTokens _ _ _ _)
      dsimp only
      refine sameTokens_updatePath _ _ ?_ ?_
      · exact fun _ => ⟨rfl, rfl, rfl⟩
      · exact fun _ => rfl

theorem resolveWorker_sameTokens (process : Process) (index : Nat) (worker : Worker)
    (remote : IpAddr) (listen : Option IpAddr) :
    SameTokens process.ctx (resolveWorker process index worker remote listen).ctx := by
  refine SameTokens.trans ?_ (bindWorker_sameTokens _ _ _ _)
  dsimp only
  refine sameTokens_updatePath _ _ ?_ ?_
  · exact fun _ => ⟨rfl, rfl, rfl⟩
  · exact fun _ => rfl

theorem acceptDatagram_sameTokens (ctx : Ctx) (index : Nat) (worker : Worker)
    (source : IpAddr) (n : Int) :
    SameTokens ctx (acceptDatagram ctx index worker source n) := by
  have hcounters : SameTokens ctx (countReceived ctx n) :=
    ⟨⟨rfl, rfl, rfl, fun _ => rfl, fun _ => rfl, fun _ => rfl⟩, fun _ => rfl⟩
  have hserver : SameTokens ctx ((countReceived ctx n).updatePath worker.path fun path =>
      { path with sock := some index, remote := source, token := worker.token }) := by
    refine hcounters.trans (sameTokens_updatePath _ _ ?_ ?_)
    · exact fun _ => ⟨rfl, rfl, rfl⟩
    · exact fun _ => rfl
  unfold acceptDatagram
  refine SameTokens.trans ?_ (sameTokens_updatePath _ _ ?_ ?_)
  · cases (countReceived ctx n).mode with
    | server => exact hserver
    | client => exact hcounters
  · exact fun _ => ⟨rfl, rfl, rfl⟩
  · exact fun _ => rfl

theorem emit_sameTokens (crypto : Crypto) (ctx : Ctx) (path sock : Nat) (pbuf : Pbuf)
    (draws : Draws) : SameTokens ctx (emit crypto ctx path sock pbuf draws).1 :=
  ⟨⟨rfl, rfl, rfl, fun _ => rfl, fun _ => rfl, fun _ => rfl⟩, fun _ => rfl⟩

/-- `udp_sender` writes counters and its own static path. -/
theorem udpSender_sameTokens {path : Nat} {pbuf pbuf' : Pbuf} {draws : Draws}
    (hsend : udpSender crypto process path pbuf draws = .ok (process', pbuf', outputs)) :
    SameTokens process.ctx process'.ctx := by
  simp only [udpSender] at hsend
  split at hsend
  · cases hsend
  · next sock hsock =>
      split at hsend
      · cases hsend
        exact .refl _
      · cases hsend
        exact emit_sameTokens crypto process.ctx path sock pbuf draws

/-- Every event but a heartbeat keeps the token pools. -/
theorem step_sameTokens {event : Event}
    (hstep : step crypto process event = some (.ok (process', outputs)))
    (hother : ∀ readings draws, event ≠ .heartbeat readings draws) :
    SameTokens process.ctx process'.ctx := by
  cases event with
  | start stack now listen =>
      obtain ⟨start, starts, -, rfl, -⟩ := step_start hstep
      cases start with
      | clientHop => exact .refl _
      | udpWorker path port =>
          exact startWorker_sameTokens { process with starts := starts } path port (-1) now
            stack listen
      | tunWorker => exact .refl _
      | heartbeat => exact .refl _
  | hop clock stack now =>
      obtain ⟨path, -, -, rfl, -⟩ := step_hop hstep
      exact startWorker_sameTokens { process with hopNext := some (path + 1) } path _ 5000
        now stack none
  | hopWake =>
      obtain ⟨path, -, -, rfl, -⟩ := step_hopWake hstep
      exact .refl _
  | resolved index remote listen =>
      obtain ⟨worker, -, -, rfl, -⟩ := step_resolved hstep
      exact resolveWorker_sameTokens _ _ _ _ _
  | received index source bytes =>
      obtain ⟨worker, -, -, hreceive⟩ := step_received hstep
      obtain ⟨pbuf, ⟨rfl, -⟩ | ⟨n, data, -, -, -, -, -, rfl, -⟩⟩ :=
        receiveDatagram_cases hreceive
      · exact .refl _
      · exact acceptDatagram_sameTokens _ _ _ _ _
  | receiveError index =>
      obtain ⟨worker, -, -, rfl, -⟩ := step_receiveError hstep
      exact .refl _
  | timeout index now =>
      obtain ⟨worker, -, -, -, -, rfl, -⟩ := step_timeout hstep
      unfold receiveTimeout
      split <;> exact .refl _
  | tunRead packet draws =>
      obtain ⟨pbuf, path, next, pbuf', -, -, -, -, hsend, rfl⟩ := step_tunRead hstep
      have hsame : SameTokens process.ctx next.ctx := udpSender_sameTokens hsend
      exact hsame
  | tunReadError =>
      obtain ⟨pbuf, -, rfl, -⟩ := step_tunReadError hstep
      exact .refl _
  | heartbeat readings draws => exact absurd rfl (hother readings draws)

/-! ## What a heartbeat changes -/

theorem refreshPath_sameConf (crypto : Crypto) (readings : Nat → Timeval) (path : Nat)
    (ctx : Ctx) : SameConf ctx (refreshPath crypto readings path ctx) := by
  unfold refreshPath
  refine sameConf_updatePath _ _ ?_
  exact fun _ => ⟨rfl, rfl, rfl⟩

theorem sendHeartbeat_sameTokens (crypto : Crypto) (draws : Draws) (path : Nat) (ctx : Ctx)
    (pbuf : Pbuf) : SameTokens ctx (sendHeartbeat crypto draws path ctx pbuf).1 := by
  unfold sendHeartbeat
  split
  · split
    · exact .refl _
    · next sock hsock => exact emit_sameTokens crypto ctx path sock _ draws
  · exact .refl _

theorem countDown_sameTokens (path : Nat) (ctx : Ctx) :
    SameTokens ctx (countDown path ctx) := by
  unfold countDown
  split
  · refine sameTokens_updatePath _ _ ?_ ?_
    · exact fun _ => ⟨rfl, rfl, rfl⟩
    · exact fun _ => rfl
  · exact .refl _

/-- One iteration for a path: its pool is refreshed, other pools are kept. -/
theorem heartbeatPath_spec (crypto : Crypto) (readings : Nat → Timeval) (draws : Draws)
    (path : Nat) (ctx : Ctx) (pbuf : Pbuf) :
    SameConf ctx (heartbeatPath crypto readings draws path ctx pbuf).1 ∧
      ((heartbeatPath crypto readings draws path ctx pbuf).1.paths path).validTokens =
        refreshTokens crypto (ctx.paths path).portRange readings
          (ctx.paths path).validTokens ∧
      ∀ i, i ≠ path →
        ((heartbeatPath crypto readings draws path ctx pbuf).1.paths i).validTokens =
          (ctx.paths i).validTokens := by
  have hrest : SameTokens (refreshPath crypto readings path ctx)
      (heartbeatPath crypto readings draws path ctx pbuf).1 :=
    (sendHeartbeat_sameTokens crypto draws path _ pbuf).trans (countDown_sameTokens path _)
  refine ⟨(refreshPath_sameConf crypto readings path ctx).trans hrest.toSameConf, ?_,
    fun i hne => ?_⟩
  · rw [hrest.validTokens, refreshPath, Ctx.paths_updatePath_same]
  · rw [hrest.validTokens, refreshPath, Ctx.paths_updatePath_of_ne _ _ _ hne]

/-- A round refreshes the pools of its paths, each once. -/
theorem heartbeatPaths_spec (crypto : Crypto) (readings : Nat → Nat → Timeval)
    (draws : Nat → Draws) {paths : List Nat} (hnodup : paths.Nodup) (ctx : Ctx)
    (pbuf : Pbuf) :
    SameConf ctx (heartbeatPaths crypto readings draws paths ctx pbuf).1 ∧
      ∀ i, ((heartbeatPaths crypto readings draws paths ctx pbuf).1.paths i).validTokens =
        if i ∈ paths then
          refreshTokens crypto (ctx.paths i).portRange (readings i) (ctx.paths i).validTokens
        else (ctx.paths i).validTokens := by
  induction paths generalizing ctx pbuf with
  | nil => exact ⟨.refl ctx, fun i => by simp [heartbeatPaths]⟩
  | cons path paths ih =>
      obtain ⟨hfresh, hnodup⟩ := List.nodup_cons.mp hnodup
      obtain ⟨hconf, hown, hothers⟩ :=
        heartbeatPath_spec crypto (readings path) (draws path) path ctx pbuf
      obtain ⟨hrestConf, hrest⟩ := ih hnodup
        (heartbeatPath crypto (readings path) (draws path) path ctx pbuf).1
        (heartbeatPath crypto (readings path) (draws path) path ctx pbuf).2.1
      refine ⟨hconf.trans hrestConf, fun i => ?_⟩
      simp only [heartbeatPaths]
      rw [hrest i, hconf.portRange]
      rcases eq_or_ne i path with rfl | hne
      · rw [if_neg hfresh, if_pos List.mem_cons_self, hown]
      · rw [hothers i hne]
        simp [hne]

/-- A heartbeat event refreshes the pool of every path of the peer. -/
theorem step_heartbeat_validTokens {readings : Nat → Nat → Timeval} {draws : Nat → Draws}
    (hstep : step crypto process (.heartbeat readings draws) =
      some (.ok (process', outputs))) :
    SameConf process.ctx process'.ctx ∧
      ∀ i, (process'.ctx.paths i).validTokens =
        if i < process.ctx.pathCount then
          refreshTokens crypto (process.ctx.paths i).portRange (readings i)
            (process.ctx.paths i).validTokens
        else (process.ctx.paths i).validTokens := by
  obtain ⟨pbuf, ctx, pbuf', -, hround, rfl⟩ := step_heartbeat hstep
  have hspec := heartbeatPaths_spec crypto readings draws
    (List.nodup_range (n := process.ctx.pathCount)) process.ctx pbuf
  rw [hround] at hspec
  simpa only [List.mem_range] using hspec

/-- No event changes what comes from the configuration. -/
theorem step_sameConf {event : Event}
    (hstep : step crypto process event = some (.ok (process', outputs))) :
    SameConf process.ctx process'.ctx := by
  by_cases hheartbeat : ∃ readings draws, event = .heartbeat readings draws
  · obtain ⟨readings, draws, rfl⟩ := hheartbeat
    exact (step_heartbeat_validTokens hstep).1
  · exact (step_sameTokens hstep fun readings draws heq =>
      hheartbeat ⟨readings, draws, heq⟩).toSameConf

/-- A reachable peer still has the configuration it started with. -/
theorem sameConf_of_reachable {conf : Conf} (hreach : Reachable (peer crypto conf) process) :
    SameConf (initCtx conf) process.ctx := by
  refine hreach.invariant (fun process => SameConf (initCtx conf) process.ctx) ?_ ?_
  · rintro process rfl
    exact .refl _
  · rintro process event process' - hconf ⟨outputs, hstep⟩
    exact hconf.trans (step_sameConf hstep)

end Vpn
end Muon
