import Muon.Vpn.Agreement

/-!
# What a server knows of its paths

All workers of a path and `heartbeat` write the same four fields.  For a server
these fields are a function of the history: `alive` counts the rounds of
`heartbeat` down from the last datagram that was accepted on the path, and the
triple of `sock`, `remote` and `token` is that datagram's.  A datagram that is not
accepted leaves the whole context as it was.
-/

namespace Muon
namespace Vpn

open Foundation Packet

variable {crypto : Crypto} {conf : Conf} {process process' : Process}
  {outputs : List Output}

/-! ## Accepted datagrams -/

/-- What `udprecv` stores of a datagram. -/
def receivedBytes (process : Process) (bytes : List UInt8) : List UInt8 :=
  bytes.take (toUInt64 (process.ctx.mtu + payloadOffset))

/-- The worker of a server accepts a datagram: its token is in `valid_tokens`, the
datagram has a header, and `decapsulate` does not return an error. -/
def accepts (crypto : Crypto) (process : Process) (worker : Worker)
    (bytes : List UInt8) : Bool :=
  let data := receivedBytes process bytes
  decide (worker.state = .receiving) &&
    tokenAccepted (process.ctx.paths worker.path).validTokens worker.token &&
    decide (payloadOffset ≤ data.length) &&
    match decapsulate crypto worker.token (worker.pbuf.write 0 data) data.length with
    | .error _ => false
    | .ok (n, _) => decide (0 ≤ n)

theorem accepts_iff {worker : Worker} {bytes : List UInt8} :
    accepts crypto process worker bytes = true ↔
      worker.state = .receiving ∧
        tokenAccepted (process.ctx.paths worker.path).validTokens worker.token = true ∧
        payloadOffset ≤ (receivedBytes process bytes).length ∧
        ∃ n after, decapsulate crypto worker.token
            (worker.pbuf.write 0 (receivedBytes process bytes))
            (receivedBytes process bytes).length = .ok (n, after) ∧ 0 ≤ n := by
  simp only [accepts, Bool.and_eq_true, decide_eq_true_eq, and_assoc]
  cases decapsulate crypto worker.token (worker.pbuf.write 0 (receivedBytes process bytes))
      (receivedBytes process bytes).length with
  | error abort => simp
  | ok result =>
      obtain ⟨n, after⟩ := result
      simp

/-- The worker at whose socket a datagram arrives, if it accepts it. -/
def accepting (crypto : Crypto) (process : Process) (index : Nat) (bytes : List UInt8) :
    Option Worker :=
  (process.workers[index]?).filter fun worker => accepts crypto process worker bytes

/-- A datagram that is not accepted leaves the context alone and delivers nothing;
one that is accepted updates it. -/
theorem step_received_accepting {index : Nat} {source : IpAddr} {bytes : List UInt8}
    (hserver : process.ctx.mode = .server)
    (hstep : step crypto process (.received index source bytes) =
      some (.ok (process', outputs))) :
    (accepting crypto process index bytes = none ∧ process'.ctx = process.ctx ∧
        outputs = []) ∨
      ∃ worker pbuf n, accepting crypto process index bytes = some worker ∧
        process'.ctx =
          acceptDatagram process.ctx index { worker with pbuf := pbuf } source n := by
  obtain ⟨worker, hworker, hstate, hreceive⟩ := step_received hstep
  have haccepting : accepting crypto process index bytes =
      if accepts crypto process worker bytes then some worker else none := by
    rw [accepting, hworker]
    rfl
  simp only [receiveDatagram, hserver, true_and] at hreceive
  rw [haccepting]
  split at hreceive
  · -- The token is not in the pool.
    next hscan =>
      cases hreceive
      refine Or.inl ⟨if_neg fun haccepts => ?_, rfl, rfl⟩
      rw [(accepts_iff.mp haccepts).2.1] at hscan
      cases hscan
  · next hscan =>
      have hscanned := (Bool.not_eq_false _).mp hscan
      split at hreceive
      · -- The datagram is shorter than a header.
        next hshort =>
          cases hreceive
          refine Or.inl ⟨if_neg fun haccepts => ?_, rfl, rfl⟩
          exact Nat.not_le.mpr hshort (accepts_iff.mp haccepts).2.2.1
      · next hlong =>
          have hheader := Nat.le_of_not_lt hlong
          split at hreceive
          · cases hreceive
          · next n pbuf hdecapsulate =>
              split at hreceive
              · -- `decapsulate` returned an error.
                next hinvalid =>
                  cases hreceive
                  refine Or.inl ⟨if_neg fun haccepts => ?_, rfl, rfl⟩
                  obtain ⟨-, -, -, n', after, hvalue, hvalid⟩ := accepts_iff.mp haccepts
                  rw [receivedBytes, hdecapsulate] at hvalue
                  cases hvalue
                  exact Int.not_le.mpr hinvalid hvalid
              · next hvalid =>
                  refine Or.inr ⟨worker, pbuf, n, ?_, ?_⟩
                  · exact if_pos (accepts_iff.mpr ⟨hstate, hscanned, hheader, n, pbuf,
                      hdecapsulate, Int.le_of_not_gt hvalid⟩)
                  · split at hreceive <;> cases hreceive <;> rfl

/-! ## The last accepted datagram -/

/-- An accepted datagram: the rounds of `heartbeat` since, the socket that received
it, where it came from, and the token it was decrypted with. -/
structure Accepted where
  rounds : Nat
  sock : Nat
  source : IpAddr
  token : Int

/-- `vpn_run` is about to start a worker of the path. -/
def startsWorker (process : Process) (path : Nat) : Bool :=
  match process.starts with
  | .udpWorker path' _ :: _ => path' == path
  | _ => false

/-- The most recent datagram accepted on a path in a run, latest step first, since a
worker of the path was last started. -/
def lastAccepted (crypto : Crypto) (path : Nat) :
    List (Step Process Event) → Option Accepted
  | [] => none
  | step :: steps =>
      match step.event with
      | .start _ _ _ =>
          if startsWorker step.before path then none else lastAccepted crypto path steps
      | .received index source bytes =>
          match accepting crypto step.before index bytes with
          | none => lastAccepted crypto path steps
          | some worker =>
              if worker.path = path then some ⟨0, index, source, worker.token⟩
              else lastAccepted crypto path steps
      | .heartbeat _ _ =>
          (lastAccepted crypto path steps).map fun last =>
            { last with rounds := last.rounds + 1 }
      | _ => lastAccepted crypto path steps

/-- The state of a path is what the last accepted datagram says. -/
def Follows (path : PathCtx) : Option Accepted → Prop
  | none => path.alive = 0
  | some last => path.alive = max 0 (5 - (last.rounds : Int)) ∧
      path.sock = some last.sock ∧ path.remote = last.source ∧ path.token = last.token

theorem Follows.of_same {path path' : PathCtx} {last : Option Accepted}
    (hfollows : Follows path last) (halive : path'.alive = path.alive)
    (hsock : path'.sock = path.sock) (hremote : path'.remote = path.remote)
    (htoken : path'.token = path.token) : Follows path' last := by
  cases last with
  | none => exact halive.trans hfollows
  | some last =>
      obtain ⟨hcount, howner, hsource, hown⟩ := hfollows
      exact ⟨halive.trans hcount, hsock.trans howner, hremote.trans hsource,
        htoken.trans hown⟩

/-- A round of `heartbeat` counts the path down. -/
theorem Follows.countDown {path path' : PathCtx} {last : Option Accepted}
    (hfollows : Follows path last)
    (halive : path'.alive = if 0 < path.alive then path.alive - 1 else path.alive)
    (hsock : path'.sock = path.sock) (hremote : path'.remote = path.remote)
    (htoken : path'.token = path.token) :
    Follows path' (last.map fun last => { last with rounds := last.rounds + 1 }) := by
  cases last with
  | none =>
      have hdead : path.alive = 0 := hfollows
      show path'.alive = 0
      rw [halive, hdead]
      rfl
  | some last =>
      obtain ⟨hcount, howner, hsource, hown⟩ := hfollows
      refine ⟨?_, hsock.trans howner, hremote.trans hsource, htoken.trans hown⟩
      rw [halive, hcount]
      push_cast
      split <;> omega

/-! ## A round of heartbeat -/

/-- `heartbeat` counts down the path of its iteration only. -/
theorem heartbeatPath_alive (crypto : Crypto) (readings : Nat → Totp.Timeval) (draws : Draws)
    (path : Nat) (ctx : Ctx) (pbuf : Pbuf) (i : Nat) :
    ((heartbeatPath crypto readings draws path ctx pbuf).1.paths i).alive =
      if i = path ∧ 0 < (ctx.paths i).alive then (ctx.paths i).alive - 1
      else (ctx.paths i).alive := by
  have hsent : ∀ ctx : Ctx, (sendHeartbeat crypto draws path ctx pbuf).1.paths = ctx.paths := by
    intro ctx
    unfold sendHeartbeat
    split
    · split <;> rfl
    · rfl
  have hrefreshed : ((refreshPath crypto readings path ctx).paths i).alive =
      (ctx.paths i).alive := by
    unfold refreshPath
    apply ctx.field_updatePath path _ PathCtx.alive
    rfl
  have hcounted : ∀ ctx : Ctx, ((countDown path ctx).paths i).alive =
      if i = path ∧ 0 < (ctx.paths i).alive then (ctx.paths i).alive - 1
      else (ctx.paths i).alive := by
    intro ctx
    unfold countDown
    rcases eq_or_ne i path with rfl | hne
    · split
      · next hlive => simp [hlive]
      · next hdead => simp [hdead]
    · split
      · rw [Ctx.paths_updatePath_of_ne _ _ _ hne, if_neg fun h => hne h.1]
      · rw [if_neg fun h => hne h.1]
  simp only [heartbeatPath]
  rw [hcounted, hsent, hrefreshed]

/-- A round counts each of its paths down once. -/
theorem heartbeatPaths_alive (crypto : Crypto) (readings : Nat → Nat → Totp.Timeval)
    (draws : Nat → Draws) {paths : List Nat} (hnodup : paths.Nodup) (ctx : Ctx)
    (pbuf : Pbuf) (i : Nat) :
    ((heartbeatPaths crypto readings draws paths ctx pbuf).1.paths i).alive =
      if i ∈ paths ∧ 0 < (ctx.paths i).alive then (ctx.paths i).alive - 1
      else (ctx.paths i).alive := by
  induction paths generalizing ctx pbuf with
  | nil => simp [heartbeatPaths]
  | cons path paths ih =>
      obtain ⟨hfresh, hnodup⟩ := List.nodup_cons.mp hnodup
      simp only [heartbeatPaths]
      rw [ih hnodup, heartbeatPath_alive]
      rcases eq_or_ne i path with rfl | hne
      · simp [hfresh]
      · simp [hne]

/-- `udp_sender` writes no path. -/
theorem udpSender_paths {path : Nat} {pbuf pbuf' : Pbuf} {draws : Draws}
    (hsend : udpSender crypto process path pbuf draws = .ok (process', pbuf', outputs)) :
    process'.ctx.paths = process.ctx.paths := by
  simp only [udpSender] at hsend
  split at hsend
  · cases hsend
  · split at hsend <;> cases hsend <;> rfl

/-! ## The run -/

/-- What every step of a server does to a path and its history. -/
theorem step_follows (hserver : conf.mode = .server)
    (hreach : Reachable (peer crypto conf) process) {event : Event}
    (hstep : step crypto process event = some (.ok (process', outputs)))
    {steps : List (Step Process Event)} {path : Nat} (hpath : path < process.ctx.pathCount)
    (hfollows : Follows (process.ctx.paths path) (lastAccepted crypto path steps)) :
    Follows (process'.ctx.paths path)
      (lastAccepted crypto path (⟨process, event, process'⟩ :: steps)) := by
  have hmode : process.ctx.mode = .server := (sameConf_of_reachable hreach).mode.trans hserver
  cases event with
  | start stack now listen =>
      obtain ⟨start, starts, hstarts, rfl, -⟩ := step_start hstep
      have hother : startsWorker process path = false →
          Follows (process.ctx.paths path)
            (lastAccepted crypto path (⟨process, .start stack now listen,
              runStart { process with starts := starts } start stack now listen⟩ :: steps)) := by
        intro hkept
        simp only [lastAccepted, hkept]
        exact hfollows
      cases start with
      | udpWorker started port =>
          obtain ⟨-, hdead, hothers⟩ := startWorker_server { process with starts := starts }
            hmode started port (-1) now stack listen
          by_cases hsame : started = path
          · subst hsame
            have hreset : startsWorker process started = true := by
              simp [startsWorker, hstarts]
            simp only [lastAccepted, hreset]
            exact hdead
          · have hkept : startsWorker process path = false := by
              simp [startsWorker, hstarts, hsame]
            have hpaths := hothers path fun heq => hsame heq.symm
            show Follows ((startWorker _ started port (-1) now stack listen).ctx.paths path) _
            rw [hpaths]
            exact hother hkept
      | clientHop => exact hother (by simp [startsWorker, hstarts])
      | tunWorker => exact hother (by simp [startsWorker, hstarts])
      | heartbeat => exact hother (by simp [startsWorker, hstarts])
  | hop clock stack now =>
      -- A server does not hop.
      obtain ⟨next, hhop, -⟩ := step_hop hstep
      rw [(starts_of_reachable hreach).2 (clientHop_not_mem_starts hserver)] at hhop
      cases hhop
  | hopWake =>
      obtain ⟨next, -, -, rfl, -⟩ := step_hopWake hstep
      exact hfollows
  | resolved index remote listen =>
      -- No worker of a server waits for a name.
      obtain ⟨worker, hworker, hstate, -⟩ := step_resolved hstep
      have hsettled := settled_of_reachable hserver hreach _ (List.mem_of_getElem? hworker)
      rcases hsettled.2 with hother | hother <;> rw [hstate] at hother <;> cases hother
  | received index source bytes =>
      rcases step_received_accepting hmode hstep with
        ⟨hnone, hctx, -⟩ | ⟨worker, pbuf, n, haccepting, hctx⟩
      · simp only [lastAccepted, hnone, hctx]
        exact hfollows
      · obtain ⟨halive, hkept⟩ :=
          acceptDatagram_alive process.ctx index { worker with pbuf := pbuf } source n
        obtain ⟨hsock, hremote, htoken, -⟩ :=
          acceptDatagram_server hmode index { worker with pbuf := pbuf } source n
        simp only [lastAccepted, haccepting, hctx]
        by_cases hsame : worker.path = path
        · subst hsame
          rw [if_pos rfl]
          exact ⟨halive, hsock, hremote, htoken⟩
        · rw [if_neg hsame, hkept path fun heq => hsame heq.symm]
          exact hfollows
  | receiveError index =>
      obtain ⟨worker, -, -, rfl, -⟩ := step_receiveError hstep
      exact hfollows
  | timeout index now =>
      -- The deadline of a server's worker is never reached.
      obtain ⟨worker, hworker, -, hdeadline, -⟩ := step_timeout hstep
      have hsettled := settled_of_reachable hserver hreach _ (List.mem_of_getElem? hworker)
      have hforever := hsettled.1
      omega
  | tunRead packet draws =>
      obtain ⟨pbuf, selected, next, pbuf', -, -, -, -, hsend, rfl⟩ := step_tunRead hstep
      have hpaths := udpSender_paths hsend
      show Follows (next.ctx.paths path) (lastAccepted crypto path steps)
      rw [hpaths]
      exact hfollows
  | tunReadError =>
      obtain ⟨pbuf, -, rfl, -⟩ := step_tunReadError hstep
      exact hfollows
  | heartbeat readings draws =>
      obtain ⟨pbuf, ctx, pbuf', -, hround, rfl⟩ := step_heartbeat hstep
      have halive := heartbeatPaths_alive crypto readings draws
        (List.nodup_range (n := process.ctx.pathCount)) process.ctx pbuf path
      have hsame := heartbeatPaths_sameSockets crypto readings draws
        (List.range process.ctx.pathCount) process.ctx pbuf
      rw [hround] at halive hsame
      simp only [List.mem_range, hpath, true_and] at halive
      exact hfollows.countDown halive (hsame.sock path) (hsame.remote path) (hsame.token path)

/-- **A server knows of its paths what accepted datagrams told it.** -/
theorem server_follows (crypto : Crypto) (conf : Conf) (hserver : conf.mode = .server)
    (steps : List (Step Process Event)) (process : Process)
    (hrun : History (peer crypto conf) steps process) :
    (∀ path < conf.paths.length,
        Follows (process.ctx.paths path) (lastAccepted crypto path steps)) ∧
      ∀ index source bytes process' outputs,
        accepting crypto process index bytes = none →
        step crypto process (.received index source bytes) =
          some (.ok (process', outputs)) →
        process'.ctx = process.ctx ∧ outputs = [] := by
  constructor
  · intro path hpath
    induction hrun with
    | initial hinitial =>
        subst hinitial
        exact initCtx_alive conf path
    | step hhistory hnext ih =>
        obtain ⟨outputs, hstep⟩ := hnext
        have hreach := hhistory.reachable
        refine step_follows hserver hreach hstep ?_ ih
        rw [(sameConf_of_reachable hreach).pathCount]
        exact hpath
  · intro index source bytes process' outputs hrefused hstep
    have hmode : process.ctx.mode = .server :=
      (sameConf_of_reachable hrun.reachable).mode.trans hserver
    rcases step_received_accepting hmode hstep with
      ⟨-, hctx, hquiet⟩ | ⟨worker, pbuf, n, haccepting, -⟩
    · exact ⟨hctx, hquiet⟩
    · rw [hrefused] at haccepting
      cases haccepting

/-- A server starts, accepts a datagram and sends two rounds of heartbeats. -/
def twoRounds : List Event :=
  [.start (Reference.bufferOf []) 0 (some ⟨1, 1200⟩),
    .start (Reference.bufferOf []) 0 none,
    .start (Reference.bufferOf []) 0 none,
    .received 0 ⟨2, 5000⟩ Reference.twoByteDatagram,
    .heartbeat (fun _ _ => Totp.Timeval.ofMilliseconds 10000) fun _ => Reference.zeroDraws,
    .heartbeat (fun _ _ => Totp.Timeval.ofMilliseconds 10000) fun _ => Reference.zeroDraws]

/-- Two of the five rounds a path lives have passed. -/
theorem server_follows_twoRounds :
    ∃ (steps : List (Step Process Event)) (process : Process),
      steps.map Step.event = twoRounds.reverse ∧
      (process.ctx.paths 0).alive = 3 ∧
      Follows (process.ctx.paths 0) (lastAccepted Reference.crypto 0 steps) := by
  have hruns : ((run (nextProcess Reference.crypto) (vpnRun (onePathConf .server))
      twoRounds).any fun process => (process.ctx.paths 0).alive == 3) = true := by
    decide +kernel
  obtain ⟨process, hrun, halive⟩ := (Option.any_eq_true _ _).mp hruns
  have hinitial : (peer Reference.crypto (onePathConf .server)).initial
      (vpnRun (onePathConf .server)) := rfl
  obtain ⟨steps, hhistory, hevents⟩ :=
    exists_history_of_run (fun _ _ _ => nextProcess_eq_some.mp) hinitial hrun
  refine ⟨steps, process, hevents, beq_iff_eq.mp halive, ?_⟩
  exact (server_follows Reference.crypto (onePathConf .server) rfl steps process hhistory).1 0
    (by decide)

end Vpn
end Muon
