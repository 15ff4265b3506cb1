import Muon.Vpn.StepCases

/-!
# The coroutines that are started once

`vpn_run` starts `client_hop`, `tun_worker` and `heartbeat` with a `go` call each.  A call
that is still ahead can be made at any time, and a coroutine that runs stays, `tun_worker`
up to its first read error.
-/

namespace Muon
namespace Vpn

open Foundation Packet Totp

variable {crypto : Crypto} {process process' : Process} {outputs : List Output}

/-- The coroutine of a `go` call exists. -/
def Running (process : Process) : Start → Prop
  | .clientHop => process.hopNext ≠ none
  | .udpWorker _ _ => True
  | .tunWorker => process.tun ≠ none
  | .heartbeat => process.heartbeat ≠ none

/-- The `go` call is ahead, or its coroutine exists. -/
def Underway (process : Process) (start : Start) : Prop :=
  start ∈ process.starts ∨ Running process start

theorem bindWorker_rest (process : Process) (index : Nat) (worker : Worker)
    (listen : Option IpAddr) : ∃ ctx workers,
      bindWorker process index worker listen = { process with ctx := ctx, workers := workers } := by
  cases listen with
  | none => exact ⟨_, _, rfl⟩
  | some bound => exact ⟨_, _, rfl⟩

theorem startWorker_rest (process : Process) (path : Nat) (token timeout now : Int)
    (stack : Pbuf) (listen : Option IpAddr) : ∃ ctx workers,
      startWorker process path token timeout now stack listen =
        { process with ctx := ctx, workers := workers } := by
  cases hmode : process.ctx.mode with
  | client =>
      simp only [startWorker, hmode]
      exact ⟨_, _, rfl⟩
  | server =>
      simp only [startWorker, hmode]
      obtain ⟨ctx, workers, heq⟩ := bindWorker_rest
        { process with
          ctx := process.ctx.updatePath path fun path => { path with alive := 0 }
          workers := process.workers ++ [_] } process.workers.length _ listen
      exact ⟨ctx, workers, heq⟩

theorem udpSender_rest {path : Nat} {pbuf pbuf' : Pbuf} {draws : Draws}
    (hsend : udpSender crypto process path pbuf draws = .ok (process', pbuf', outputs)) :
    ∃ ctx, process' = { process with senderPath := path, ctx := ctx } := by
  simp only [udpSender] at hsend
  split at hsend
  · cases hsend
  · split at hsend
    · cases hsend
      exact ⟨_, rfl⟩
    · cases hsend
      exact ⟨_, rfl⟩

/-- A `go` call starts its coroutine, and the others stay. -/
theorem runStart_running (process : Process) (start : Start) (stack : Pbuf) (now : Int)
    (listen : Option IpAddr) :
    (runStart process start stack now listen).starts = process.starts ∧
      Running (runStart process start stack now listen) start ∧
      ∀ other, Running process other → Running (runStart process start stack now listen) other := by
  cases start with
  | clientHop =>
      refine ⟨rfl, Option.some_ne_none _, fun other hrunning => ?_⟩
      cases other with
      | clientHop => exact Option.some_ne_none _
      | udpWorker | tunWorker | heartbeat => exact hrunning
  | tunWorker =>
      refine ⟨rfl, Option.some_ne_none _, fun other hrunning => ?_⟩
      cases other with
      | tunWorker => exact Option.some_ne_none _
      | udpWorker | clientHop | heartbeat => exact hrunning
  | heartbeat =>
      refine ⟨rfl, Option.some_ne_none _, fun other hrunning => ?_⟩
      cases other with
      | heartbeat => exact Option.some_ne_none _
      | udpWorker | tunWorker | clientHop => exact hrunning
  | udpWorker path port =>
      obtain ⟨ctx, workers, heq⟩ := startWorker_rest process path port (-1) now stack listen
      simp only [runStart, heq]
      exact ⟨trivial, trivial, fun other hrunning => hrunning⟩

/-- Only a read error ends one of these coroutines. -/
theorem step_underway {event : Event}
    (hstep : step crypto process event = some (.ok (process', outputs))) {start : Start}
    (hreads : start = .tunWorker → event ≠ .tunReadError) (hunderway : Underway process start) :
    Underway process' start := by
  cases event with
  | start stack now listen =>
      obtain ⟨first, starts, hstarts, rfl, -⟩ := step_start hstep
      obtain ⟨hrest, hfirst, hothers⟩ :=
        runStart_running { process with starts := starts } first stack now listen
      rw [Underway, hstarts, List.mem_cons] at hunderway
      rcases hunderway with (rfl | hahead) | hrunning
      · exact Or.inr hfirst
      · exact Or.inl (hrest ▸ hahead)
      · exact Or.inr (hothers start (by cases start <;> exact hrunning))
  | hop reading stack now =>
      obtain ⟨path, hnext, -, rfl, -⟩ := step_hop hstep
      obtain ⟨ctx, workers, heq⟩ := startWorker_rest { process with hopNext := some (path + 1) }
        path (totp crypto (process.ctx.paths path).portRange reading 0) 5000 now stack none
      rw [heq]
      refine hunderway.imp id fun hrunning => ?_
      cases start with
      | clientHop => exact Option.some_ne_none _
      | udpWorker | tunWorker | heartbeat => exact hrunning
  | hopWake =>
      obtain ⟨path, hnext, -, rfl, -⟩ := step_hopWake hstep
      refine hunderway.imp id fun hrunning => ?_
      cases start with
      | clientHop => exact Option.some_ne_none _
      | udpWorker | tunWorker | heartbeat => exact hrunning
  | resolved index remote listen =>
      obtain ⟨worker, -, -, rfl, -⟩ := step_resolved hstep
      obtain ⟨ctx, workers, heq⟩ := bindWorker_rest
        { process with
          ctx := process.ctx.updatePath worker.path fun path =>
            { path with remote := remote, token := worker.token } } index worker listen
      rw [resolveWorker, heq]
      cases start <;> exact hunderway
  | received index source bytes =>
      obtain ⟨worker, -, -, hreceive⟩ := step_received hstep
      obtain ⟨pbuf, ⟨rfl, -⟩ | ⟨n, data, -, -, -, -, -, rfl, -⟩⟩ :=
        receiveDatagram_cases hreceive
      · cases start <;> exact hunderway
      · cases start <;> exact hunderway
  | receiveError index =>
      obtain ⟨worker, -, -, rfl, -⟩ := step_receiveError hstep
      exact hunderway
  | timeout index now =>
      obtain ⟨worker, -, -, -, -, rfl, -⟩ := step_timeout hstep
      unfold receiveTimeout
      split
      · exact hunderway
      · cases start <;> exact hunderway
  | tunRead packet draws =>
      obtain ⟨pbuf, path, next, pbuf', -, -, -, -, hsend, rfl⟩ := step_tunRead hstep
      obtain ⟨ctx, rfl⟩ := udpSender_rest hsend
      refine hunderway.imp id fun hrunning => ?_
      cases start with
      | tunWorker => exact Option.some_ne_none _
      | udpWorker | clientHop | heartbeat => exact hrunning
  | tunReadError =>
      obtain ⟨pbuf, -, rfl, -⟩ := step_tunReadError hstep
      cases start with
      | tunWorker => exact absurd rfl (hreads rfl)
      | udpWorker | clientHop | heartbeat => exact hunderway
  | heartbeat readings draws =>
      obtain ⟨pbuf, ctx, pbuf', -, -, rfl⟩ := step_heartbeat hstep
      refine hunderway.imp id fun hrunning => ?_
      cases start with
      | heartbeat => exact Option.some_ne_none _
      | udpWorker | tunWorker | clientHop => exact hrunning

/-- What `vpn_run` starts is underway, `tun_worker` up to its first error. -/
theorem underway_of_reachable {conf : Conf} (hreach : Reachable (peer crypto conf) process)
    {start : Start} (hmem : start ∈ (vpnRun conf).starts) (hother : start ≠ .tunWorker) :
    Underway process start := by
  refine hreach.invariant (fun process => Underway process start) ?_ ?_
  · rintro process rfl
    exact Or.inl hmem
  · rintro process event process' - hunderway ⟨outputs, hstep⟩
    exact step_underway hstep (fun heq => absurd heq hother) hunderway

end Vpn
end Muon
