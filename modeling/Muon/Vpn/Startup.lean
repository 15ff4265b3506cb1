import Muon.Vpn.StepCases

/-!
# The start of a peer

`vpn_run` of a client starts `client_hop`, `vpn_run` of a server one worker for
each port of each path.  No coroutine starts the other mode's coroutines, so a
server never hops and a client never binds a server's port.
-/

namespace Muon
namespace Vpn

open Foundation Packet Totp

variable {crypto : Crypto} {conf : Conf} {process process' : Process}
  {outputs : List Output}

theorem bindWorker_starts (process : Process) (index : Nat) (worker : Worker)
    (listen : Option IpAddr) :
    (bindWorker process index worker listen).starts = process.starts ∧
      (bindWorker process index worker listen).hopNext = process.hopNext := by
  cases listen <;> exact ⟨rfl, rfl⟩

theorem startWorker_starts (process : Process) (path : Nat) (token timeout now : Int)
    (stack : Pbuf) (listen : Option IpAddr) :
    (startWorker process path token timeout now stack listen).starts = process.starts ∧
      (startWorker process path token timeout now stack listen).hopNext =
        process.hopNext := by
  cases hmode : process.ctx.mode with
  | client => simp only [startWorker, hmode, and_self]
  | server =>
      simp only [startWorker, hmode]
      exact bindWorker_starts _ _ _ _

theorem udpSender_starts {path : Nat} {pbuf pbuf' : Pbuf} {draws : Draws}
    (hsend : udpSender crypto process path pbuf draws = .ok (process', pbuf', outputs)) :
    process'.starts = process.starts ∧ process'.hopNext = process.hopNext ∧
      process'.workers = process.workers := by
  simp only [udpSender] at hsend
  split at hsend
  · cases hsend
  · split at hsend
    · cases hsend
      exact ⟨rfl, rfl, rfl⟩
    · cases hsend
      exact ⟨rfl, rfl, rfl⟩

/-- The `go` calls ahead only get fewer, and hopping starts with its own. -/
theorem step_starts {event : Event}
    (hstep : step crypto process event = some (.ok (process', outputs))) :
    process'.starts ⊆ process.starts ∧
      (process.hopNext = none → .clientHop ∉ process.starts → process'.hopNext = none) := by
  have hkept : process'.starts = process.starts ∧ process'.hopNext = process.hopNext →
      process'.starts ⊆ process.starts ∧
        (process.hopNext = none → .clientHop ∉ process.starts → process'.hopNext = none) := by
    rintro ⟨hstarts, hhop⟩
    rw [hstarts, hhop]
    exact ⟨List.Subset.refl _, fun hnone _ => hnone⟩
  cases event with
  | start stack now listen =>
      obtain ⟨start, starts, hstarts, rfl, -⟩ := step_start hstep
      rw [hstarts]
      cases start with
      | clientHop =>
          exact ⟨List.subset_cons_self _ _, fun _ hmem => absurd List.mem_cons_self hmem⟩
      | udpWorker path port =>
          simp only [runStart, startWorker_starts]
          exact ⟨List.subset_cons_self _ _, fun hnone _ => hnone⟩
      | tunWorker => exact ⟨List.subset_cons_self _ _, fun hnone _ => hnone⟩
      | heartbeat => exact ⟨List.subset_cons_self _ _, fun hnone _ => hnone⟩
  | hop clock stack now =>
      obtain ⟨path, hpath, -, rfl, -⟩ := step_hop hstep
      rw [(startWorker_starts _ _ _ _ _ _ _).1, hpath]
      exact ⟨List.Subset.refl _, fun hnone => by cases hnone⟩
  | hopWake =>
      obtain ⟨path, hpath, -, rfl, -⟩ := step_hopWake hstep
      rw [hpath]
      exact ⟨List.Subset.refl _, fun hnone => by cases hnone⟩
  | resolved index remote listen =>
      obtain ⟨worker, -, -, rfl, -⟩ := step_resolved hstep
      exact hkept (bindWorker_starts _ _ _ _)
  | received index source bytes =>
      obtain ⟨worker, -, -, hreceive⟩ := step_received hstep
      obtain ⟨pbuf, ⟨rfl, -⟩ | ⟨n, data, -, -, -, -, -, rfl, -⟩⟩ :=
        receiveDatagram_cases hreceive
      · exact hkept ⟨rfl, rfl⟩
      · exact hkept ⟨rfl, rfl⟩
  | receiveError index =>
      obtain ⟨worker, -, -, rfl, -⟩ := step_receiveError hstep
      exact hkept ⟨rfl, rfl⟩
  | timeout index now =>
      obtain ⟨worker, -, -, -, -, rfl, -⟩ := step_timeout hstep
      refine hkept ?_
      unfold receiveTimeout
      split <;> exact ⟨rfl, rfl⟩
  | tunRead packet draws =>
      obtain ⟨pbuf, path, next, pbuf', -, -, -, -, hsend, rfl⟩ := step_tunRead hstep
      obtain ⟨hstarts, hhop, -⟩ := udpSender_starts hsend
      exact hkept ⟨hstarts, hhop⟩
  | tunReadError =>
      obtain ⟨pbuf, -, rfl, -⟩ := step_tunReadError hstep
      exact hkept ⟨rfl, rfl⟩
  | heartbeat readings draws =>
      obtain ⟨pbuf, ctx, pbuf', -, -, rfl⟩ := step_heartbeat hstep
      exact hkept ⟨rfl, rfl⟩

/-- Only the `go` calls of `vpn_run` are ever ahead, and a peer that is not told
to hop does not hop. -/
theorem starts_of_reachable (hreach : Reachable (peer crypto conf) process) :
    process.starts ⊆ (vpnRun conf).starts ∧
      (.clientHop ∉ (vpnRun conf).starts → process.hopNext = none) := by
  refine hreach.invariant (fun process => process.starts ⊆ (vpnRun conf).starts ∧
    (.clientHop ∉ (vpnRun conf).starts → process.hopNext = none)) ?_ ?_
  · rintro process rfl
    exact ⟨List.Subset.refl _, fun _ => rfl⟩
  · rintro process event process' - ⟨hstarts, hhop⟩ ⟨outputs, hstep⟩
    obtain ⟨hfewer, hnone⟩ := step_starts hstep
    exact ⟨List.Subset.trans hfewer hstarts,
      fun hnot => hnone (hhop hnot) fun hmem => hnot (hstarts hmem)⟩

/-- A server starts a worker for each port of each path. -/
theorem udpWorker_mem_starts {path : Nat} {port : Int}
    (hmem : .udpWorker path port ∈ (vpnRun conf).starts) :
    conf.mode = .server ∧ path < conf.paths.length ∧ 0 ≤ port ∧
      port ≤ ((initCtx conf).paths path).portRange := by
  cases hmode : conf.mode with
  | client => simp [vpnRun, hmode] at hmem
  | server =>
      simp only [vpnRun, hmode, List.mem_append, List.mem_flatMap, List.mem_map,
        List.mem_range, List.mem_cons, List.not_mem_nil, reduceCtorEq, or_false] at hmem
      obtain ⟨i, hi, j, hj, heq⟩ := hmem
      cases heq
      exact ⟨rfl, hi, by omega, by omega⟩

theorem clientHop_not_mem_starts (hmode : conf.mode = .server) :
    .clientHop ∉ (vpnRun conf).starts := by
  simp [vpnRun, hmode]

end Vpn
end Muon
