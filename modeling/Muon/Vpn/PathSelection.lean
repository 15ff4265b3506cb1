import Muon.Vpn.StepCases

/-!
# The selection of a path

The loop of `udp_sender` advances its static path, cyclically, until it finds a
live one or is back where it started.  It always ends, on an existing path; so a
packet read from the TUN device is always handled.
-/

namespace Muon
namespace Vpn

open Foundation Packet

variable {crypto : Crypto} {process process' : Process} {outputs : List Output}

/-- The number of paths the loop has still to pass before it is back at `last`. -/
def pathsAhead (pathCount last path : Nat) : Nat :=
  if path < last then last - 1 - path else pathCount - 1 + last - path

/-- An iteration that goes on comes one path closer. -/
theorem selectNext_next {ctx : Ctx} {last path path' : Nat} (hlast : last < ctx.pathCount)
    (hpath : path < ctx.pathCount) (hnext : selectNext ctx last path = .next path') :
    path' < ctx.pathCount ∧
      pathsAhead ctx.pathCount last path' < pathsAhead ctx.pathCount last path := by
  simp only [selectNext] at hnext
  split at hnext
  · cases hnext
  · next hother =>
      cases hnext
      have hne : (path + 1) % ctx.pathCount ≠ last := fun heq => hother (Or.inr heq)
      have hlt : (path + 1) % ctx.pathCount < ctx.pathCount := Nat.mod_lt _ (by omega)
      refine ⟨hlt, ?_⟩
      rcases Nat.lt_or_ge (path + 1) ctx.pathCount with hinside | hwrap
      · rw [Nat.mod_eq_of_lt hinside] at hne ⊢
        unfold pathsAhead
        split <;> split <;> omega
      · have hzero : (path + 1) % ctx.pathCount = 0 := by
          rw [show path + 1 = ctx.pathCount by omega, Nat.mod_self]
        rw [hzero] at hne ⊢
        unfold pathsAhead
        split <;> split <;> omega

/-- The loop leaves with the first live path behind `last`, or with `last`. -/
theorem whileLoop_selectNext_first {ctx : Ctx} {last : Nat} (hlast : last < ctx.pathCount)
    {fuel passed : Nat} (hpassed : passed < ctx.pathCount)
    (hdead : ∀ j, 1 ≤ j → j ≤ passed → ¬ 0 < (ctx.paths ((last + j) % ctx.pathCount)).alive)
    {result : Except Nat Nat}
    (hloop : whileLoop (selectNext ctx last) fuel ((last + passed) % ctx.pathCount) =
      some result) :
    ∃ k, 1 ≤ k ∧ k ≤ ctx.pathCount ∧ result = .error ((last + k) % ctx.pathCount) ∧
      (∀ j, 1 ≤ j → j < k → ¬ 0 < (ctx.paths ((last + j) % ctx.pathCount)).alive) ∧
      (0 < (ctx.paths ((last + k) % ctx.pathCount)).alive ∨ k = ctx.pathCount) := by
  -- `passed` paths have been found dead; the loop is back at `last` after all of them.
  induction fuel generalizing passed with
  | zero => cases hloop
  | succ fuel ih =>
      have hnext : ((last + passed) % ctx.pathCount + 1) % ctx.pathCount =
          (last + (passed + 1)) % ctx.pathCount := by
        rw [Nat.mod_add_mod, Nat.add_assoc]
      have hback : (last + (passed + 1)) % ctx.pathCount = last ↔
          passed + 1 = ctx.pathCount := by
        constructor
        · intro heq
          by_contra hne
          rcases Nat.lt_or_ge (last + (passed + 1)) ctx.pathCount with hinside | hwrap
          · rw [Nat.mod_eq_of_lt hinside] at heq
            omega
          · rw [Nat.mod_eq_sub_mod hwrap, Nat.mod_eq_of_lt (by omega)] at heq
            omega
        · intro heq
          rw [heq, Nat.add_mod_right, Nat.mod_eq_of_lt hlast]
      have hiterate : selectNext ctx last ((last + passed) % ctx.pathCount) =
          if 0 < (ctx.paths ((last + (passed + 1)) % ctx.pathCount)).alive ∨
              (last + (passed + 1)) % ctx.pathCount = last then
            .leave ((last + (passed + 1)) % ctx.pathCount)
          else .next ((last + (passed + 1)) % ctx.pathCount) := by
        simp only [selectNext, hnext]
      by_cases hstop : 0 < (ctx.paths ((last + (passed + 1)) % ctx.pathCount)).alive ∨
          (last + (passed + 1)) % ctx.pathCount = last
      · rw [if_pos hstop] at hiterate
        rw [whileLoop_leave hiterate] at hloop
        cases hloop
        refine ⟨passed + 1, by omega, by omega, rfl, fun j hlow hj => ?_, ?_⟩
        · exact hdead j hlow (by omega)
        · rwa [hback] at hstop
      · rw [if_neg hstop] at hiterate
        rw [whileLoop_next hiterate] at hloop
        obtain ⟨hdeadNext, hother⟩ := not_or.mp hstop
        rw [hback] at hother
        refine ih (by omega) (fun j hlow hj => ?_) hloop
        rcases Nat.lt_or_eq_of_le hj with hearlier | rfl
        · exact hdead j hlow (by omega)
        · exact hdeadNext

/-- **`udp_sender` selects the first live path behind the last one**, in at most as
many iterations as there are paths; when no other path is alive, it is back at the
last one. -/
theorem selectPath_first {ctx : Ctx} {last : Nat} (hlast : last < ctx.pathCount) :
    ∃ k, 1 ≤ k ∧ k ≤ ctx.pathCount ∧
      selectPath ctx last = some ((last + k) % ctx.pathCount) ∧
      (∀ j, 1 ≤ j → j < k → ¬ 0 < (ctx.paths ((last + j) % ctx.pathCount)).alive) ∧
      (0 < (ctx.paths ((last + k) % ctx.pathCount)).alive ∨ k = ctx.pathCount) := by
  have hcount : 0 < ctx.pathCount := by omega
  have hstart : pathsAhead ctx.pathCount last last < ctx.pathCount := by
    unfold pathsAhead
    split <;> omega
  have hends : (whileLoop (selectNext ctx last) ctx.pathCount last).isSome = true :=
    whileLoop_isSome (fun path => path < ctx.pathCount) (pathsAhead ctx.pathCount last)
      (fun _ _ hpath hnext => selectNext_next hlast hpath hnext) hlast hstart
  obtain ⟨result, hloop⟩ := Option.isSome_iff_exists.mp hends
  have hzero : (last + 0) % ctx.pathCount = last := Nat.mod_eq_of_lt hlast
  have hnone : ∀ j, 1 ≤ j → j ≤ 0 →
      ¬ 0 < (ctx.paths ((last + j) % ctx.pathCount)).alive := by
    intro j hlow hj
    omega
  obtain ⟨k, hlow, hhigh, rfl, hdead, hselected⟩ :=
    whileLoop_selectNext_first hlast hcount hnone (by rw [hzero]; exact hloop)
  exact ⟨k, hlow, hhigh, by simp only [selectPath, if_pos hcount, hloop], hdead, hselected⟩

theorem selectPath_spec {ctx : Ctx} {last : Nat} (hlast : last < ctx.pathCount) :
    ∃ path, selectPath ctx last = some path ∧ path < ctx.pathCount := by
  obtain ⟨k, -, -, hselect, -⟩ := selectPath_first hlast
  exact ⟨_, hselect, Nat.mod_lt _ (by omega)⟩

/-- Every path is some number of paths behind the last one. -/
theorem exists_behind {count last path : Nat} (hlast : last < count) (hpath : path < count) :
    ∃ j, 1 ≤ j ∧ j ≤ count ∧ (last + j) % count = path := by
  rcases Nat.lt_or_ge last path with hlater | hearlier
  · refine ⟨path - last, by omega, by omega, ?_⟩
    rw [Nat.add_sub_cancel' (Nat.le_of_lt hlater), Nat.mod_eq_of_lt hpath]
  · refine ⟨count + path - last, by omega, by omega, ?_⟩
    rw [show last + (count + path - last) = path + count by omega, Nat.add_mod_right,
      Nat.mod_eq_of_lt hpath]

/-- When a path is alive, a live one is selected. -/
theorem alive_of_selectPath {ctx : Ctx} {last selected path : Nat}
    (hlast : last < ctx.pathCount) (hpath : path < ctx.pathCount)
    (halive : 0 < (ctx.paths path).alive) (hselect : selectPath ctx last = some selected) :
    0 < (ctx.paths selected).alive := by
  obtain ⟨k, hlow, hhigh, hfirst, hdead, hselected⟩ := selectPath_first hlast
  rw [hfirst] at hselect
  cases hselect
  rcases hselected with hlive | hall
  · exact hlive
  · obtain ⟨j, hjlow, hjhigh, rfl⟩ := exists_behind hlast hpath
    rcases Nat.lt_or_eq_of_le hjhigh with hbefore | hsame
    · exact absurd halive (hdead j hjlow (by omega))
    · rw [hsame] at halive
      rw [hall]
      exact halive

/-- When no path is alive, the last one is selected. -/
theorem selectPath_of_dead {ctx : Ctx} {last : Nat} (hlast : last < ctx.pathCount)
    (hdead : ∀ path, path < ctx.pathCount → ¬ 0 < (ctx.paths path).alive) :
    selectPath ctx last = some last := by
  obtain ⟨k, -, -, hfirst, -, hselected⟩ := selectPath_first hlast
  have hall : k = ctx.pathCount :=
    hselected.resolve_left (hdead _ (Nat.mod_lt _ (by omega)))
  rw [hfirst, hall, Nat.add_mod_right, Nat.mod_eq_of_lt hlast]

/-! ## The static path -/

theorem bindWorker_senderPath (process : Process) (index : Nat) (worker : Worker)
    (listen : Option IpAddr) :
    (bindWorker process index worker listen).senderPath = process.senderPath := by
  cases listen <;> rfl

theorem startWorker_senderPath (process : Process) (path : Nat) (token timeout now : Int)
    (stack : Pbuf) (listen : Option IpAddr) :
    (startWorker process path token timeout now stack listen).senderPath =
      process.senderPath := by
  cases hmode : process.ctx.mode with
  | client => simp only [startWorker, hmode]
  | server =>
      simp only [startWorker, hmode]
      exact bindWorker_senderPath _ _ _ _

theorem udpSender_senderPath {path : Nat} {pbuf pbuf' : Pbuf} {draws : Draws}
    (hsend : udpSender crypto process path pbuf draws = .ok (process', pbuf', outputs)) :
    process'.senderPath = path := by
  simp only [udpSender] at hsend
  split at hsend
  · cases hsend
  · split at hsend
    · cases hsend
      rfl
    · cases hsend
      rfl

/-- Only a packet from the TUN device moves the static path. -/
theorem step_senderPath_same {event : Event}
    (hevent : ∀ packet draws, event ≠ .tunRead packet draws)
    (hstep : step crypto process event = some (.ok (process', outputs))) :
    process'.senderPath = process.senderPath := by
  cases event with
  | start stack now listen =>
      obtain ⟨start, starts, -, rfl, -⟩ := step_start hstep
      cases start with
      | udpWorker path port => exact startWorker_senderPath _ _ _ _ _ _ _
      | clientHop => rfl
      | tunWorker => rfl
      | heartbeat => rfl
  | hop clock stack now =>
      obtain ⟨path, -, -, rfl, -⟩ := step_hop hstep
      exact startWorker_senderPath _ _ _ _ _ _ _
  | hopWake =>
      obtain ⟨path, -, -, rfl, -⟩ := step_hopWake hstep
      rfl
  | resolved index remote listen =>
      obtain ⟨worker, -, -, rfl, -⟩ := step_resolved hstep
      exact bindWorker_senderPath _ _ _ _
  | received index source bytes =>
      obtain ⟨worker, -, -, hreceive⟩ := step_received hstep
      obtain ⟨pbuf, ⟨rfl, -⟩ | ⟨n, data, -, -, -, -, -, rfl, -⟩⟩ :=
        receiveDatagram_cases hreceive
      · rfl
      · rfl
  | receiveError index =>
      obtain ⟨worker, -, -, rfl, -⟩ := step_receiveError hstep
      rfl
  | timeout index now =>
      obtain ⟨worker, -, -, -, -, rfl, -⟩ := step_timeout hstep
      unfold receiveTimeout
      split <;> rfl
  | tunRead packet draws => exact absurd rfl (hevent packet draws)
  | tunReadError =>
      obtain ⟨pbuf, -, rfl, -⟩ := step_tunReadError hstep
      rfl
  | heartbeat readings draws =>
      obtain ⟨pbuf, ctx, pbuf', -, -, rfl⟩ := step_heartbeat hstep
      rfl

/-- A packet from the TUN device moves it to the selected path. -/
theorem step_tunRead_senderPath {packet : List UInt8} {draws : Draws}
    (hstep : step crypto process (.tunRead packet draws) = some (.ok (process', outputs))) :
    selectPath process.ctx process.senderPath = some process'.senderPath := by
  obtain ⟨pbuf, path, next, pbuf', -, -, -, hselect, hsend, rfl⟩ := step_tunRead hstep
  have hnext : next.senderPath = path := udpSender_senderPath hsend
  rw [hselect, ← hnext]

/-- The static path of a peer that has paths is one of them. -/
theorem step_senderPath {event : Event}
    (hstep : step crypto process event = some (.ok (process', outputs)))
    (hpath : process.senderPath < process.ctx.pathCount) :
    process'.senderPath < process'.ctx.pathCount := by
  rw [(step_sameConf hstep).pathCount]
  by_cases hread : ∃ packet draws, event = .tunRead packet draws
  · obtain ⟨packet, draws, rfl⟩ := hread
    obtain ⟨selected, hselect, hlt⟩ := selectPath_spec hpath
    rw [step_tunRead_senderPath hstep] at hselect
    cases hselect
    exact hlt
  · rw [step_senderPath_same (fun packet draws heq => hread ⟨packet, draws, heq⟩) hstep]
    exact hpath

/-- In every run the static path is one of the paths. -/
theorem senderPath_lt_of_reachable {conf : Conf} (hpaths : 0 < conf.paths.length)
    (hreach : Reachable (peer crypto conf) process) :
    process.senderPath < process.ctx.pathCount := by
  refine hreach.invariant (fun process => process.senderPath < process.ctx.pathCount) ?_ ?_
  · rintro process rfl
    exact hpaths
  · rintro process event process' - hpath ⟨outputs, hstep⟩
    exact step_senderPath hstep hpath

/-- **A packet that `tun_worker` reads is handled**: in every run of a peer with
paths, the loop of `udp_sender` ends and the event is possible. -/
theorem tunRead_isSome {conf : Conf} (hpaths : 0 < conf.paths.length)
    (hreach : Reachable (peer crypto conf) process) {pbuf : Pbuf}
    (htun : process.tun = some pbuf) {packet : List UInt8} (hlow : 1 ≤ packet.length)
    (hhigh : packet.length ≤ process.ctx.mtu) (draws : Draws) :
    (step crypto process (.tunRead packet draws)).isSome = true := by
  obtain ⟨path, hselect, -⟩ := selectPath_spec (senderPath_lt_of_reachable hpaths hreach)
  simp only [step, htun, if_pos (And.intro hlow hhigh), hselect]
  split <;> rfl

end Vpn
end Muon
