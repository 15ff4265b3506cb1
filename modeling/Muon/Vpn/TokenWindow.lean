import Muon.Vpn.StepCases

/-!
# The window of accepted tokens

Right after a refresh at one clock value, the scan of `udp_worker` accepts the
tokens of the 39 time steps around the clock value.  It also accepts 0, because
slot 1 of the pool is never written and keeps its initial zero through every run.
-/

namespace Muon
namespace Vpn

open Foundation Packet Totp

variable {crypto : Crypto} {conf : Conf} {process process' : Process}
  {outputs : List Output}

/-- The token belongs to a time step at most `POOL/2 - 1` away. -/
def InWindow (crypto : Crypto) (range : Int) (tv : Timeval) (token : Int) : Prop :=
  ∃ k : Int, -((pool : Int) / 2 - 1) ≤ k ∧ k ≤ (pool : Int) / 2 - 1 ∧
    token = totp crypto range tv k

/-- Slot 1 is still zero. -/
def SlotOneZero (ctx : Ctx) : Prop := ∀ i, (ctx.paths i).validTokens 1 = 0

theorem step_slotOneZero {event : Event} (hzero : SlotOneZero process.ctx)
    (hstep : step crypto process event = some (.ok (process', outputs))) :
    SlotOneZero process'.ctx := by
  intro i
  by_cases hheartbeat : ∃ readings draws, event = .heartbeat readings draws
  · obtain ⟨readings, draws, rfl⟩ := hheartbeat
    rw [(step_heartbeat_validTokens hstep).2 i]
    split
    · rw [refreshTokens_one, hzero i]
    · exact hzero i
  · have hsame := step_sameTokens hstep fun readings draws heq =>
      hheartbeat ⟨readings, draws, heq⟩
    rw [hsame.validTokens i, hzero i]

theorem slotOneZero_of_reachable (hreach : Reachable (peer crypto conf) process) :
    SlotOneZero process.ctx := by
  refine hreach.invariant (fun process => SlotOneZero process.ctx) ?_ ?_
  · rintro process rfl
    exact fun i => initCtx_validTokens conf i 1
  · rintro process event process' - hzero ⟨outputs, hstep⟩
    exact step_slotOneZero hzero hstep

/-- What the scan accepts after a refresh at one clock value. -/
theorem tokenAccepted_heartbeat (hreach : Reachable (peer crypto conf) process)
    {readings : Nat → Nat → Timeval} {draws : Nat → Draws}
    (hstep : step crypto process (.heartbeat readings draws) =
      some (.ok (process', outputs)))
    {path : Nat} (hpath : path < process.ctx.pathCount) {tv : Timeval}
    (hreadings : ∀ call, readings path call = tv) (token : Int) :
    tokenAccepted (process'.ctx.paths path).validTokens token = true ↔
      token = 0 ∨ InWindow crypto (process.ctx.paths path).portRange tv token := by
  rw [(step_heartbeat_validTokens hstep).2 path, if_pos hpath,
    tokenAccepted_refreshTokens crypto _ hreadings, slotOneZero_of_reachable hreach path]
  exact Iff.rfl

/-- **When the scan accepts exactly the window.**  In every run, right after a
heartbeat whose readings for a path are one clock value, the scan of that path
treats a token as the window says exactly when the token is not 0 or the window
contains 0. -/
theorem heartbeat_tokenAccepted_iff (crypto : Crypto) (conf : Conf)
    (process process' : Process) (hreach : Reachable (peer crypto conf) process)
    (readings : Nat → Nat → Timeval) (draws : Nat → Draws) (outputs : List Output)
    (hstep : step crypto process (.heartbeat readings draws) =
      some (.ok (process', outputs)))
    (path : Nat) (hpath : path < process.ctx.pathCount) (tv : Timeval)
    (hreadings : ∀ call, readings path call = tv) (token : Int) :
    (tokenAccepted (process'.ctx.paths path).validTokens token = true ↔
        InWindow crypto (process.ctx.paths path).portRange tv token) ↔
      token ≠ 0 ∨ InWindow crypto (process.ctx.paths path).portRange tv 0 := by
  rw [tokenAccepted_heartbeat hreach hstep hpath hreadings]
  by_cases hzero : token = 0
  · subst hzero
    simp
  · simp [hzero]

/-! ## A server with one path -/

/-- A server with one path and the given ports. -/
def onePathServer (portLow portHigh : Int) : Conf where
  mode := .server
  mtu := 1400
  route := false
  paths := [⟨"192.0.2.1", portLow, portHigh⟩]
  tunif := "vpn0"
  address := "10.0.1.1/24"
  address6 := ""

/-- The first events of such a server: every coroutine is started. -/
def startAll (count : Nat) : List Event :=
  List.replicate count (.start (Reference.bufferOf []) 0 none)

/-- A server with a hundred ports whose coroutines have all been started can take a
heartbeat. -/
theorem exists_started (readings : Nat → Nat → Timeval) :
    ∃ process process' outputs,
      run (nextProcess Reference.crypto) (vpnRun (onePathServer 1200 1299)) (startAll 102) =
        some process ∧
      Reachable (peer Reference.crypto (onePathServer 1200 1299)) process ∧
      step Reference.crypto process (.heartbeat readings fun _ => Reference.zeroDraws) =
        some (.ok (process', outputs)) ∧
      0 < process.ctx.pathCount ∧
      (process.ctx.paths 0).portRange = 99 := by
  have hstarted : ((run (nextProcess Reference.crypto) (vpnRun (onePathServer 1200 1299))
      (startAll 102)).any fun process => process.heartbeat.isSome) = true := by
    decide +kernel
  obtain ⟨process, hrun, hheartbeat⟩ := (Option.any_eq_true _ _).mp hstarted
  have hreach : Reachable (peer Reference.crypto (onePathServer 1200 1299)) process :=
    Reachable.run (fun _ _ _ => nextProcess_eq_some.mp) (.initial rfl) hrun
  have hconf := sameConf_of_reachable hreach
  obtain ⟨pbuf, hpbuf⟩ := Option.isSome_iff_exists.mp hheartbeat
  obtain ⟨process', outputs, hstep⟩ : ∃ process' outputs, step Reference.crypto process
      (.heartbeat readings fun _ => Reference.zeroDraws) =
        some (.ok (process', outputs)) := by
    simp only [step, hpbuf]
    exact ⟨_, _, rfl⟩
  refine ⟨process, process', outputs, hrun, hreach, hstep, ?_, ?_⟩
  · rw [hconf.pathCount]
    exact Nat.one_pos
  · rw [hconf.portRange]
    rfl

/-- The clock value of the heartbeats below. -/
def beatClock : Timeval := Timeval.ofMilliseconds 1500000000000

/-- No time step around it has the token 0 or 2 of a hundred ports. -/
theorem not_inWindow_beatClock :
    ¬ InWindow Reference.crypto 99 beatClock 0 ∧ ¬ InWindow Reference.crypto 99 beatClock 2 := by
  have hsteps : ∀ i : Nat, i < 39 → totp Reference.crypto 99 beatClock ((i : Int) - 19) ≠ 0 ∧
      totp Reference.crypto 99 beatClock ((i : Int) - 19) ≠ 2 := by decide +kernel
  have hwindow : ∀ token, (∀ i : Nat, i < 39 →
      totp Reference.crypto 99 beatClock ((i : Int) - 19) ≠ token) →
        ¬ InWindow Reference.crypto 99 beatClock token := by
    rintro token hne ⟨k, hlow, hhigh, hk⟩
    simp only [pool] at hlow hhigh
    have hslot := hne (k + 19).toNat (by omega)
    rw [show (((k + 19).toNat : Nat) : Int) - 19 = k by omega] at hslot
    exact hslot hk.symm
  exact ⟨hwindow 0 fun i hi => (hsteps i hi).1, hwindow 2 fun i hi => (hsteps i hi).2⟩

/-- With a hundred ports, the scan decides as the window does about the token 10 of the
current step and about 2, which no step around it has. -/
theorem heartbeat_tokenAccepted_hundredPorts :
    ∃ process process' outputs,
      step Reference.crypto process
          (.heartbeat (fun _ _ => beatClock) fun _ => Reference.zeroDraws) =
        some (.ok (process', outputs)) ∧
      (tokenAccepted (process'.ctx.paths 0).validTokens 10 = true ↔
        InWindow Reference.crypto (process.ctx.paths 0).portRange beatClock 10) ∧
      InWindow Reference.crypto (process.ctx.paths 0).portRange beatClock 10 ∧
      (tokenAccepted (process'.ctx.paths 0).validTokens 2 = true ↔
        InWindow Reference.crypto (process.ctx.paths 0).portRange beatClock 2) ∧
      ¬ InWindow Reference.crypto (process.ctx.paths 0).portRange beatClock 2 := by
  obtain ⟨process, process', outputs, -, hreach, hstep, hpath, hrange⟩ :=
    exists_started fun _ _ => beatClock
  have hnonzero : ∀ token : Int, token ≠ 0 →
      (tokenAccepted (process'.ctx.paths 0).validTokens token = true ↔
        InWindow Reference.crypto (process.ctx.paths 0).portRange beatClock token) := by
    intro token hne
    exact (heartbeat_tokenAccepted_iff Reference.crypto (onePathServer 1200 1299) process
      process' hreach (fun _ _ => beatClock) (fun _ => Reference.zeroDraws) outputs hstep 0
      hpath beatClock (fun _ => rfl) token).mpr (Or.inl hne)
  refine ⟨process, process', outputs, hstep, hnonzero 10 (by decide), ?current,
    hnonzero 2 (by decide), ?outside⟩
  case current =>
    rw [hrange]
    exact ⟨0, by decide, by decide, by decide +kernel⟩
  case outside =>
    rw [hrange]
    exact not_inWindow_beatClock.2

/-- With a hundred ports and a clock around which no time step has the token 0,
the scan accepts 0 all the same. -/
theorem exists_tokenAccepted_outside_window :
    ¬ ∀ (crypto : Crypto) (conf : Conf) (process process' : Process),
        conf.mode = .server → Reachable (peer crypto conf) process →
        ∀ (readings : Nat → Nat → Timeval) (draws : Nat → Draws) (outputs : List Output),
        step crypto process (.heartbeat readings draws) = some (.ok (process', outputs)) →
        ∀ path, path < process.ctx.pathCount →
        ∀ tv : Timeval, (∀ call, readings path call = tv) →
        ∀ token, tokenAccepted (process'.ctx.paths path).validTokens token = true ↔
          InWindow crypto (process.ctx.paths path).portRange tv token := by
  intro hall
  obtain ⟨process, process', outputs, -, hreach, hstep, hpath, hrange⟩ :=
    exists_started fun _ _ => beatClock
  have hclaim := hall Reference.crypto (onePathServer 1200 1299) process process' rfl hreach
    _ _ outputs hstep 0 hpath _ (fun _ => rfl) 0
  have haccepted := (tokenAccepted_heartbeat hreach hstep hpath (fun _ => rfl) 0).mpr
    (Or.inl rfl)
  rw [hrange] at hclaim
  exact not_inWindow_beatClock.1 (hclaim.mp haccepted)

end Vpn
end Muon
