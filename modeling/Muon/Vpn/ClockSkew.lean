import Muon.Vpn.TokenWindow

/-!
# Tolerated clock skew

The runs of a server with its clock.  An event happens at a clock value that does
not lie before the last one; a round of `heartbeat` reads the clock once for each
path; and the clock never gets further than a given gap past the last refresh of
a path.

Between two refreshes the pool stands still, so at any time it holds the tokens
of the 39 steps around a reading at most the gap old.
-/

namespace Muon
namespace Vpn

open Foundation Packet Totp

/-- A server, the clock value of its last event, and for each path the clock
value of the last refresh. -/
structure TimedServer where
  process : Process
  clock : Nat
  refreshed : Nat → Option Nat

/-- An event and the clock value at which it happens. -/
structure TimedEvent where
  time : Nat
  event : Event

/-- The clock may show `time` next: it does not run backwards, and no path has
gone longer than the gap without a refresh. -/
structure Timely (gap : Nat) (state : TimedServer) (time : Nat) : Prop where
  mono : state.clock ≤ time
  fresh : ∀ path last, state.refreshed path = some last → time ≤ last + gap

/-- The readings of a round of `heartbeat`: one clock value for each path, taken
by the time the round is over. -/
structure SingleReading (clock time : Nat) (readings : Nat → Nat → Timeval)
    (reading : Nat → Timeval) : Prop where
  single : ∀ path call, readings path call = reading path
  after : ∀ path, clock ≤ milliseconds 64 (reading path)
  before : ∀ path, milliseconds 64 (reading path) ≤ time

/-- The refresh times after an event. -/
def Refreshes (state : TimedServer) (time : Nat) (refreshed : Nat → Option Nat) :
    Event → Prop
  | .heartbeat readings _ => ∃ reading, SingleReading state.clock time readings reading ∧
      refreshed = fun path =>
        if path < state.process.ctx.pathCount then some (milliseconds 64 (reading path))
        else state.refreshed path
  | _ => refreshed = state.refreshed

/-- The timed runs of a server, from any clock value on. -/
def timedServer (crypto : Crypto) (conf : Conf) (gap : Nat) :
    TransitionSystem TimedServer TimedEvent where
  initial := fun state => state.process = vpnRun conf ∧ state.refreshed = fun _ => none
  step := fun state timed state' =>
    Timely gap state timed.time ∧
      (peer crypto conf).step state.process timed.event state'.process ∧
      state'.clock = timed.time ∧
      Refreshes state timed.time state'.refreshed timed.event

/-- The pool holds the tokens of the window around a clock value. -/
def HoldsWindow (crypto : Crypto) (range : Int) (validTokens : Nat → Int) (last : Nat) :
    Prop :=
  ∃ tv, milliseconds 64 tv = last ∧
    ∀ token, InWindow crypto range tv token → tokenAccepted validTokens token = true

/-- Every pool holds the window of its last refresh, which the clock has reached. -/
def PoolsFresh (crypto : Crypto) (state : TimedServer) : Prop :=
  ∀ path last, state.refreshed path = some last → last ≤ state.clock ∧
    HoldsWindow crypto (state.process.ctx.paths path).portRange
      (state.process.ctx.paths path).validTokens last

variable {crypto : Crypto} {conf : Conf} {gap : Nat}

/-- A refresh at one clock value fills the pool with its window. -/
theorem holdsWindow_refreshTokens (range : Int) {readings : Nat → Timeval} {tv : Timeval}
    (hreadings : ∀ call, readings call = tv) (validTokens : Nat → Int) :
    HoldsWindow crypto range (refreshTokens crypto range readings validTokens)
      (milliseconds 64 tv) :=
  ⟨tv, rfl, fun token hwindow =>
    (tokenAccepted_refreshTokens crypto range hreadings validTokens token).mpr
      (Or.inr hwindow)⟩

/-- An event that is not a heartbeat keeps the pools and the refresh times. -/
theorem poolsFresh_of_sameTokens {state state' : TimedServer}
    (hfresh : PoolsFresh crypto state) (hclock : state.clock ≤ state'.clock)
    (hsame : SameTokens state.process.ctx state'.process.ctx)
    (hrefreshed : state'.refreshed = state.refreshed) : PoolsFresh crypto state' := by
  intro path last hlast
  rw [hrefreshed] at hlast
  obtain ⟨hhigh, hwindow⟩ := hfresh path last hlast
  rw [hsame.portRange, hsame.validTokens]
  exact ⟨Nat.le_trans hhigh hclock, hwindow⟩

/-- A heartbeat refreshes the pool of every path, each with its reading. -/
theorem poolsFresh_heartbeat {state state' : TimedServer} {time : Nat}
    {readings : Nat → Nat → Timeval} {draws : Nat → Draws} {outputs : List Output}
    (hfresh : PoolsFresh crypto state) (htime : state.clock ≤ time)
    (hclock : state'.clock = time)
    (hstep : step crypto state.process (.heartbeat readings draws) =
      some (.ok (state'.process, outputs)))
    (hrefreshes : Refreshes state time state'.refreshed (.heartbeat readings draws)) :
    PoolsFresh crypto state' := by
  obtain ⟨reading, hsingle, hrefreshed⟩ := hrefreshes
  obtain ⟨hconf, htokens⟩ := step_heartbeat_validTokens hstep
  intro path last hlast
  rw [hrefreshed] at hlast
  rw [hconf.portRange, htokens]
  by_cases hpath : path < state.process.ctx.pathCount
  · simp only [if_pos hpath, Option.some.injEq] at hlast ⊢
    have hbefore := hsingle.before path
    subst hlast
    exact ⟨by omega, holdsWindow_refreshTokens _ (hsingle.single path) _⟩
  · simp only [if_neg hpath] at hlast ⊢
    obtain ⟨hhigh, hwindow⟩ := hfresh path last hlast
    exact ⟨by omega, hwindow⟩

/-- Every run keeps the pools fresh. -/
theorem poolsFresh_of_reachable {state : TimedServer}
    (hreach : Reachable (timedServer crypto conf gap) state) : PoolsFresh crypto state := by
  refine hreach.invariant (PoolsFresh crypto) ?_ ?_
  · rintro state ⟨-, hnone⟩ path last hlast
    rw [hnone] at hlast
    cases hlast
  · rintro state ⟨time, event⟩ state' - hfresh ⟨htimely, ⟨outputs, hstep⟩, hclock, hrefreshes⟩
    have htime : state.clock ≤ state'.clock := hclock ▸ htimely.mono
    cases event with
    | heartbeat readings draws =>
        exact poolsFresh_heartbeat hfresh htimely.mono hclock hstep hrefreshes
    | start | hop | hopWake | resolved | received | receiveError | timeout | tunRead
    | tunReadError =>
        exact poolsFresh_of_sameTokens hfresh htime
          (step_sameTokens hstep fun _ _ heq => by cases heq) hrefreshes

/-- A clock value at most 9500 ms from a reading lies in a step of its window. -/
theorem inWindow_of_close (range : Int) {client server : Timeval}
    (hbehind : milliseconds 64 server ≤ milliseconds 64 client + 9500)
    (hahead : milliseconds 64 client ≤ milliseconds 64 server + 9500) :
    InWindow crypto range server (totp crypto range client 0) := by
  have hsteps : (stepOf client : Int) - stepOf server ≤ 19 ∧
      -19 ≤ (stepOf client : Int) - stepOf server := by
    simp only [stepOf, totpStep] at *
    omega
  refine ⟨(stepOf client : Int) - stepOf server, ?_, ?_, totp_congr crypto range ?_⟩
  · simp only [pool]
    omega
  · simp only [pool]
    omega
  · have hleft : (timeStep 64 client 0 : Int) = stepOf client + 0 := by
      refine timeStep_eq ?_ (by omega)
      show (0 : Int) ≤ stepOf client + 0
      omega
    have hright : (timeStep 64 server ((stepOf client : Int) - stepOf server) : Int) =
        stepOf server + ((stepOf client : Int) - stepOf server) := by
      refine timeStep_eq ?_ (by omega)
      show (0 : Int) ≤ stepOf server + ((stepOf client : Int) - stepOf server)
      omega
    omega

/-- **Clock skew.**  In every timed run and for every path refreshed at least once,
the scan accepts the token that the client computed at a clock value up to 9500 ms
behind and up to 9500 ms less the gap ahead of the clock value of the server when
the worker of that token takes a datagram. -/
theorem tokenAccepted_of_skew (crypto : Crypto) (conf : Conf) (gap : Nat)
    (state : TimedServer) (hreach : Reachable (timedServer crypto conf gap) state)
    (path : Nat) (hrefreshed : state.refreshed path ≠ none)
    (client : Timeval) (time : Nat) (htimely : Timely gap state time)
    (hbehind : (time : Int) - 9500 ≤ milliseconds 64 client)
    (hahead : (milliseconds 64 client : Int) ≤ time + 9500 - gap) :
    tokenAccepted (state.process.ctx.paths path).validTokens
      (totp crypto (state.process.ctx.paths path).portRange client 0) = true := by
  obtain ⟨last, hlast⟩ := Option.ne_none_iff_exists'.mp hrefreshed
  obtain ⟨hhigh, tv, htv, haccepts⟩ := poolsFresh_of_reachable hreach path last hlast
  have hgap := htimely.fresh path last hlast
  have hmono := htimely.mono
  exact haccepts _ (inWindow_of_close _ (by omega) (by omega))

/-! ## A server that has refreshed once -/

/-- The `go` calls of `vpn_run` at one clock value. -/
theorem timed_startAll {clock count : Nat} {process final : Process}
    (hreach : Reachable (timedServer crypto conf gap) ⟨process, clock, fun _ => none⟩)
    (hrun : run (nextProcess crypto) process (startAll count) = some final) :
    Reachable (timedServer crypto conf gap) ⟨final, clock, fun _ => none⟩ := by
  induction count generalizing process with
  | zero =>
      cases hrun
      exact hreach
  | succ count ih =>
      simp only [startAll, List.replicate_succ, run] at hrun
      split at hrun
      · cases hrun
      · next next hnext =>
          obtain ⟨outputs, hstep⟩ := nextProcess_eq_some.mp hnext
          have htimely : Timely gap ⟨process, clock, fun _ => none⟩ clock :=
            ⟨Nat.le_refl _, fun _ _ hnone => by cases hnone⟩
          have hnext : (timedServer crypto conf gap).step ⟨process, clock, fun _ => none⟩
              ⟨clock, .start (Reference.bufferOf []) 0 none⟩
              ⟨next, clock, fun _ => none⟩ := ⟨htimely, ⟨outputs, hstep⟩, rfl, rfl⟩
          exact ih (.step hreach hnext) hrun

/-- A token of 10.4 s is accepted at 10.3 s after a refresh at 10 s. -/
theorem tokenAccepted_of_skew_once :
    ∃ state, Reachable (timedServer Reference.crypto (onePathServer 1200 1299) 665) state ∧
      tokenAccepted (state.process.ctx.paths 0).validTokens
        (totp Reference.crypto (state.process.ctx.paths 0).portRange
          (Timeval.ofMilliseconds 10400) 0) = true := by
  obtain ⟨process, process', outputs, hrun, -, hstep, hpath, -⟩ :=
    exists_started fun _ _ => Timeval.ofMilliseconds 10000
  have hstarted : Reachable (timedServer Reference.crypto (onePathServer 1200 1299) 665)
      ⟨process, 10000, fun _ => none⟩ :=
    timed_startAll (.initial ⟨rfl, rfl⟩) hrun
  have hreading : milliseconds 64 (Timeval.ofMilliseconds 10000) = 10000 := by decide
  have hclient : milliseconds 64 (Timeval.ofMilliseconds 10400) = 10400 := by decide
  let state : TimedServer := ⟨process', 10000, fun path =>
    if path < process.ctx.pathCount then some 10000 else none⟩
  have hrefreshes : Refreshes ⟨process, 10000, fun _ => none⟩ 10000 state.refreshed
      (.heartbeat (fun _ _ => Timeval.ofMilliseconds 10000) fun _ => Reference.zeroDraws) :=
    ⟨fun _ => Timeval.ofMilliseconds 10000,
      ⟨fun _ _ => rfl, fun _ => Nat.le_of_eq hreading.symm,
        fun _ => Nat.le_of_eq hreading⟩, by simp only [state, hreading]⟩
  have hreach : Reachable (timedServer Reference.crypto (onePathServer 1200 1299) 665)
      state := by
    have hnext : (timedServer Reference.crypto (onePathServer 1200 1299) 665).step
        ⟨process, 10000, fun _ => none⟩ ⟨10000, .heartbeat
          (fun _ _ => Timeval.ofMilliseconds 10000) fun _ => Reference.zeroDraws⟩ state :=
      ⟨⟨Nat.le_refl _, fun _ _ hnone => by cases hnone⟩, ⟨outputs, hstep⟩, rfl, hrefreshes⟩
    exact .step hstarted hnext
  have htimely : Timely 665 state 10300 := by
    refine ⟨Nat.le_add_right 10000 300, fun path last hlast => ?_⟩
    simp only [state] at hlast
    split at hlast
    · cases hlast
      decide
    · cases hlast
  refine ⟨state, hreach, tokenAccepted_of_skew Reference.crypto (onePathServer 1200 1299) 665
    state hreach 0 ?_ (Timeval.ofMilliseconds 10400) 10300 htimely ?_ ?_⟩
  · simp only [state, if_pos hpath]
    exact Option.some_ne_none _
  · rw [hclient]
    decide
  · rw [hclient]
    decide

end Vpn
end Muon
