import Muon.Reference.Libraries
import Muon.Vpn.Agreement

/-!
# Signals in `main`

`main` installs `signal_cb` and calls `vpn_init` and `vpn_run`.  The handler can run
between any two of their steps.  To stop the process it clears `ctx.running`, which
the wait loop of `vpn_run` tests; but `vpn_run` sets `ctx.running` itself, after its
last `go` call, and with that it takes back a request that came during the start.

A state is where `main` has got to, with `ctx.running` and, once `vpn_init` has
filled it, the rest of `ctx` and the coroutines, which are those of the peer.  The
calls that only have effects outside the process are steps whose answer decides
how `main` goes on.
-/

namespace Muon
namespace Main

open Foundation Packet Vpn

/-- The signals that `signal_cb` is installed for. -/
inductive Signal where
  | sigusr1
  | sigint
  | sigterm
  | sighup
  deriving DecidableEq, Repr

/-- The next statement of `vpn_init` or `vpn_run`. -/
inductive Point where
  /-- `memset(&ctx, 0, sizeof(ctx))`. -/
  | clearCtx
  /-- The fields of `ctx` that come from the configuration. -/
  | fillCtx
  | cryptoInit
  | tunNew
  | ifconfig
  | route (path : Nat)
  | nat
  /-- Root privilege is dropped; `vpn_init` returns. -/
  | runas
  /-- The `go` calls for the coroutines of the peer. -/
  | goCalls
  | goSnmpLogger
  /-- `ctx.running = 1`. -/
  | setRunning
  /-- `while (ctx.running)`. -/
  | testRunning
  /-- `msleep` in the wait loop. -/
  | sleep
  | natOff
  | tunClose
  /-- `main` has returned. -/
  | exited (status : Int)
  /-- An assertion has failed in a coroutine. -/
  | aborted
  deriving DecidableEq, Repr

/-- The process. -/
structure State where
  point : Point
  /-- `ctx.running`. -/
  running : Int
  /-- The rest of `ctx` and the coroutines, once `ctx` is filled. -/
  process : Option Process

/-- What happens in the process. -/
inductive Action where
  /-- A signal is delivered. -/
  | deliver (signo : Signal)
  /-- The next statement is executed; `answer` is what a call in it returns. -/
  | proceed (answer : Int)
  /-- A coroutine runs, or the next one is started. -/
  | coroutine (event : Event)

/-- `EXIT_SUCCESS`. -/
def exitSuccess : Int := 0

/-- `EXIT_FAILURE`. -/
def exitFailure : Int := 1

/-! ## signal_cb -/

/-- `vpn_stop()`. -/
def vpnStop (state : State) : State := { state with running := 0 }

/-- `vpn_snmp()` only prints. -/
def vpnSnmp (state : State) : State := state

/-- `signal_cb(signo)`. -/
def signalCb (signo : Signal) (state : State) : State :=
  if signo = .sigusr1 then vpnSnmp state else vpnStop state

/-! ## vpn_init and vpn_run -/

/-- The next statement. -/
def proceed (conf : Conf) (state : State) (answer : Int) : Option State :=
  match state.point with
  | .clearCtx => some { point := .fillCtx, running := 0, process := none }
  | .fillCtx => some { state with point := .cryptoInit, process := some (vpnRun conf) }
  | .cryptoInit =>
      some { state with point := if answer ≠ 0 then .exited exitFailure else .tunNew }
  | .tunNew =>
      some { state with point := if answer < 0 then .exited exitFailure else .ifconfig }
  -- from here on a failure is only logged
  | .ifconfig => some { state with point := .route 0 }
  | .route path =>
      if conf.mode = .client ∧ conf.route = true ∧ path < conf.paths.length then
        some { state with point := .route (path + 1) }
      else
        some { state with point := .nat }
  | .nat => some { state with point := .runas }
  | .runas => some { state with point := .goCalls }
  | .goCalls =>
      match state.process with
      | none => none
      | some process =>
          if process.starts.isEmpty then some { state with point := .goSnmpLogger } else none
  | .goSnmpLogger => some { state with point := .setRunning }
  | .setRunning => some { state with point := .testRunning, running := 1 }
  | .testRunning =>
      some { state with point := if state.running ≠ 0 then .sleep else .natOff }
  | .sleep => some { state with point := .testRunning }
  | .natOff => some { state with point := .tunClose }
  -- `main` ignores what `vpn_run` returns
  | .tunClose => some { state with point := .exited exitSuccess }
  | .exited _ | .aborted => none

/-- Whether other coroutines can run before the statement: `main` has just called
`go`, or it sleeps. -/
def switches : Point → Bool
  | .goCalls | .goSnmpLogger | .setRunning | .sleep => true
  | _ => false

/-- A coroutine runs to its next switching point. -/
def runCoroutine (crypto : Crypto) (state : State) (event : Event) : Option State :=
  match state.process with
  | none => none
  | some process =>
      if switches state.point then
        match step crypto process event with
        | none => none
        | some (.error _) => some { state with point := .aborted }
        | some (.ok (process', _)) => some { state with process := some process' }
      else
        none

/-- Whether the process still exists. -/
def alive : Point → Bool
  | .exited _ | .aborted => false
  | _ => true

/-- One step of the process. -/
def next (crypto : Crypto) (conf : Conf) (state : State) : Action → Option State
  | .deliver signo => if alive state.point then some (signalCb signo state) else none
  | .proceed answer => proceed conf state answer
  | .coroutine event => runCoroutine crypto state event

/-- The runs of `main` from where the handler is installed. -/
def program (crypto : Crypto) (conf : Conf) : TransitionSystem State Action where
  initial := fun state => state = { point := .clearCtx, running := 0, process := none }
  step := fun state action state' => next crypto conf state action = some state'

variable {crypto : Crypto} {conf : Conf} {state state' : State} {action : Action}

/-- A run goes on with the next step. -/
theorem history_next {steps : List (Step State Action)}
    (hrun : History (program crypto conf) steps state)
    (hstep : next crypto conf state action = some state') :
    History (program crypto conf) (⟨state, action, state'⟩ :: steps) state' :=
  .step hrun hstep

/-- A step of a coroutine leaves everything but the peer alone. -/
theorem runCoroutine_cases {event : Event}
    (hstep : runCoroutine crypto state event = some state') :
    ∃ process, state.process = some process ∧
      (state' = { state with point := .aborted } ∨
        ∃ process' outputs, step crypto process event = some (.ok (process', outputs)) ∧
          state' = { state with process := some process' }) := by
  simp only [runCoroutine] at hstep
  split at hstep
  · cases hstep
  · next process hprocess =>
      refine ⟨process, hprocess, ?_⟩
      split at hstep
      · split at hstep
        · cases hstep
        · cases hstep
          exact Or.inl rfl
        · next process' outputs hnext =>
            cases hstep
            exact Or.inr ⟨process', outputs, hnext, rfl⟩
      · cases hstep

/-- What a step assigns to `ctx.running`, if it does. -/
def assigned (state : State) : Action → Option Int
  | .deliver signo => if signo = .sigusr1 then none else some 0
  | .proceed _ =>
      match state.point with
      | .clearCtx => some 0
      | .setRunning => some 1
      | _ => none
  | .coroutine _ => none

/-- A statement of `main` leaves the coroutines alone, and `ctx.running` too unless it
assigns to it; only `vpn_init` makes a new peer. -/
theorem proceed_cases {answer : Int} (hstep : proceed conf state answer = some state') :
    (state'.process = state.process ∨ state'.process = none ∨
        state'.process = some (vpnRun conf)) ∧
      state'.running = (assigned state (.proceed answer)).getD state.running := by
  obtain ⟨point, running, process⟩ := state
  cases point with
  | clearCtx =>
      cases hstep
      exact ⟨Or.inr (Or.inl rfl), rfl⟩
  | fillCtx =>
      cases hstep
      exact ⟨Or.inr (Or.inr rfl), rfl⟩
  | goCalls =>
      simp only [proceed] at hstep
      split at hstep
      · cases hstep
      · split at hstep
        · cases hstep
          exact ⟨Or.inl rfl, rfl⟩
        · cases hstep
  | route path =>
      simp only [proceed] at hstep
      split at hstep <;> cases hstep <;> exact ⟨Or.inl rfl, rfl⟩
  | exited | aborted => cases hstep
  | cryptoInit | tunNew | ifconfig | nat | runas | goSnmpLogger | setRunning | testRunning
  | sleep | natOff | tunClose =>
      cases hstep
      exact ⟨Or.inl rfl, rfl⟩

/-- A signal handler leaves the coroutines alone. -/
theorem deliver_cases {signo : Signal}
    (hstep : next crypto conf state (.deliver signo) = some state') :
    state'.process = state.process ∧ state'.point = state.point ∧
      state'.running = (assigned state (.deliver signo)).getD state.running := by
  simp only [next, signalCb, vpnSnmp, vpnStop] at hstep
  simp only [assigned]
  split at hstep
  · split at hstep
    · next hsnmp =>
        cases hstep
        rw [if_pos hsnmp, Option.getD_none]
        exact ⟨rfl, rfl, rfl⟩
    · next hstop =>
        cases hstep
        rw [if_neg hstop, Option.getD_some]
        exact ⟨rfl, rfl, rfl⟩
  · cases hstep

/-- **The coroutines of `main` are those of a peer.** -/
theorem process_reachable (hreach : Reachable (program crypto conf) state) {process : Process}
    (hprocess : state.process = some process) : Reachable (peer crypto conf) process := by
  have hinv : ∀ process, state.process = some process →
      Reachable (peer crypto conf) process := by
    refine hreach.invariant (fun state => ∀ process, state.process = some process →
      Reachable (peer crypto conf) process) ?_ ?_
    · rintro state rfl process ⟨⟩
    · rintro state action state' - hbefore hstep process hprocess
      cases action with
      | deliver signo =>
          rw [(deliver_cases hstep).1] at hprocess
          exact hbefore process hprocess
      | proceed answer =>
          rcases (proceed_cases hstep).1 with hsame | hnone | hnew
          · rw [hsame] at hprocess
            exact hbefore process hprocess
          · rw [hnone] at hprocess
            cases hprocess
          · rw [hnew] at hprocess
            cases hprocess
            exact .initial rfl
      | coroutine event =>
          obtain ⟨current, hcurrent, rfl | ⟨process', outputs, hnext, rfl⟩⟩ :=
            runCoroutine_cases hstep
          · exact hbefore process hprocess
          · cases hprocess
            exact .step (hbefore current hcurrent) ⟨outputs, hnext⟩
  exact hinv process hprocess

/-- The value of `ctx.running` after a step. -/
theorem next_running (hstep : next crypto conf state action = some state') :
    state'.running = (assigned state action).getD state.running := by
  cases action with
  | deliver signo => exact (deliver_cases hstep).2.2
  | proceed answer => exact (proceed_cases hstep).2
  | coroutine event =>
      obtain ⟨process, -, rfl | ⟨process', outputs, -, rfl⟩⟩ := runCoroutine_cases hstep
      · rfl
      · rfl

/-! ## Stop requests -/

/-- A signal on which `signal_cb` calls `vpn_stop`. -/
def stops : Action → Bool
  | .deliver signo => signo != .sigusr1
  | _ => false

/-- The statement `ctx.running = 1` of `vpn_run`. -/
def setsRunning (state : State) : Action → Bool
  | .proceed _ => state.point == .setRunning
  | _ => false

/-- The test of the wait loop. -/
def testsRunning (state : State) : Action → Bool
  | .proceed _ => state.point == .testRunning
  | _ => false

/-- After a stop request `ctx.running` stays zero, and a test of the wait loop leaves
it. -/
def KeepsStop (later earlier : Step State Action) : Prop :=
  stops earlier.event = true → later.after.running = 0 ∧
    (testsRunning later.before later.event = true → later.after.point = .natOff)

/-- No stop request of a run is lost. -/
structure StopNeverLost (steps : List (Step State Action)) : Prop where
  executed : ∀ step ∈ steps, stops step.event = true → step.after.running = 0
  kept : steps.Pairwise KeepsStop

/-- No stop request comes before the statement `ctx.running = 1`. -/
def NoEarlyStop (steps : List (Step State Action)) : Prop :=
  steps.Pairwise fun later earlier =>
    stops earlier.event = true → setsRunning later.before later.event = false

theorem running_of_stops (hstep : next crypto conf state action = some state')
    (hstops : stops action = true) : state'.running = 0 := by
  rw [next_running hstep]
  cases action with
  | deliver signo =>
      have hother : signo ≠ .sigusr1 := bne_iff_ne.mp hstops
      simp only [assigned, if_neg hother, Option.getD_some]
  | proceed answer => cases hstops
  | coroutine event => cases hstops

theorem running_of_setsRunning (hstep : next crypto conf state action = some state')
    (hsets : setsRunning state action = true) : state'.running = 1 := by
  rw [next_running hstep]
  cases action with
  | deliver signo => cases hsets
  | proceed answer =>
      have hpoint : state.point = .setRunning := beq_iff_eq.mp hsets
      simp only [assigned, hpoint, Option.getD_some]
  | coroutine event => cases hsets

/-- Every other step keeps `ctx.running` zero. -/
theorem running_of_not_setsRunning (hstep : next crypto conf state action = some state')
    (hsets : setsRunning state action = false) (hzero : state.running = 0) :
    state'.running = 0 := by
  rw [next_running hstep]
  cases action with
  | deliver signo =>
      simp only [assigned]
      split
      · exact hzero
      · rfl
  | proceed answer =>
      have hpoint : state.point ≠ .setRunning := beq_eq_false_iff_ne.mp hsets
      simp only [assigned]
      split
      · rfl
      · next hset => exact absurd hset hpoint
      · exact hzero
  | coroutine event => exact hzero

/-- The wait loop is left when `ctx.running` is zero. -/
theorem point_of_testsRunning (hstep : next crypto conf state action = some state')
    (htests : testsRunning state action = true) (hzero : state.running = 0) :
    state'.point = .natOff := by
  cases action with
  | deliver signo => cases htests
  | proceed answer =>
      have hpoint : state.point = .testRunning := beq_iff_eq.mp htests
      simp only [next, proceed, hpoint, hzero] at hstep
      cases hstep
      rfl
  | coroutine event => cases htests

/-- Without an early stop, `ctx.running` is zero from a stop request on. -/
theorem running_of_noEarlyStop {steps : List (Step State Action)}
    (hrun : History (program crypto conf) steps state) (hearly : NoEarlyStop steps) :
    ∀ step ∈ steps, stops step.event = true → state.running = 0 := by
  induction hrun with
  | initial hinitial =>
      intro step hmem
      cases hmem
  | @step steps state state' action hbefore hstep ih =>
      obtain ⟨hhead, htail⟩ := List.pairwise_cons.mp hearly
      intro step hmem hstops
      rcases List.mem_cons.mp hmem with rfl | hearlier
      · exact running_of_stops hstep hstops
      · exact running_of_not_setsRunning hstep (hhead step hearlier hstops)
          (ih htail step hearlier hstops)

/-- **When a stop request is kept.**  In every run of `main` no stop request is lost
exactly when none comes before `vpn_run` executes `ctx.running = 1`. -/
theorem stopNeverLost_iff (crypto : Crypto) (conf : Conf) (steps : List (Step State Action))
    (state : State) (hrun : History (program crypto conf) steps state) :
    StopNeverLost steps ↔ NoEarlyStop steps := by
  constructor
  · rintro ⟨-, hkept⟩
    have hset : ∀ step ∈ steps, setsRunning step.before step.event = true →
        step.after.running = 1 := by
      refine (hrun.forall_steps_iff (fun step => setsRunning step.before step.event = true →
        step.after.running = 1) (fun _ _ => True) ?_).mpr fun _ _ => trivial
      intro state action state' hreach hstep
      exact iff_of_true (running_of_setsRunning hstep) trivial
    refine hkept.imp_of_mem fun {later earlier} hlater _ hkeeps hstops => ?_
    rw [Bool.eq_false_iff]
    intro hsets
    have hone := hset later hlater hsets
    rw [(hkeeps hstops).1] at hone
    cases hone
  · intro hearly
    induction hrun with
    | initial hinitial =>
        refine ⟨?_, List.Pairwise.nil⟩
        intro step hmem
        cases hmem
    | @step steps state state' action hbefore hstep ih =>
        obtain ⟨hhead, htail⟩ := List.pairwise_cons.mp hearly
        have hzero := running_of_noEarlyStop hbefore htail
        obtain ⟨hexecuted, hkept⟩ := ih htail
        constructor
        · exact List.forall_mem_cons.mpr ⟨running_of_stops hstep, hexecuted⟩
        · refine List.pairwise_cons.mpr ⟨fun earlier hmem hstops => ⟨?_, fun htests => ?_⟩, hkept⟩
          · exact running_of_not_setsRunning hstep (hhead earlier hmem hstops)
              (hzero earlier hmem hstops)
          · exact point_of_testsRunning hstep htests (hzero earlier hmem hstops)

/-! ## A client -/

/-- A client starts, up to the statement `ctx.running = 1`, and something happens
once `ctx` is cleared. -/
def startMain (during : List Action) : List Action :=
  .proceed 0 :: during ++
    [.proceed 0, .proceed 0, .proceed 3, .proceed 0, .proceed 0, .proceed 0, .proceed 0,
      .coroutine (.start (Reference.bufferOf []) 0 none),
      .coroutine (.start (Reference.bufferOf []) 0 none),
      .coroutine (.start (Reference.bufferOf []) 0 none), .proceed 0, .proceed 0]

/-- The state `main` starts in. -/
def initialState : State := { point := .clearCtx, running := 0, process := none }

/-- The history of a start. -/
theorem exists_history_startMain (during : List Action)
    (hruns : ((run (next Reference.crypto (onePathConf .client)) initialState
      (startMain during)).any fun state => state.point == .setRunning) = true) :
    ∃ (steps : List (Step State Action)) (running : Int) (process : Option Process),
      History (program Reference.crypto (onePathConf .client)) steps
          { point := .setRunning, running := running, process := process } ∧
        steps.map Step.event = (startMain during).reverse := by
  obtain ⟨state, hrun, hpoint⟩ := (Option.any_eq_true _ _).mp hruns
  have hinitial : (program Reference.crypto (onePathConf .client)).initial initialState := rfl
  obtain ⟨steps, hhistory, hevents⟩ :=
    exists_history_of_run (fun _ _ _ hnext => hnext) hinitial hrun
  obtain ⟨point, running, process⟩ := state
  cases beq_iff_eq.mp hpoint
  exact ⟨steps, running, process, hhistory, hevents⟩

/-- `SIGINT` in the wait loop ends it. -/
theorem stopNeverLost_waiting :
    ∃ steps : List (Step State Action),
      steps.map Step.event = .proceed 0 :: .proceed 0 :: .deliver .sigint :: .proceed 0 ::
          .proceed 0 :: (startMain []).reverse ∧
        StopNeverLost steps := by
  obtain ⟨steps, running, process, hhistory, hevents⟩ :=
    exists_history_startMain [] (by decide +kernel)
  have hquiet : ∀ step ∈ steps, stops step.event = false := by
    intro step hmem
    have hevent : step.event ∈ startMain [] := by
      rw [← List.mem_reverse, ← hevents]
      exact List.mem_map_of_mem hmem
    have hall : ((startMain []).all fun action => !stops action) = true := rfl
    have hnot := List.all_eq_true.mp hall _ hevent
    rwa [Bool.not_eq_true'] at hnot
  refine ⟨⟨⟨.testRunning, 0, process⟩, .proceed 0, ⟨.natOff, 0, process⟩⟩ ::
    ⟨⟨.sleep, 0, process⟩, .proceed 0, ⟨.testRunning, 0, process⟩⟩ ::
    ⟨⟨.sleep, 1, process⟩, .deliver .sigint, ⟨.sleep, 0, process⟩⟩ ::
    ⟨⟨.testRunning, 1, process⟩, .proceed 0, ⟨.sleep, 1, process⟩⟩ ::
    ⟨⟨.setRunning, running, process⟩, .proceed 0, ⟨.testRunning, 1, process⟩⟩ :: steps,
    ?_, ?_⟩
  · rw [← hevents]
    rfl
  refine (stopNeverLost_iff Reference.crypto (onePathConf .client) _ ⟨.natOff, 0, process⟩
    (history_next (history_next (history_next (history_next (history_next hhistory rfl) rfl)
      rfl) rfl) rfl)).mpr ?_
  -- after the request nothing sets `ctx.running`, and before it there is no other
  have hbefore : NoEarlyStop steps := by
    apply List.pairwise_of_forall_mem_list
    intro later _ earlier hmem hstops
    rw [hquiet earlier hmem] at hstops
    cases hstops
  refine .cons (fun _ _ _ => rfl) (.cons (fun _ _ _ => rfl) (.cons (fun _ _ _ => rfl)
    (.cons (fun _ _ _ => rfl) (.cons ?_ hbefore))))
  intro earlier hmem hstops
  rw [hquiet earlier hmem] at hstops
  cases hstops

/-- `SIGTERM` while `vpn_init` runs is lost. -/
theorem exists_not_stopNeverLost :
    ¬ ∀ (crypto : Crypto) (conf : Conf) (steps : List (Step State Action)) (state : State),
        History (program crypto conf) steps state → StopNeverLost steps := by
  intro hall
  obtain ⟨steps, running, process, hhistory, hevents⟩ :=
    exists_history_startMain [.deliver .sigterm] (by decide +kernel)
  have hset : History (program Reference.crypto (onePathConf .client))
      (⟨⟨.setRunning, running, process⟩, .proceed 0, ⟨.testRunning, 1, process⟩⟩ :: steps)
      ⟨.testRunning, 1, process⟩ := history_next hhistory rfl
  have hkept := (hall Reference.crypto (onePathConf .client) _ _ hset).kept
  have hstop : Action.deliver .sigterm ∈ steps.map Step.event := by
    rw [hevents, List.mem_reverse]
    exact List.mem_cons_of_mem _ List.mem_cons_self
  obtain ⟨stop, hmem, hevent⟩ := List.mem_map.mp hstop
  have hkeeps := (List.pairwise_cons.mp hkept).1 stop hmem
  have hzero := (hkeeps (by rw [hevent]; rfl)).1
  cases hzero

end Main
end Muon
