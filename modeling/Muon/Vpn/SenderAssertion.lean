import Muon.Vpn.OpenSockets
import Muon.Vpn.PathSelection

/-!
# The assertion of `udp_sender`

`udp_sender` asserts that the path it selected has a socket before it looks
whether the path is alive.  A live path has one, since `alive` is only set by a
worker that has published its socket and `sock` is never cleared.  When no path is
alive the selection falls back to the path it used last, which is path 0 at first,
and that path may never have had a socket: its workers may still be in `ipremote`,
or have failed to bind.

The theorem is about runs that may end in the assertion, so a state here is the
outcome of the last event.
-/

namespace Muon
namespace Vpn

open Foundation Packet

variable {crypto : Crypto} {conf : Conf} {process process' : Process}
  {outputs : List Output}

/-- What an event gives: the peer with its outputs, or a failed assertion. -/
abbrev Outcome := Except Abort (Process × List Output)

/-- The runs of a peer up to the first assertion that fails. -/
def outcomes (crypto : Crypto) (conf : Conf) : TransitionSystem Outcome Event where
  initial := fun outcome => outcome = .ok (vpnRun conf, [])
  step := fun outcome event outcome' => ∃ process outputs, outcome = .ok (process, outputs) ∧
    step crypto process event = some outcome'

/-- Before an assertion fails, the runs are those of the peer. -/
theorem peer_reachable (hreach : Reachable (outcomes crypto conf) (.ok (process, outputs))) :
    Reachable (peer crypto conf) process := by
  have hinv : ∀ outcome, Reachable (outcomes crypto conf) outcome →
      ∀ process outputs, outcome = .ok (process, outputs) →
        Reachable (peer crypto conf) process := by
    intro outcome hreach
    refine hreach.invariant (fun outcome => ∀ process outputs,
      outcome = .ok (process, outputs) → Reachable (peer crypto conf) process) ?_ ?_
    · rintro outcome rfl process outputs heq
      cases heq
      exact .initial rfl
    · rintro outcome event outcome' - hbefore ⟨before, sent, rfl, hstep⟩ process outputs rfl
      exact .step (hbefore before sent rfl) ⟨outputs, hstep⟩
  exact hinv _ hreach process outputs rfl

/-! ## Published sockets -/

/-- A path with an open socket, or with a live counter, has published a socket. -/
structure SocksPublished (process : Process) : Prop where
  receiving : ∀ worker ∈ process.workers, worker.state = .receiving →
    (process.ctx.paths worker.path).sock ≠ none
  alive : ∀ path, 0 < (process.ctx.paths path).alive →
    (process.ctx.paths path).sock ≠ none

/-- No worker opens a socket and no path is revived. -/
theorem SocksPublished.of_same (hinv : SocksPublished process)
    (hworkers : ∀ worker' ∈ process'.workers, worker'.state = .receiving →
      ∃ worker ∈ process.workers, worker.state = .receiving ∧ worker.path = worker'.path)
    (hsock : ∀ path, (process'.ctx.paths path).sock = (process.ctx.paths path).sock)
    (halive : ∀ path, 0 < (process'.ctx.paths path).alive →
      0 < (process.ctx.paths path).alive) : SocksPublished process' where
  receiving := by
    intro worker' hmem hstate
    obtain ⟨worker, hworker, hreceiving, hpath⟩ := hworkers worker' hmem hstate
    rw [hsock, ← hpath]
    exact hinv.receiving worker hworker hreceiving
  alive := by
    intro path hlive
    rw [hsock]
    exact hinv.alive path (halive path hlive)

/-- A worker publishes its socket when it binds. -/
theorem SocksPublished.bound (hinv : SocksPublished process) (index : Nat) (worker : Worker)
    (listen : Option IpAddr) : SocksPublished (bindWorker process index worker listen) := by
  cases listen with
  | none =>
      refine hinv.of_same (fun worker' hmem hstate => ?_) (fun _ => rfl) fun _ hlive => hlive
      rcases List.mem_or_eq_of_mem_set hmem with hold | rfl
      · exact ⟨worker', hold, hstate, rfl⟩
      · cases hstate
  | some bound =>
      have hnew : ∀ path, (process.ctx.paths path).sock ≠ none ∨ path = worker.path →
          ((bindWorker process index worker (some bound)).ctx.paths path).sock ≠ none := by
        intro path hold
        simp only [bindWorker]
        rcases eq_or_ne path worker.path with rfl | hne
        · rw [Ctx.paths_updatePath_same]
          exact Option.some_ne_none _
        · rw [Ctx.paths_updatePath_of_ne _ _ _ hne]
          exact hold.resolve_right hne
      refine ⟨fun worker' hmem hstate => ?_, fun path hlive => ?_⟩
      · rcases List.mem_or_eq_of_mem_set hmem with hold | rfl
        · exact hnew _ (Or.inl (hinv.receiving worker' hold hstate))
        · exact hnew _ (Or.inr rfl)
      · apply hnew path
        have halive := process.ctx.field_updatePath worker.path
          (fun p => { p with sock := some index }) PathCtx.alive rfl path
        exact Or.inl (hinv.alive path (halive ▸ hlive))

/-- A worker is started, in either mode. -/
theorem SocksPublished.started (hinv : SocksPublished process) (path : Nat)
    (token timeout now : Int) (stack : Pbuf) (listen : Option IpAddr) :
    SocksPublished (startWorker process path token timeout now stack listen) := by
  have hworkers : ∀ (worker : Worker), worker.state = .resolving →
      ∀ worker' ∈ process.workers ++ [worker], worker'.state = .receiving →
      ∃ worker ∈ process.workers, worker.state = .receiving ∧ worker.path = worker'.path := by
    intro worker hresolving worker' hmem hstate
    rcases List.mem_append.mp hmem with hold | hlast
    · exact ⟨worker', hold, hstate, rfl⟩
    · rw [List.mem_singleton.mp hlast, hresolving] at hstate
      cases hstate
  cases hmode : process.ctx.mode with
  | client =>
      simp only [startWorker, hmode]
      exact hinv.of_same (hworkers _ rfl) (fun _ => rfl) fun _ hlive => hlive
  | server =>
      simp only [startWorker, hmode]
      refine (hinv.of_same (hworkers _ rfl) ?_ fun i hlive => ?_).bound _ _ _
      · exact process.ctx.field_updatePath path (fun p => { p with alive := 0 }) PathCtx.sock rfl
      · rcases eq_or_ne i path with rfl | hne
        · rw [Ctx.paths_updatePath_same] at hlive
          exact absurd hlive (Int.lt_irrefl 0)
        · rwa [Ctx.paths_updatePath_of_ne _ _ _ hne] at hlive

/-- A datagram is accepted: its worker is receiving, so the path it revives has a
socket, and a server publishes the worker's. -/
theorem SocksPublished.accepted (hinv : SocksPublished process) {index : Nat} {worker : Worker}
    (hworker : process.workers[index]? = some worker) (hstate : worker.state = .receiving)
    (pbuf : Pbuf) (source : IpAddr) (n : Int) :
    SocksPublished { process with
      ctx := acceptDatagram process.ctx index { worker with pbuf := pbuf } source n
      workers := process.workers.set index { worker with pbuf := pbuf } } := by
  have hsock : ∀ path, (process.ctx.paths path).sock ≠ none →
      ((acceptDatagram process.ctx index { worker with pbuf := pbuf } source n).paths
        path).sock ≠ none := by
    intro path hold
    cases hmode : process.ctx.mode with
    | client =>
        rw [(acceptDatagram_client hmode index { worker with pbuf := pbuf } source n).sock]
        exact hold
    | server =>
        obtain ⟨hown, -, -, hothers⟩ :=
          acceptDatagram_server hmode index { worker with pbuf := pbuf } source n
        rcases eq_or_ne path worker.path with rfl | hne
        · rw [hown]
          exact Option.some_ne_none _
        · rw [hothers path hne]
          exact hold
  -- the worker that receives is bound, and has published its socket
  have hrevived : ((process.ctx.paths worker.path).sock) ≠ none :=
    hinv.receiving worker (List.mem_of_getElem? hworker) hstate
  constructor
  · intro worker' hmem hreceiving
    rcases List.mem_or_eq_of_mem_set hmem with hold | rfl
    · exact hsock _ (hinv.receiving worker' hold hreceiving)
    · exact hsock _ hrevived
  · intro path hlive
    rcases eq_or_ne path worker.path with rfl | hne
    · exact hsock _ hrevived
    · rw [(acceptDatagram_alive process.ctx index { worker with pbuf := pbuf } source n).2
        path hne] at hlive ⊢
      exact hinv.alive path hlive

theorem step_socksPublished {event : Event} (hinv : SocksPublished process)
    (hstep : step crypto process event = some (.ok (process', outputs))) :
    SocksPublished process' := by
  have hsame : process'.workers = process.workers → SameSockets process.ctx process'.ctx →
      SocksPublished process' := by
    intro hworkers hsockets
    refine hinv.of_same (fun worker hmem hstate => ?_) hsockets.sock hsockets.alive
    rw [hworkers] at hmem
    exact ⟨worker, hmem, hstate, rfl⟩
  cases event with
  | start stack now listen =>
      obtain ⟨start, starts, -, rfl, -⟩ := step_start hstep
      cases start with
      | udpWorker path port =>
          have hbefore : SocksPublished { process with starts := starts } :=
            ⟨hinv.receiving, hinv.alive⟩
          exact hbefore.started path port (-1) now stack listen
      | clientHop => exact hsame rfl (.refl _)
      | tunWorker => exact hsame rfl (.refl _)
      | heartbeat => exact hsame rfl (.refl _)
  | hop clock stack now =>
      obtain ⟨path, -, -, rfl, -⟩ := step_hop hstep
      have hbefore : SocksPublished { process with hopNext := some (path + 1) } :=
        ⟨hinv.receiving, hinv.alive⟩
      exact hbefore.started path _ 5000 now stack none
  | hopWake =>
      obtain ⟨path, -, -, rfl, -⟩ := step_hopWake hstep
      exact hsame rfl (.refl _)
  | resolved index remote listen =>
      obtain ⟨worker, -, -, rfl, -⟩ := step_resolved hstep
      -- Remote and token are written before `udplisten`; neither is a socket.
      refine SocksPublished.bound ?_ index worker listen
      have hsock := process.ctx.field_updatePath worker.path
        (fun p => { p with remote := remote, token := worker.token }) PathCtx.sock rfl
      have halive := process.ctx.field_updatePath worker.path
        (fun p => { p with remote := remote, token := worker.token }) PathCtx.alive rfl
      exact hinv.of_same (fun worker' hmem hstate => ⟨worker', hmem, hstate, rfl⟩) hsock
        fun path hlive => halive path ▸ hlive
  | received index source bytes =>
      obtain ⟨worker, hworker, hstate, hreceive⟩ := step_received hstep
      obtain ⟨pbuf, ⟨rfl, -⟩ | ⟨n, data, -, -, -, -, -, rfl, -⟩⟩ :=
        receiveDatagram_cases hreceive
      · refine hinv.of_same (fun worker' hmem hreceiving => ?_) (fun _ => rfl)
          fun _ hlive => hlive
        rcases List.mem_or_eq_of_mem_set hmem with hold | rfl
        · exact ⟨worker', hold, hreceiving, rfl⟩
        · exact ⟨worker, List.mem_of_getElem? hworker, hstate, rfl⟩
      · exact hinv.accepted hworker hstate pbuf source n
  | receiveError index =>
      obtain ⟨worker, -, -, rfl, -⟩ := step_receiveError hstep
      exact hinv
  | timeout index now =>
      obtain ⟨worker, hworker, hstate, -, -, rfl, -⟩ := step_timeout hstep
      -- A worker that returns takes its socket with it, but `sock` stays as it is.
      refine hinv.of_same (fun worker' hmem hreceiving => ?_) (fun path => ?_)
        fun path hlive => ?_
      · unfold receiveTimeout at hmem
        split at hmem
        · exact ⟨worker', hmem, hreceiving, rfl⟩
        · rcases List.mem_or_eq_of_mem_set hmem with hold | rfl
          · exact ⟨worker', hold, hreceiving, rfl⟩
          · cases hreceiving
      · unfold receiveTimeout
        split <;> rfl
      · unfold receiveTimeout at hlive
        split at hlive <;> exact hlive
  | tunRead packet draws =>
      obtain ⟨pbuf, path, next, pbuf', -, -, -, -, hsend, rfl⟩ := step_tunRead hstep
      obtain ⟨-, -, hworkers⟩ := udpSender_starts hsend
      have hsockets : SameSockets process.ctx next.ctx := udpSender_sameSockets hsend
      exact hsame hworkers hsockets
  | tunReadError =>
      obtain ⟨pbuf, -, rfl, -⟩ := step_tunReadError hstep
      exact hsame rfl (.refl _)
  | heartbeat readings draws =>
      obtain ⟨pbuf, ctx, pbuf', -, hround, rfl⟩ := step_heartbeat hstep
      have hsockets := heartbeatPaths_sameSockets crypto readings draws
        (List.range process.ctx.pathCount) process.ctx pbuf
      rw [hround] at hsockets
      exact hsame rfl hsockets

/-- In every run a live path has a socket. -/
theorem socksPublished_of_reachable (hreach : Reachable (peer crypto conf) process) :
    SocksPublished process := by
  refine hreach.invariant SocksPublished ?_ ?_
  · rintro process rfl
    constructor
    · intro worker hmem
      cases hmem
    · intro path hlive
      have hdead : ((vpnRun conf).ctx.paths path).alive = 0 := initCtx_alive conf path
      rw [hdead] at hlive
      exact absurd hlive (Int.lt_irrefl 0)
  · rintro process event process' - hinv ⟨outputs, hstep⟩
    exact step_socksPublished hinv hstep

/-! ## When the assertion holds -/

/-- Some path of the peer is alive. -/
def PathUsable (process : Process) : Prop :=
  ∃ path < process.ctx.pathCount, 0 < (process.ctx.paths path).alive

/-- What a packet that `tun_worker` reads needs: a live path, or a socket on the
path that was used last. -/
def SenderReady : Outcome → Event → Prop
  | .ok (process, _), .tunRead _ _ => PathUsable process ∨
      (process.ctx.paths process.senderPath).sock ≠ none
  | _, _ => True

/-- No step fails the assertion, and a packet read before any path is usable is
dropped: nothing is sent and the context is as it was. -/
def SendsOrDrops (step : Step Outcome Event) : Prop :=
  step.after ≠ .error .udpSenderSock ∧
    ∀ process outputs packet draws, step.before = .ok (process, outputs) →
      step.event = .tunRead packet draws → ¬ PathUsable process →
      ∃ process', step.after = .ok (process', []) ∧ process'.ctx = process.ctx

/-- The assertion that a received datagram can fail is another one. -/
theorem decapsulate_error {token n : Int} {pbuf : Pbuf} {abort : Abort}
    (hdecapsulate : decapsulate crypto token pbuf n = .error abort) :
    abort = .decompressOutlen := by
  have hdecompress : ∀ {pbuf : Pbuf}, decompress crypto pbuf = .error abort →
      abort = .decompressOutlen := by
    intro pbuf hfails
    unfold decompress at hfails
    split at hfails
    · split at hfails
      · cases hfails
        rfl
      · split at hfails
        · cases hfails
        · cases hfails
          rfl
    · cases hfails
  simp only [decapsulate] at hdecapsulate
  split at hdecapsulate
  · cases hdecapsulate
  · split at hdecapsulate
    · cases hdecapsulate
    · split at hdecapsulate
      · cases hdecapsulate
      · split at hdecapsulate
        · next hfails =>
            cases hdecapsulate
            exact hdecompress hfails
        · split at hdecapsulate <;> cases hdecapsulate

/-- Only a packet from the TUN device can fail the assertion of `udp_sender`. -/
theorem step_udpSenderSock {event : Event}
    (hstep : step crypto process event = some (.error .udpSenderSock)) :
    ∃ packet draws, event = .tunRead packet draws := by
  cases event with
  | tunRead packet draws => exact ⟨packet, draws, rfl⟩
  | received index source bytes =>
      simp only [step] at hstep
      split at hstep
      · cases hstep
      · split at hstep
        · have hreceive := Option.some.inj hstep
          simp only [receiveDatagram] at hreceive
          split at hreceive
          · cases hreceive
          · split at hreceive
            · cases hreceive
            · split at hreceive
              · -- the other assertion, on the length of a compressed payload
                next abort hdecapsulate =>
                  cases hreceive
                  cases decapsulate_error hdecapsulate
              · split at hreceive
                · cases hreceive
                · split at hreceive <;> cases hreceive
        · cases hstep
  | start | tunReadError | heartbeat =>
      simp only [step] at hstep
      split at hstep <;> cases hstep
  | hop | hopWake | resolved | receiveError | timeout =>
      simp only [step] at hstep
      split at hstep
      · cases hstep
      · split at hstep <;> cases hstep

/-- A packet from the TUN device, on a path without a socket or with one. -/
theorem step_tunRead_outcome {packet : List UInt8} {draws : Draws} {outcome' : Outcome}
    {path : Nat} (hselect : selectPath process.ctx process.senderPath = some path)
    (hstep : step crypto process (.tunRead packet draws) = some outcome') :
    ((process.ctx.paths path).sock = none ∧ outcome' = .error .udpSenderSock) ∨
      ((process.ctx.paths path).sock ≠ none ∧ ∃ process' outputs,
        outcome' = .ok (process', outputs) ∧
        (¬ 0 < (process.ctx.paths path).alive → outputs = [] ∧ process'.ctx = process.ctx)) := by
  simp only [step] at hstep
  split at hstep
  · cases hstep
  · split at hstep
    · rw [hselect] at hstep
      simp only [udpSender] at hstep
      cases hsock : (process.ctx.paths path).sock with
      | none =>
          rw [hsock] at hstep
          cases hstep
          exact Or.inl ⟨rfl, rfl⟩
      | some sock =>
          rw [hsock] at hstep
          refine Or.inr ⟨Option.some_ne_none sock, ?_⟩
          by_cases hdead : (process.ctx.paths path).alive ≤ 0
          · simp only [if_pos hdead] at hstep
            cases hstep
            exact ⟨_, _, rfl, fun _ => ⟨rfl, rfl⟩⟩
          · simp only [if_neg hdead] at hstep
            cases hstep
            exact ⟨_, _, rfl, fun hnot => absurd (Int.lt_of_not_ge hdead) hnot⟩
    · cases hstep

/-- The assertion holds for a packet exactly when the sender is ready. -/
theorem tunRead_sendsOrDrops_iff (hpaths : 0 < conf.paths.length) {packet : List UInt8}
    {draws : Draws} {outcome' : Outcome}
    (hreach : Reachable (outcomes crypto conf) (.ok (process, outputs)))
    (hstep : step crypto process (.tunRead packet draws) = some outcome') :
    SendsOrDrops ⟨.ok (process, outputs), .tunRead packet draws, outcome'⟩ ↔
      SenderReady (.ok (process, outputs)) (.tunRead packet draws) := by
  have hpeer := peer_reachable hreach
  have hlast := senderPath_lt_of_reachable hpaths hpeer
  obtain ⟨path, hselect, hrange⟩ := selectPath_spec hlast
  -- A live path is selected if there is one, and otherwise the last one.
  have hready : SenderReady (.ok (process, outputs)) (.tunRead packet draws) ↔
      (process.ctx.paths path).sock ≠ none := by
    by_cases husable : PathUsable process
    · -- both sides hold: a live path has published its socket
      obtain ⟨usable, hrange, hlive⟩ := husable
      have hselected := alive_of_selectPath hlast hrange hlive hselect
      exact iff_of_true (Or.inl ⟨usable, hrange, hlive⟩)
        ((socksPublished_of_reachable hpeer).alive path hselected)
    · have hfallback : selectPath process.ctx process.senderPath = some process.senderPath :=
        selectPath_of_dead hlast fun path hpath hlive => husable ⟨path, hpath, hlive⟩
      rw [hselect] at hfallback
      cases hfallback
      exact or_iff_right husable
  rw [hready]
  rcases step_tunRead_outcome hselect hstep with
    ⟨hnone, rfl⟩ | ⟨hsock, process', sent, rfl, hdropped⟩
  · exact iff_of_false (fun hsends => hsends.1 rfl) fun hsock => hsock hnone
  · refine iff_of_true ⟨?_, ?_⟩ hsock
    · rintro ⟨⟩
    · rintro before outputs' packet' draws' hbefore - hdead
      cases hbefore
      obtain ⟨rfl, hctx⟩ := hdropped fun hlive => hdead ⟨path, hrange, hlive⟩
      exact ⟨process', rfl, hctx⟩

/-- **When the assertion of `udp_sender` holds.**  In every run of a peer no packet
fails the assertion, and packets are dropped as long as no path is usable, exactly
when every packet that is read finds a live path or a socket on the path that was
used last. -/
theorem outcomes_sendsOrDrops_iff (crypto : Crypto) (conf : Conf)
    (hpaths : 0 < conf.paths.length) (steps : List (Step Outcome Event)) (outcome : Outcome)
    (hrun : History (outcomes crypto conf) steps outcome) :
    (∀ step ∈ steps, SendsOrDrops step) ↔
      ∀ step ∈ steps, SenderReady step.before step.event := by
  refine hrun.forall_steps_iff SendsOrDrops SenderReady ?_
  rintro outcome event outcome' hreach ⟨process, outputs, rfl, hstep⟩
  cases event with
  | tunRead packet draws => exact tunRead_sendsOrDrops_iff hpaths hreach hstep
  | start | hop | hopWake | resolved | received | receiveError | timeout | tunReadError
  | heartbeat =>
      refine iff_of_true ⟨?_, ?_⟩ trivial
      · rintro rfl
        obtain ⟨packet, draws, hevent⟩ := step_udpSenderSock hstep
        cases hevent
      · rintro process outputs packet draws - hevent
        cases hevent

/-! ## A client whose first worker cannot bind -/

/-- Carry out an event, unless an assertion has failed. -/
def nextOutcome (crypto : Crypto) (outcome : Outcome) (event : Event) : Option Outcome :=
  match outcome with
  | .error _ => none
  | .ok (process, _) => step crypto process event

theorem nextOutcome_eq_some {outcome outcome' : Outcome} {event : Event}
    (hnext : nextOutcome crypto outcome event = some outcome') :
    (outcomes crypto conf).step outcome event outcome' := by
  cases outcome with
  | error abort => cases hnext
  | ok pair => exact ⟨pair.1, pair.2, rfl, hnext⟩

/-- A client starts, and its worker binds a socket if it can. -/
def startClient (listen : Option IpAddr) : List Event :=
  [.start (Reference.bufferOf []) 0 none,
    .hop (Totp.Timeval.ofMilliseconds 10000) (Reference.bufferOf []) 0,
    .resolved 0 ⟨1, 1200⟩ listen,
    .start (Reference.bufferOf []) 0 none,
    .start (Reference.bufferOf []) 0 none]

/-- A packet of one byte. -/
def firstPacket : Event := .tunRead [0x45] Reference.zeroDraws

/-- With a socket the packet is dropped, for no path is alive yet. -/
theorem outcomes_sendsOrDrops_firstPacket :
    ∃ steps : List (Step Outcome Event),
      steps.map Step.event = firstPacket :: (startClient (some ⟨2, 5000⟩)).reverse ∧
        ∀ step ∈ steps, SendsOrDrops step := by
  have hruns : ((run (nextOutcome Reference.crypto) (.ok (vpnRun (onePathConf .client), []))
      (startClient (some ⟨2, 5000⟩))).any fun outcome =>
        match outcome with
        | .error _ => false
        | .ok (process, _) => (process.ctx.paths process.senderPath).sock == some 0 &&
            (step Reference.crypto process firstPacket).isSome) = true := by decide +kernel
  obtain ⟨outcome, hrun, hstarted⟩ := (Option.any_eq_true _ _).mp hruns
  cases outcome with
  | error abort => cases hstarted
  | ok pair =>
      obtain ⟨process, outputs⟩ := pair
      simp only [Bool.and_eq_true, beq_iff_eq] at hstarted
      obtain ⟨hsock, hreads⟩ := hstarted
      obtain ⟨outcome', hstep⟩ := Option.isSome_iff_exists.mp hreads
      have hinitial : (outcomes Reference.crypto (onePathConf .client)).initial
          (.ok (vpnRun (onePathConf .client), [])) := rfl
      obtain ⟨steps, hhistory, hevents⟩ :=
        exists_history_of_run (fun _ _ _ => nextOutcome_eq_some) hinitial hrun
      refine ⟨⟨.ok (process, outputs), firstPacket, outcome'⟩ :: steps, ?_, ?_⟩
      · rw [List.map_cons, hevents]
      · refine (outcomes_sendsOrDrops_iff Reference.crypto (onePathConf .client) (by decide) _
          outcome' (.step hhistory ⟨process, outputs, rfl, hstep⟩)).mpr fun step hmem => ?_
        rcases List.mem_cons.mp hmem with rfl | hearlier
        · refine Or.inr ?_
          show (process.ctx.paths process.senderPath).sock ≠ none
          rw [hsock]
          exact Option.some_ne_none 0
        · have hevent : step.event ∈ startClient (some ⟨2, 5000⟩) := by
            rw [← List.mem_reverse, ← hevents]
            exact List.mem_map_of_mem hearlier
          obtain ⟨before, event, after⟩ := step
          simp only [startClient, List.mem_cons, List.not_mem_nil, or_false] at hevent
          rcases hevent with rfl | rfl | rfl | rfl | rfl <;> cases before <;> trivial

/-- Without one it ends the process. -/
theorem exists_not_sendsOrDrops :
    ¬ ∀ (crypto : Crypto) (conf : Conf), 0 < conf.paths.length →
        ∀ (steps : List (Step Outcome Event)) (outcome : Outcome),
          History (outcomes crypto conf) steps outcome → ∀ step ∈ steps, SendsOrDrops step := by
  intro hall
  have hruns : ((run (nextOutcome Reference.crypto) (.ok (vpnRun (onePathConf .client), []))
      (startClient none ++ [firstPacket])).any fun outcome =>
        match outcome with
        | .error abort => decide (abort = .udpSenderSock)
        | .ok _ => false) = true := by
    decide +kernel
  obtain ⟨outcome, hrun, hfails⟩ := (Option.any_eq_true _ _).mp hruns
  cases outcome with
  | ok pair => cases hfails
  | error abort =>
      cases of_decide_eq_true hfails
      have hinitial : (outcomes Reference.crypto (onePathConf .client)).initial
          (.ok (vpnRun (onePathConf .client), [])) := rfl
      obtain ⟨steps, hhistory, -⟩ :=
        exists_history_of_run (fun _ _ _ => nextOutcome_eq_some) hinitial hrun
      have hsends := hall Reference.crypto (onePathConf .client) (by decide) _ _ hhistory
      cases hhistory with
      | initial hinitial => cases hinitial
      | step hearlier hnext => exact (hsends _ List.mem_cons_self).1 rfl

end Vpn
end Muon
