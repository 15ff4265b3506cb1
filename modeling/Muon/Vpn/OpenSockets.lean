import Muon.Vpn.Agreement

/-!
# Sends on open sockets

A worker of a client publishes its socket in `ctx.paths[path].sock` and closes it
five seconds after the worker was started, without looking at `sock` again.
`sock` stays valid only if another worker of the path has bound its own socket in
the meantime.  The theorem says that nothing else goes wrong: a client sends
through open sockets only, in every run in which no worker reaches its deadline
while `sock` is its own socket, and in no other.
-/

namespace Muon
namespace Vpn

open Foundation Packet Totp

variable {crypto : Crypto} {conf : Conf} {process process' : Process}
  {outputs : List Output}

/-! ## Open sockets -/

/-- The socket was opened by a worker of the path, and `udpclose` has not been
called on it. -/
def OpenOn (process : Process) (path sock : Nat) : Prop :=
  ∃ worker, process.workers[sock]? = some worker ∧ worker.path = path ∧
    worker.state = .receiving

/-- `ctx.paths[i].sock` is `NULL` or an open socket, and the next `udpsend`,
whatever event makes it, goes through an open socket. -/
structure SocketsSafe (crypto : Crypto) (process : Process) : Prop where
  sock_open : ∀ path sock, (process.ctx.paths path).sock = some sock →
    OpenOn process path sock
  sends_open : ∀ event process' outputs,
    step crypto process event = some (.ok (process', outputs)) →
    ∀ path sock remote data, .udpsend path sock remote data ∈ outputs →
    OpenOn process path sock

/-- The event closes the socket its path sends through. -/
def ClosesCurrent (process : Process) : Event → Prop
  | .timeout index _ => ∃ worker, process.workers[index]? = some worker ∧
      (process.ctx.paths worker.path).sock = some index
  | _ => False

/-- What is sent goes through `sock`, so it is enough that `sock` is open. -/
theorem socketsSafe_iff :
    SocketsSafe crypto process ↔
      ∀ path sock, (process.ctx.paths path).sock = some sock → OpenOn process path sock := by
  constructor
  · exact fun hsafe => hsafe.sock_open
  · intro hopen
    refine ⟨hopen, fun event process' outputs hstep path sock remote data hsend => ?_⟩
    exact hopen path sock (step_sentThrough hstep hsend)

/-- A worker replaced by an open one of the same path. -/
theorem OpenOn.set {index : Nat} {worker : Worker} (worker' : Worker)
    (hworkers : process'.workers = process.workers.set index worker')
    (hworker : process.workers[index]? = some worker)
    (hkept : worker.state = .receiving →
      worker'.path = worker.path ∧ worker'.state = .receiving)
    {path sock : Nat} (hopen : OpenOn process path sock) : OpenOn process' path sock := by
  obtain ⟨owner, howner, hpath, hstate⟩ := hopen
  by_cases hsock : index = sock
  · subst hsock
    rw [hworker] at howner
    cases howner
    obtain ⟨hpath', hstate'⟩ := hkept hstate
    have hlength : index < process.workers.length := (List.getElem?_eq_some_iff.mp hworker).1
    refine ⟨worker', ?_, hpath'.trans hpath, hstate'⟩
    rw [hworkers, List.getElem?_set_self hlength]
  · refine ⟨owner, ?_, hpath, hstate⟩
    rw [hworkers, List.getElem?_set_ne hsock]
    exact howner

/-- A new worker leaves the others alone. -/
theorem OpenOn.append {worker : Worker} (hworkers : process'.workers = process.workers ++ [worker])
    {path sock : Nat} (hopen : OpenOn process path sock) : OpenOn process' path sock := by
  obtain ⟨owner, howner, hrest⟩ := hopen
  refine ⟨owner, ?_, hrest⟩
  rw [hworkers, List.getElem?_append_left (List.getElem?_eq_some_iff.mp howner).1]
  exact howner

/-- A client worker is started without touching anything else. -/
theorem startWorker_openOn (process : Process) (hmode : process.ctx.mode = .client)
    (path : Nat) (token timeout now : Int) (stack : Pbuf) (listen : Option IpAddr)
    {path' sock : Nat} (hopen : OpenOn process path' sock) :
    OpenOn (startWorker process path token timeout now stack listen) path' sock := by
  simp only [startWorker, hmode]
  exact hopen.append rfl

/-! ## What a client does to open sockets -/

/-- A worker of a client closes its socket at its deadline, whatever `sock` is. -/
theorem receiveTimeout_client (hmode : process.ctx.mode = .client) (index : Nat)
    (worker : Worker) :
    receiveTimeout process index worker =
      { process with workers := process.workers.set index { worker with state := .closed } } := by
  unfold receiveTimeout
  rw [hmode]
  exact if_neg fun hserver => nomatch hserver.1

/-- Every event of a client keeps `sock` open on every path, unless it closes the
current socket. -/
theorem step_sock_open (hmode : process.ctx.mode = .client)
    (hopen : ∀ path sock, (process.ctx.paths path).sock = some sock →
      OpenOn process path sock)
    {event : Event} (hguard : ¬ ClosesCurrent process event)
    (hstep : step crypto process event = some (.ok (process', outputs))) :
    ∀ path sock, (process'.ctx.paths path).sock = some sock → OpenOn process' path sock := by
  -- most events close no socket and write no `sock`
  have hkept : (∀ path sock, OpenOn process path sock → OpenOn process' path sock) →
      (∀ path, (process'.ctx.paths path).sock = (process.ctx.paths path).sock) →
      ∀ path sock, (process'.ctx.paths path).sock = some sock →
        OpenOn process' path sock := by
    intro hworkers hsocks path sock hsock
    rw [hsocks] at hsock
    exact hworkers path sock (hopen path sock hsock)
  cases event with
  | start stack now listen =>
      obtain ⟨start, starts, -, rfl, -⟩ := step_start hstep
      cases start with
      | udpWorker path port =>
          have hctx := (startWorker_client { process with starts := starts } hmode path port
            (-1) now stack listen).2
          refine hkept (fun _ _ hsocket => startWorker_openOn { process with starts := starts }
            hmode path port (-1) now stack listen hsocket) ?_
          intro i
          simp only [runStart, hctx]
      | clientHop => exact hopen
      | tunWorker => exact hopen
      | heartbeat => exact hopen
  | hop clock stack now =>
      obtain ⟨path, -, -, rfl, -⟩ := step_hop hstep
      have hctx := (startWorker_client { process with hopNext := some (path + 1) } hmode path
        (totp crypto (process.ctx.paths path).portRange clock 0) 5000 now stack none).2
      refine hkept (fun _ _ hsocket => startWorker_openOn
        { process with hopNext := some (path + 1) } hmode path _ 5000 now stack none hsocket) ?_
      intro i
      simp only [hctx]
  | hopWake =>
      obtain ⟨path, -, -, rfl, -⟩ := step_hopWake hstep
      exact hopen
  | resolved index remote listen =>
      obtain ⟨worker, hworker, hstate, rfl, -⟩ := step_resolved hstep
      have hresolving : worker.state = .receiving → False := by
        rw [hstate]
        exact WorkerState.noConfusion
      cases listen with
      | none =>
          -- The worker fails to bind; its path keeps the socket it had.
          apply hkept
          · exact fun _ _ => OpenOn.set _ rfl hworker fun h => (hresolving h).elim
          · exact process.ctx.field_updatePath worker.path
              (fun p => { p with remote := remote, token := worker.token }) PathCtx.sock rfl
      | some bound =>
          obtain ⟨-, hsockNew, -, -, hothers⟩ :=
            resolveWorker_bound process index worker remote bound
          intro path sock hsock
          rcases eq_or_ne path worker.path with rfl | hne
          · -- the path now names the socket that was just opened
            rw [hsockNew] at hsock
            cases hsock
            have hlength : index < process.workers.length :=
              (List.getElem?_eq_some_iff.mp hworker).1
            exact ⟨{ worker with state := .receiving, bound := bound },
              List.getElem?_set_self hlength, rfl, rfl⟩
          · rw [hothers path hne] at hsock
            exact OpenOn.set _ rfl hworker (fun h => (hresolving h).elim)
              (hopen path sock hsock)
  | received index source bytes =>
      obtain ⟨worker, hworker, -, hreceive⟩ := step_received hstep
      obtain ⟨pbuf, ⟨rfl, -⟩ | ⟨n, data, -, -, -, -, -, rfl, -⟩⟩ :=
        receiveDatagram_cases hreceive
      · exact hkept (fun _ _ => OpenOn.set { worker with pbuf := pbuf } rfl
          hworker fun h => ⟨rfl, h⟩) fun _ => rfl
      · exact hkept (fun _ _ => OpenOn.set { worker with pbuf := pbuf } rfl
          hworker fun h => ⟨rfl, h⟩) (acceptDatagram_client hmode _ _ _ _).sock
  | receiveError index =>
      obtain ⟨worker, -, -, rfl, -⟩ := step_receiveError hstep
      exact hopen
  | timeout index now =>
      obtain ⟨worker, hworker, -, -, -, rfl, -⟩ := step_timeout hstep
      rw [receiveTimeout_client hmode]
      intro path sock hsock
      obtain ⟨owner, howner, hpath, hstate⟩ := hopen path sock hsock
      -- the socket of the path is another worker's, or the event would close it
      have hother : index ≠ sock := by
        rintro rfl
        rw [hworker] at howner
        cases howner
        subst hpath
        exact hguard ⟨worker, hworker, hsock⟩
      refine ⟨owner, ?_, hpath, hstate⟩
      rw [List.getElem?_set_ne hother]
      exact howner
  | tunRead packet draws =>
      obtain ⟨pbuf, path, next, pbuf', -, -, -, -, hsend, rfl⟩ := step_tunRead hstep
      obtain ⟨-, -, hworkers⟩ := udpSender_starts hsend
      have hsame : SameSockets process.ctx next.ctx := udpSender_sameSockets hsend
      refine hkept (fun path sock => ?_) hsame.sock
      rintro ⟨owner, howner, hrest⟩
      refine ⟨owner, ?_, hrest⟩
      rw [← hworkers] at howner
      exact howner
  | tunReadError =>
      obtain ⟨pbuf, -, rfl, -⟩ := step_tunReadError hstep
      exact hopen
  | heartbeat readings draws =>
      obtain ⟨pbuf, ctx, pbuf', -, hround, rfl⟩ := step_heartbeat hstep
      have hsame := heartbeatPaths_sameSockets crypto readings draws
        (List.range process.ctx.pathCount) process.ctx pbuf
      rw [hround] at hsame
      exact hkept (fun _ _ hsocket => hsocket) hsame.sock

/-- Closing the current socket leaves `sock` dangling. -/
theorem not_sock_open_of_closesCurrent (hmode : process.ctx.mode = .client) {event : Event}
    (hcloses : ClosesCurrent process event)
    (hstep : step crypto process event = some (.ok (process', outputs))) :
    ¬ ∀ path sock, (process'.ctx.paths path).sock = some sock →
      OpenOn process' path sock := by
  cases event with
  | timeout index now =>
      obtain ⟨worker, hworker, hsock⟩ := hcloses
      obtain ⟨worker', hworker', -, -, -, rfl, -⟩ := step_timeout hstep
      rw [hworker] at hworker'
      cases hworker'
      intro hopen
      rw [receiveTimeout_client hmode] at hopen
      obtain ⟨owner, howner, -, hstate⟩ := hopen worker.path index hsock
      have hlength : index < process.workers.length :=
        (List.getElem?_eq_some_iff.mp hworker).1
      rw [List.getElem?_set_self hlength] at howner
      cases howner
      cases hstate
  | start | hop | hopWake | resolved | received | receiveError | tunRead | tunReadError
  | heartbeat => exact hcloses.elim

/-- **When a client sends on open sockets only.**  In every run of a client,
`sock` is `NULL` or open in every state, and every send goes through an open
socket, exactly when no worker reaches its deadline while `sock` of its path is its
own socket. -/
theorem client_socketsSafe_iff (crypto : Crypto) (conf : Conf) (hclient : conf.mode = .client)
    (steps : List (Step Process Event)) (process : Process)
    (hrun : History (peer crypto conf) steps process) :
    (∀ state ∈ visited steps process, SocketsSafe crypto state) ↔
      ∀ step ∈ steps, ¬ ClosesCurrent step.before step.event := by
  refine hrun.forall_visited_iff (SocketsSafe crypto)
    (fun process event => ¬ ClosesCurrent process event) ?_ ?_
  · rintro process rfl
    refine socketsSafe_iff.mpr fun path sock hsock => ?_
    have hnone : ((vpnRun conf).ctx.paths path).sock = none := initCtx_sock conf path
    rw [hnone] at hsock
    cases hsock
  · rintro process event process' hreach hsafe ⟨outputs, hstep⟩
    have hmode : process.ctx.mode = .client := (sameConf_of_reachable hreach).mode.trans hclient
    rw [socketsSafe_iff]
    constructor
    · exact fun hopen hcloses => not_sock_open_of_closesCurrent hmode hcloses hstep hopen
    · exact fun hguard => step_sock_open hmode hsafe.sock_open hguard hstep

/-! ## A client that binds again, and one that cannot -/

/-- A client starts and its first worker binds a socket. -/
def firstHop : List Event :=
  [.start (Reference.bufferOf []) 0 none,
    .hop (Timeval.ofMilliseconds 10000) (Reference.bufferOf []) 0,
    .resolved 0 ⟨1, 1200⟩ (some ⟨2, 5000⟩),
    .start (Reference.bufferOf []) 0 none,
    .start (Reference.bufferOf []) 0 none]

/-- The second worker binds a socket of its own. -/
def secondHop : List Event :=
  [.hopWake,
    .hop (Timeval.ofMilliseconds 10500) (Reference.bufferOf []) 500,
    .resolved 1 ⟨1, 1200⟩ (some ⟨2, 5001⟩)]

/-- The first worker reaches its deadline after the second has replaced its socket, and the
client stays safe. -/
theorem client_socketsSafe_replaced :
    ∃ steps process, steps.map Step.event = .timeout 0 5000 :: (firstHop ++ secondHop).reverse ∧
      ∀ state ∈ visited steps process, SocketsSafe Reference.crypto state := by
  have hruns : ((run (nextProcess Reference.crypto) (vpnRun (onePathConf .client))
      (firstHop ++ secondHop)).any fun process =>
        (process.ctx.paths 0).sock == some 1 && process.workers[0]?.map Worker.path == some 0 &&
          (nextProcess Reference.crypto process (.timeout 0 5000)).isSome) = true := by
    decide +kernel
  obtain ⟨replaced, hrun, hchecked⟩ := (Option.any_eq_true _ _).mp hruns
  simp only [Bool.and_eq_true, beq_iff_eq, Option.map_eq_some_iff] at hchecked
  obtain ⟨⟨hsock, worker, hworker, hpath⟩, hnext⟩ := hchecked
  obtain ⟨process, hnext⟩ := Option.isSome_iff_exists.mp hnext
  have hinitial : (peer Reference.crypto (onePathConf .client)).initial
      (vpnRun (onePathConf .client)) := rfl
  obtain ⟨steps, hhistory, hevents⟩ :=
    exists_history_of_run (fun _ _ _ => nextProcess_eq_some.mp) hinitial hrun
  refine ⟨⟨replaced, .timeout 0 5000, process⟩ :: steps, process, ?events, ?safe⟩
  case events => rw [List.map_cons, hevents]
  case safe =>
    apply (client_socketsSafe_iff Reference.crypto (onePathConf .client) rfl _ process
      (.step hhistory (nextProcess_eq_some.mp hnext))).mpr
    intro step hmem hcloses
    rcases List.mem_cons.mp hmem with rfl | hearlier
    · -- the path of the first worker names the socket of the second
      obtain ⟨worker', hworker', hcurrent⟩ := hcloses
      rw [hworker] at hworker'
      cases hworker'
      rw [hpath, hsock] at hcurrent
      cases hcurrent
    · have hevent : step.event ∈ firstHop ++ secondHop := by
        rw [← List.mem_reverse, ← hevents]
        exact List.mem_map_of_mem hearlier
      -- no other deadline passes
      have hnone : ∀ event ∈ firstHop ++ secondHop, ∀ index now,
          event ≠ .timeout index now := by
        rintro event hmem index now rfl
        simp [firstHop, secondHop] at hmem
      cases hshape : step.event with
      | timeout index now => exact hnone _ hevent index now hshape
      | start | hop | hopWake | resolved | received | receiveError | tunRead | tunReadError
      | heartbeat =>
          rw [hshape] at hcloses
          exact hcloses

/-- Nine workers after the first, one every 500 ms, that cannot bind a socket. -/
def failingHops : List Event :=
  (List.range 9).flatMap fun i =>
    [.hopWake,
      .hop (Timeval.ofMilliseconds (10500 + 500 * i)) (Reference.bufferOf [])
        (500 * (i + 1) : Nat),
      .resolved (i + 1) ⟨1, 1200⟩ none]

/-- When the others fail to bind, `sock` is a closed socket after the first worker's deadline,
and the next heartbeat sends through it. -/
theorem exists_not_socketsSafe :
    ¬ ∀ (crypto : Crypto) (conf : Conf), conf.mode = .client → ∀ process,
        Reachable (peer crypto conf) process → SocketsSafe crypto process := by
  intro hall
  have hruns : ((run (nextProcess Reference.crypto) (vpnRun (onePathConf .client))
      (firstHop ++ failingHops ++ [.timeout 0 5000])).any fun process =>
        (process.ctx.paths 0).sock == some 0 &&
          (process.workers[0]?.map Worker.state == some .closed)) = true := by
    decide +kernel
  obtain ⟨process, hrun, hclosed⟩ := (Option.any_eq_true _ _).mp hruns
  simp only [Bool.and_eq_true, beq_iff_eq, Option.map_eq_some_iff] at hclosed
  obtain ⟨hsock, worker, hworker, hstate⟩ := hclosed
  have hreach : Reachable (peer Reference.crypto (onePathConf .client)) process :=
    Reachable.run (fun _ _ _ => nextProcess_eq_some.mp) (.initial rfl) hrun
  obtain ⟨owner, howner, -, hopen⟩ :=
    (hall Reference.crypto (onePathConf .client) rfl process hreach).sock_open 0 0 hsock
  rw [hworker] at howner
  cases howner
  rw [hstate] at hopen
  cases hopen

end Vpn
end Muon
