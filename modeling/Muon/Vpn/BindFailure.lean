import Muon.Vpn.Agreement

/-!
# A worker that cannot bind

`udp_worker` returns when `udplisten` fails, and publishes its socket only when it
succeeds.  The rest of what it publishes is written before the call: the remote and
the token of the path by a client, the dead `alive` by a server.  So a worker that
fails leaves its path as it was only if these writes change nothing.  When they do,
a client goes on sending through the socket of an older worker, under a token with
which that worker does not decrypt.
-/

namespace Muon
namespace Vpn

open Foundation Packet Totp

variable {crypto : Crypto} {process process' : Process} {outputs : List Output}
  {path : Nat}

/-- The worker of the current socket decrypts with the token of the path, and takes
every packet sent under it: replies are answers under the token they answer to. -/
def RepliesTaken (crypto : Crypto) (process : Process) (path : Nat) : Prop :=
  ∀ sock, (process.ctx.paths path).sock = some sock →
    ∃ worker, process.workers[sock]? = some worker ∧
      worker.token = (process.ctx.paths path).token ∧
      ∀ packet data,
        CarriesPacket crypto (process.ctx.paths path).token process.ctx.mtu packet data →
        ∃ after, decapsulate crypto worker.token (worker.pbuf.write 0 data) data.length =
          .ok ((packet.length : Int), after)

/-- A step leaves a path as it was. -/
structure LeavesPath (crypto : Crypto) (process process' : Process) (path : Nat) :
    Prop where
  sock : (process'.ctx.paths path).sock = (process.ctx.paths path).sock
  remote : (process'.ctx.paths path).remote = (process.ctx.paths path).remote
  token : (process'.ctx.paths path).token = (process.ctx.paths path).token
  alive : (process'.ctx.paths path).alive = (process.ctx.paths path).alive
  replies : RepliesTaken crypto process path → RepliesTaken crypto process' path

/-- The steps of a worker of the path whose `udplisten` fails: of a client, its start
and the return of `ipremote`; of a server, its start alone. -/
def FailingWorker (process : Process) (path : Nat) : Event → Prop
  | .hop _ _ _ => process.ctx.mode = .client ∧ process.hopNext = some path
  | .resolved index _ none =>
      ∃ worker, process.workers[index]? = some worker ∧ worker.path = path
  | .start _ _ none => process.ctx.mode = .server ∧
      ∃ port starts, process.starts = .udpWorker path port :: starts
  | _ => False

/-- What the worker writes before `udplisten` is what the path holds already. -/
def WritesNothingNew (process : Process) (path : Nat) : Event → Prop
  | .resolved index remote _ => (process.ctx.paths path).remote = remote ∧
      ∃ worker, process.workers[index]? = some worker ∧
        worker.token = (process.ctx.paths path).token
  | .start _ _ _ => (process.ctx.paths path).alive = 0
  | _ => True

/-- The same triple, and workers with the same tokens and buffers: replies are taken
as before. -/
theorem RepliesTaken.of_same (htaken : RepliesTaken crypto process path)
    (hmtu : process'.ctx.mtu = process.ctx.mtu)
    (hsock : (process'.ctx.paths path).sock = (process.ctx.paths path).sock)
    (htoken : (process'.ctx.paths path).token = (process.ctx.paths path).token)
    (hworkers : ∀ (sock : Nat) (worker : Worker), process.workers[sock]? = some worker →
      ∃ worker' : Worker, process'.workers[sock]? = some worker' ∧ worker'.token = worker.token ∧
        worker'.pbuf = worker.pbuf) : RepliesTaken crypto process' path := by
  intro sock hcurrent
  rw [hsock] at hcurrent
  obtain ⟨worker, hworker, hown, hreplies⟩ := htaken sock hcurrent
  obtain ⟨worker', hworker', hsameToken, hsameBuffer⟩ := hworkers sock worker hworker
  refine ⟨worker', hworker', ?_, ?_⟩
  · rw [hsameToken, htoken]
    exact hown
  · rw [hsameToken, hsameBuffer, htoken, hmtu]
    exact hreplies

/-- A client's worker after `ipremote`, when it cannot bind. -/
theorem resolved_leavesPath_iff {index : Nat} {worker : Worker} {remote : IpAddr}
    (hworker : process.workers[index]? = some worker) (hpath : worker.path = path) :
    LeavesPath crypto process (resolveWorker process index worker remote none) path ↔
      (process.ctx.paths path).remote = remote ∧
        worker.token = (process.ctx.paths path).token := by
  subst hpath
  have hwritten : (resolveWorker process index worker remote none).ctx.paths worker.path =
      { process.ctx.paths worker.path with remote := remote, token := worker.token } := by
    simp only [resolveWorker, bindWorker, Ctx.paths_updatePath_same]
  have hlength : index < process.workers.length := (List.getElem?_eq_some_iff.mp hworker).1
  constructor
  · intro hleaves
    have hremote := hleaves.remote
    have htoken := hleaves.token
    rw [hwritten] at hremote htoken
    exact ⟨hremote.symm, htoken⟩
  · rintro ⟨hremote, htoken⟩
    have hsame : (resolveWorker process index worker remote none).ctx.paths worker.path =
        process.ctx.paths worker.path := by
      rw [hwritten, ← hremote, htoken]
    refine ⟨by rw [hsame], by rw [hsame], by rw [hsame], by rw [hsame], fun htaken => ?_⟩
    refine htaken.of_same rfl (by rw [hsame]) (by rw [hsame]) fun sock owner howner => ?_
    by_cases hself : index = sock
    · -- the failed worker itself: only its state is another
      subst hself
      rw [hworker] at howner
      cases howner
      exact ⟨{ worker with state := .failed }, List.getElem?_set_self hlength, rfl, rfl⟩
    · refine ⟨owner, ?_, rfl, rfl⟩
      show (process.workers.set index _)[sock]? = some owner
      rw [List.getElem?_set_ne hself]
      exact howner

/-- A server's worker at its start, when it cannot bind. -/
theorem started_leavesPath_iff (hserver : process.ctx.mode = .server) (starts : List Start)
    (port now : Int) (stack : Pbuf) :
    LeavesPath crypto process
        (runStart { process with starts := starts } (.udpWorker path port) stack now none)
        path ↔
      (process.ctx.paths path).alive = 0 := by
  have hwritten : (runStart { process with starts := starts } (.udpWorker path port) stack now
      none).ctx.paths path = { process.ctx.paths path with alive := 0 } := by
    simp only [runStart, startWorker, hserver, bindWorker, Ctx.paths_updatePath_same]
  constructor
  · intro hleaves
    have halive := hleaves.alive
    rw [hwritten] at halive
    exact halive.symm
  · intro hdead
    have hsame : (runStart { process with starts := starts } (.udpWorker path port) stack now
        none).ctx.paths path = process.ctx.paths path := by
      rw [hwritten, ← hdead]
    refine ⟨by rw [hsame], by rw [hsame], by rw [hsame], by rw [hsame], fun htaken => ?_⟩
    refine htaken.of_same ?_ (by rw [hsame]) (by rw [hsame]) fun sock owner howner => ?_
    · simp only [runStart, startWorker, hserver, bindWorker, Ctx.mtu_updatePath]
    · have hlength : sock < process.workers.length := (List.getElem?_eq_some_iff.mp howner).1
      refine ⟨owner, ?_, rfl, rfl⟩
      simp only [runStart, startWorker, hserver, bindWorker]
      rw [List.getElem?_set_ne (by omega), List.getElem?_append_left hlength]
      exact howner

/-- **When a failed bind leaves the path as it was.**  Exactly when the worker's
remote and token, or the dead `alive` of a server, are what the path holds already. -/
theorem bindFailure_leavesPath_iff (crypto : Crypto) (process process' : Process)
    (outputs : List Output) (path : Nat) (event : Event)
    (hfails : FailingWorker process path event)
    (hstep : step crypto process event = some (.ok (process', outputs))) :
    LeavesPath crypto process process' path ↔ WritesNothingNew process path event := by
  cases event with
  | hop clock stack now =>
      -- A client's worker waits in `ipremote` before it writes anything.
      obtain ⟨hclient, -⟩ := hfails
      obtain ⟨next, -, -, rfl, -⟩ := step_hop hstep
      refine iff_of_true ?_ trivial
      have hctx := (startWorker_client { process with hopNext := some (next + 1) } hclient
        next (totp crypto (process.ctx.paths next).portRange clock 0) 5000 now stack none).2
      refine ⟨by rw [hctx], by rw [hctx], by rw [hctx], by rw [hctx], fun htaken => ?_⟩
      refine htaken.of_same (by rw [hctx]) (by rw [hctx]) (by rw [hctx])
        fun sock owner howner => ⟨owner, ?_, rfl, rfl⟩
      simp only [startWorker, hclient]
      rw [List.getElem?_append_left (List.getElem?_eq_some_iff.mp howner).1]
      exact howner
  | resolved index remote listen =>
      cases listen with
      | some bound => exact hfails.elim
      | none =>
          obtain ⟨worker, hworker, hpath⟩ := hfails
          obtain ⟨worker', hworker', -, rfl, -⟩ := step_resolved hstep
          rw [hworker] at hworker'
          cases hworker'
          rw [resolved_leavesPath_iff hworker hpath]
          refine and_congr_right fun _ => ⟨fun htoken => ⟨worker, hworker, htoken⟩, ?_⟩
          rintro ⟨owner, howner, htoken⟩
          rw [hworker] at howner
          cases howner
          exact htoken
  | start stack now listen =>
      cases listen with
      | some bound => exact hfails.elim
      | none =>
          obtain ⟨hserver, port, starts, hstarts⟩ := hfails
          obtain ⟨start, rest, hnext, rfl, -⟩ := step_start hstep
          rw [hstarts] at hnext
          cases hnext
          exact started_leavesPath_iff hserver starts port now stack
  | hopWake | received | receiveError | timeout | tunRead | tunReadError | heartbeat =>
      exact hfails.elim

/-! ## A client that cannot bind its second socket -/

/-- A client with a hundred ports. -/
def hundredPorts : Conf := { onePathConf .client with paths := [⟨"192.0.2.1", 1200, 1299⟩] }

/-- The first worker binds its socket. -/
def firstBound : List Event :=
  [.start (Reference.bufferOf []) 0 none,
    .hop (Timeval.ofMilliseconds 10000) (Reference.bufferOf []) 0,
    .resolved 0 ⟨1, 1200⟩ (some ⟨2, 5000⟩)]

/-- The second worker starts, with the token of the next time step. -/
def secondStarted : List Event :=
  [.hopWake, .hop (Timeval.ofMilliseconds 10500) (Reference.bufferOf []) 500]

/-- Its name resolves and `udplisten` fails. -/
def secondFails : Event := .resolved 1 ⟨1, 1200⟩ none

/-- With a single port the token is the same, and nothing has happened. -/
theorem bindFailure_leavesPath_singlePort :
    ∃ process process', Reachable (peer Reference.crypto (onePathConf .client)) process ∧
      FailingWorker process 0 secondFails ∧
      step Reference.crypto process secondFails = some (.ok (process', [])) ∧
      LeavesPath Reference.crypto process process' 0 := by
  have hruns : ((run (nextProcess Reference.crypto) (vpnRun (onePathConf .client))
      (firstBound ++ secondStarted)).any fun process =>
        (process.ctx.paths 0).remote == ⟨1, 1200⟩ && (process.ctx.paths 0).token == 0 &&
          (process.workers[1]?).any fun worker =>
            worker.state == .resolving && worker.path == 0 && worker.token == 0) = true := by
    decide +kernel
  obtain ⟨process, hrun, hstarted⟩ := (Option.any_eq_true _ _).mp hruns
  simp only [Bool.and_eq_true, beq_iff_eq, Option.any_eq_true] at hstarted
  obtain ⟨⟨hremote, htoken⟩, worker, hworker, ⟨hstate, hpath⟩, hown⟩ := hstarted
  have hreach : Reachable (peer Reference.crypto (onePathConf .client)) process :=
    Reachable.run (fun _ _ _ => nextProcess_eq_some.mp) (.initial rfl) hrun
  have hfails : FailingWorker process 0 secondFails := ⟨worker, hworker, hpath⟩
  have hstep : step Reference.crypto process secondFails =
      some (.ok (resolveWorker process 1 worker ⟨1, 1200⟩ none, [])) := by
    simp only [step, secondFails, hworker, if_pos hstate]
  refine ⟨process, _, hreach, hfails, hstep, ?_⟩
  exact (bindFailure_leavesPath_iff Reference.crypto process _ [] 0 secondFails hfails
    hstep).mpr ⟨hremote, worker, hworker, hown.trans htoken.symm⟩

/-- With more ports the path has the new worker's token and the old one's socket. -/
theorem exists_not_leavesPath :
    ¬ ∀ (crypto : Crypto) (conf : Conf) (process process' : Process) (outputs : List Output)
        (path : Nat) (event : Event), Reachable (peer crypto conf) process →
        FailingWorker process path event →
        step crypto process event = some (.ok (process', outputs)) →
        LeavesPath crypto process process' path := by
  intro hall
  have hruns : ((run (nextProcess Reference.crypto) (vpnRun hundredPorts)
      (firstBound ++ secondStarted)).any fun process =>
        (process.ctx.paths 0).token == 34 &&
          (process.workers[1]?).any fun worker =>
            worker.state == .resolving && worker.path == 0 && worker.token == 22) = true := by
    decide +kernel
  obtain ⟨process, hrun, hstarted⟩ := (Option.any_eq_true _ _).mp hruns
  simp only [Bool.and_eq_true, beq_iff_eq, Option.any_eq_true] at hstarted
  obtain ⟨htoken, worker, hworker, ⟨hstate, hpath⟩, hown⟩ := hstarted
  have hreach : Reachable (peer Reference.crypto hundredPorts) process :=
    Reachable.run (fun _ _ _ => nextProcess_eq_some.mp) (.initial rfl) hrun
  have hstep : step Reference.crypto process secondFails =
      some (.ok (resolveWorker process 1 worker ⟨1, 1200⟩ none, [])) := by
    simp only [step, secondFails, hworker, if_pos hstate]
  have hleaves := hall Reference.crypto hundredPorts process _ [] 0 secondFails hreach
    ⟨worker, hworker, hpath⟩ hstep
  have hsame := ((resolved_leavesPath_iff hworker hpath).mp hleaves).2
  rw [hown, htoken] at hsame
  cases hsame

end Vpn
end Muon
