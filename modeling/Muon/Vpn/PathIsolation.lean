import Muon.Foundation.Simulation
import Muon.Vpn.FairShare
import Muon.Vpn.ServerHistory

/-!
# Paths do not disturb one another

The coroutines share one context, and a peer takes datagrams from anyone on every port of
every path.  Still nothing that happens on one path, and no packet of the TUN device,
shows on another one: take these events out of a run, and what is left is a run again,
with the same path, the same workers of the path, and the same answer of these workers to
whatever arrives next.

The peer is simulated by itself: an event that does not concern the path is matched by no
step at all.
-/

namespace Muon
namespace Vpn

open Foundation Packet Totp

variable {crypto : Crypto} {conf : Conf} {process process' low : Process}
  {outputs : List Output} {path : Nat}

/-! ## What concerns a path -/

/-- All events but those of the TUN device and of the workers of other paths. -/
def concerns (path : Nat) (process : Process) : Event → Bool
  | .tunRead _ _ | .tunReadError => false
  | .resolved index _ _ | .received index _ _ | .receiveError index | .timeout index _ =>
      (process.workers[index]?).any fun worker => worker.path == path
  | .start _ _ _ | .hop _ _ _ | .hopWake | .heartbeat _ _ => true

/-- The event of a step, when it concerns the path. -/
def concerning (path : Nat) (step : Step Process Event) : List Event :=
  if concerns path step.before step.event then [step.event] else []

/-- A worker as its path sees it: of a worker of another path only that it is one. -/
def seenFrom (path : Nat) (worker : Worker) : Nat × Option Worker :=
  (worker.path, if worker.path = path then some worker else none)

theorem SameConf.symm {ctx ctx' : Ctx} (hsame : SameConf ctx ctx') : SameConf ctx' ctx :=
  ⟨hsame.mode.symm, hsame.mtu.symm, hsame.pathCount.symm, fun i => (hsame.server i).symm,
    fun i => (hsame.portStart i).symm, fun i => (hsame.portRange i).symm⟩

/-- Steps from contexts with the same configuration lead to such contexts. -/
theorem SameConf.both {ctx ctx' low low' : Ctx} (hsame : SameConf ctx low)
    (hstep : SameConf ctx ctx') (hlow : SameConf low low') : SameConf ctx' low' :=
  (SameConf.symm hstep).trans (hsame.trans hlow)

/-- Two peers that a path cannot tell apart. -/
structure SameOnPath (path : Nat) (process low : Process) : Prop where
  conf : SameConf process.ctx low.ctx
  starts : low.starts = process.starts
  hopNext : low.hopNext = process.hopNext
  heartbeat : low.heartbeat.isSome = process.heartbeat.isSome
  workers : low.workers.map (seenFrom path) = process.workers.map (seenFrom path)
  path : low.ctx.paths path = process.ctx.paths path

theorem SameOnPath.refl (path : Nat) (process : Process) : SameOnPath path process process :=
  ⟨.refl _, rfl, rfl, rfl, rfl, rfl⟩

/-- The workers of the path are the same ones. -/
theorem worker_of_seenFrom {workers lows : List Worker}
    (hseen : lows.map (seenFrom path) = workers.map (seenFrom path)) {index : Nat}
    {worker : Worker} (hworker : workers[index]? = some worker) (hpath : worker.path = path) :
    lows[index]? = some worker := by
  have hat : (lows[index]?).map (seenFrom path) = some (path, some worker) := by
    rw [← List.getElem?_map, hseen, List.getElem?_map, hworker, Option.map_some, seenFrom,
      if_pos hpath, hpath]
  obtain ⟨other, hother, heq⟩ := Option.map_eq_some_iff.mp hat
  obtain ⟨hpath', hsome⟩ := Prod.mk.inj heq
  rw [if_pos hpath'] at hsome
  rw [hother, Option.some.inj hsome]

/-- A worker of another path may change, as long as it stays there. -/
theorem seenFrom_set {workers : List Worker} {index : Nat} {worker worker' : Worker}
    (hworker : workers[index]? = some worker) (hother : worker.path ≠ path)
    (hsame : worker'.path = worker.path) :
    (workers.set index worker').map (seenFrom path) = workers.map (seenFrom path) := by
  have hseen : seenFrom path worker' = seenFrom path worker := by
    simp only [seenFrom, hsame, if_neg hother]
  apply List.ext_getElem?
  intro i
  rw [List.getElem?_map, List.getElem?_map, List.getElem?_set]
  rcases eq_or_ne index i with rfl | hne
  · have hlength := (List.getElem?_eq_some_iff.mp hworker).1
    rw [if_pos rfl, if_pos hlength, hworker, Option.map_some, Option.map_some, hseen]
  · rw [if_neg hne]

/-! ## Events that do not concern the path -/

theorem resolveWorker_other {index : Nat} {worker : Worker} (remote : IpAddr)
    (listen : Option IpAddr) (hother : worker.path ≠ path) :
    (resolveWorker process index worker remote listen).ctx.paths path =
      process.ctx.paths path := by
  cases listen with
  | none =>
      simp only [resolveWorker, bindWorker]
      rw [Ctx.paths_updatePath_of_ne _ _ _ hother.symm]
  | some bound =>
      simp only [resolveWorker, bindWorker]
      rw [Ctx.paths_updatePath_of_ne _ _ _ hother.symm,
        Ctx.paths_updatePath_of_ne _ _ _ hother.symm]

theorem acceptDatagram_other (ctx : Ctx) (index : Nat) (worker : Worker) (source : IpAddr)
    (n : Int) (hother : worker.path ≠ path) :
    (acceptDatagram ctx index worker source n).paths path = ctx.paths path := by
  unfold acceptDatagram
  rw [Ctx.paths_updatePath_of_ne _ _ _ hother.symm]
  cases (countReceived ctx n).mode with
  | server => exact Ctx.paths_updatePath_of_ne _ _ _ hother.symm
  | client => rfl

/-- Other paths do not see a step that does not concern them. -/
theorem SameOnPath.hidden (hsame : SameOnPath path process low) {event : Event}
    (hstep : step crypto process event = some (.ok (process', outputs)))
    (hhidden : concerns path process event = false) : SameOnPath path process' low := by
  have hconf : SameConf process'.ctx low.ctx := hsame.conf.both (step_sameConf hstep) (.refl _)
  -- the worker of the event is on another path
  have hother : ∀ {index : Nat} {worker : Worker}, process.workers[index]? = some worker →
      ((process.workers[index]?).any fun worker => worker.path == path) = false →
      worker.path ≠ path := by
    intro index worker hworker hany heq
    rw [hworker, Option.any_some, heq, beq_self_eq_true] at hany
    cases hany
  cases event with
  | tunRead packet draws =>
      obtain ⟨pbuf, place, next, pbuf', -, -, -, -, hsend, rfl⟩ := step_tunRead hstep
      have hpaths := udpSender_paths hsend
      obtain ⟨hstarts, hhop, hheartbeat, hworkers⟩ :
          next.starts = process.starts ∧ next.hopNext = process.hopNext ∧
            next.heartbeat = process.heartbeat ∧ next.workers = process.workers := by
        simp only [udpSender] at hsend
        split at hsend
        · cases hsend
        · split at hsend <;> cases hsend <;> exact ⟨rfl, rfl, rfl, rfl⟩
      refine ⟨hconf, hsame.starts.trans hstarts.symm, hsame.hopNext.trans hhop.symm, ?_, ?_, ?_⟩
      · rw [hsame.heartbeat, ← hheartbeat]
      · rw [hsame.workers, ← hworkers]
      · rw [hsame.path, ← hpaths]
  | tunReadError =>
      obtain ⟨pbuf, -, rfl, -⟩ := step_tunReadError hstep
      exact ⟨hconf, hsame.starts, hsame.hopNext, hsame.heartbeat, hsame.workers, hsame.path⟩
  | resolved index remote listen =>
      obtain ⟨worker, hworker, -, rfl, -⟩ := step_resolved hstep
      have hne := hother hworker hhidden
      refine ⟨hconf, ?_, ?_, ?_, ?_, ?_⟩
      · cases listen <;> exact hsame.starts
      · cases listen <;> exact hsame.hopNext
      · cases listen <;> exact hsame.heartbeat
      · rw [hsame.workers]
        cases listen with
        | none => exact (seenFrom_set hworker hne (by rfl)).symm
        | some bound => exact (seenFrom_set hworker hne (by rfl)).symm
      · rw [hsame.path, resolveWorker_other remote listen hne]
  | received index source bytes =>
      obtain ⟨worker, hworker, -, hreceive⟩ := step_received hstep
      have hne := hother hworker hhidden
      obtain ⟨pbuf, ⟨rfl, -⟩ | ⟨n, data, -, -, -, -, -, rfl, -⟩⟩ :=
        receiveDatagram_cases hreceive
      · refine ⟨hconf, hsame.starts, hsame.hopNext, hsame.heartbeat, ?_, hsame.path⟩
        rw [hsame.workers]
        exact (seenFrom_set hworker hne (by rfl)).symm
      · refine ⟨hconf, hsame.starts, hsame.hopNext, hsame.heartbeat, ?_, ?_⟩
        · rw [hsame.workers]
          exact (seenFrom_set hworker hne (by rfl)).symm
        · rw [hsame.path]
          exact (acceptDatagram_other process.ctx index { worker with pbuf := pbuf } source n
            hne).symm
  | receiveError index =>
      obtain ⟨worker, -, -, rfl, -⟩ := step_receiveError hstep
      exact hsame
  | timeout index now =>
      obtain ⟨worker, hworker, -, -, -, rfl, -⟩ := step_timeout hstep
      unfold receiveTimeout
      split
      · exact hsame
      · refine ⟨hsame.conf, hsame.starts, hsame.hopNext, hsame.heartbeat, ?_, hsame.path⟩
        rw [hsame.workers]
        exact (seenFrom_set hworker (hother hworker hhidden) (by rfl)).symm
  | start | hop | hopWake | heartbeat => cases hhidden

/-! ## Events that concern the path -/

/-- What a round of `heartbeat` does to a path. -/
def beat (crypto : Crypto) (readings : Nat → Timeval) (path : PathCtx) : PathCtx :=
  { path with
    validTokens := refreshTokens crypto path.portRange readings path.validTokens
    alive := if 0 < path.alive then path.alive - 1 else path.alive }

theorem heartbeatPath_paths (crypto : Crypto) (readings : Nat → Timeval) (draws : Draws)
    (path : Nat) (ctx : Ctx) (pbuf : Pbuf) (i : Nat) :
    (heartbeatPath crypto readings draws path ctx pbuf).1.paths i =
      if i = path then beat crypto readings (ctx.paths i) else ctx.paths i := by
  have hsent : ∀ ctx : Ctx, (sendHeartbeat crypto draws path ctx pbuf).1.paths = ctx.paths := by
    intro ctx
    unfold sendHeartbeat
    split
    · split <;> rfl
    · rfl
  have hcounted : ∀ ctx ctx' : Ctx, ctx'.paths = ctx.paths →
      (countDown path ctx').paths i = (countDown path ctx).paths i := by
    intro ctx ctx' hpaths
    unfold countDown
    rw [hpaths]
    split
    · simp only [Ctx.updatePath, hpaths]
    · rw [hpaths]
  simp only [heartbeatPath]
  rw [hcounted _ _ (hsent (refreshPath crypto readings path ctx))]
  rcases eq_or_ne i path with rfl | hne
  · rw [if_pos rfl]
    simp only [countDown, refreshPath, Ctx.paths_updatePath_same, beat]
    split
    · rw [Ctx.paths_updatePath_same, Ctx.paths_updatePath_same]
    · rw [Ctx.paths_updatePath_same]
  · rw [if_neg hne]
    unfold countDown refreshPath
    split
    · rw [Ctx.paths_updatePath_of_ne _ _ _ hne, Ctx.paths_updatePath_of_ne _ _ _ hne]
    · rw [Ctx.paths_updatePath_of_ne _ _ _ hne]

/-- A round treats equal paths alike, whatever is in the buffers and the counters. -/
theorem heartbeatPaths_alike (crypto : Crypto) (readings : Nat → Nat → Timeval)
    (draws : Nat → Draws) (paths : List Nat) {ctx low : Ctx} (pbuf pbuf' : Pbuf)
    (hsame : low.paths path = ctx.paths path) :
    (heartbeatPaths crypto readings draws paths low pbuf').1.paths path =
      (heartbeatPaths crypto readings draws paths ctx pbuf).1.paths path := by
  induction paths generalizing ctx low pbuf pbuf' with
  | nil => exact hsame
  | cons first paths ih =>
      simp only [heartbeatPaths]
      apply ih
      rw [heartbeatPath_paths, heartbeatPath_paths, hsame]

theorem updatePath_alike {ctx low : Ctx} (hsame : low.paths path = ctx.paths path)
    (target : Nat) (assign : PathCtx → PathCtx) :
    (low.updatePath target assign).paths path = (ctx.updatePath target assign).paths path := by
  rcases eq_or_ne path target with rfl | hne
  · rw [Ctx.paths_updatePath_same, Ctx.paths_updatePath_same, hsame]
  · rw [Ctx.paths_updatePath_of_ne _ _ _ hne, Ctx.paths_updatePath_of_ne _ _ _ hne, hsame]

/-- Both assign alike to a path. -/
theorem SameOnPath.updatePath (hsame : SameOnPath path process low) (target : Nat)
    {assign : PathCtx → PathCtx}
    (hassign : ∀ p, (assign p).server = p.server ∧ (assign p).portStart = p.portStart ∧
      (assign p).portRange = p.portRange) :
    SameOnPath path { process with ctx := process.ctx.updatePath target assign }
      { low with ctx := low.ctx.updatePath target assign } where
  conf := hsame.conf.both (sameConf_updatePath process.ctx target hassign)
    (sameConf_updatePath low.ctx target hassign)
  starts := hsame.starts
  hopNext := hsame.hopNext
  heartbeat := hsame.heartbeat
  workers := hsame.workers
  path := updatePath_alike hsame.path target assign

/-- The same worker changes in both. -/
theorem SameOnPath.setWorker (hsame : SameOnPath path process low) (index : Nat)
    (worker : Worker) :
    SameOnPath path { process with workers := process.workers.set index worker }
      { low with workers := low.workers.set index worker } where
  conf := hsame.conf
  starts := hsame.starts
  hopNext := hsame.hopNext
  heartbeat := hsame.heartbeat
  workers := by rw [List.map_set, List.map_set, hsame.workers]
  path := hsame.path

/-- Both start a worker. -/
theorem SameOnPath.addWorker (hsame : SameOnPath path process low) (worker : Worker) :
    SameOnPath path { process with workers := process.workers ++ [worker] }
      { low with workers := low.workers ++ [worker] } where
  conf := hsame.conf
  starts := hsame.starts
  hopNext := hsame.hopNext
  heartbeat := hsame.heartbeat
  workers := by rw [List.map_append, List.map_append, hsame.workers]
  path := hsame.path

theorem sameOnPath_bindWorker (hsame : SameOnPath path process low) (index : Nat)
    (worker : Worker) (listen : Option IpAddr) :
    SameOnPath path (bindWorker process index worker listen)
      (bindWorker low index worker listen) := by
  cases listen with
  | none => exact hsame.setWorker index { worker with state := .failed }
  | some bound =>
      exact (hsame.setWorker index { worker with state := .receiving, bound := bound }).updatePath
        worker.path fun _ => ⟨rfl, rfl, rfl⟩

theorem sameOnPath_startWorker (hsame : SameOnPath path process low) (target : Nat)
    (token timeout now : Int) (stack : Pbuf) (listen : Option IpAddr) :
    SameOnPath path (startWorker process target token timeout now stack listen)
      (startWorker low target token timeout now stack listen) := by
  have hport : (low.ctx.paths target).portStart = (process.ctx.paths target).portStart :=
    hsame.conf.portStart target
  have hlength : low.workers.length = process.workers.length := by
    have hmaps := congrArg List.length hsame.workers
    rwa [List.length_map, List.length_map] at hmaps
  cases hmode : process.ctx.mode with
  | client =>
      have hlow : low.ctx.mode = .client := hsame.conf.mode.trans hmode
      simp only [startWorker, hmode, hlow, hport]
      exact hsame.addWorker _
  | server =>
      have hlow : low.ctx.mode = .server := hsame.conf.mode.trans hmode
      simp only [startWorker, hmode, hlow, hport, hlength]
      refine sameOnPath_bindWorker ((hsame.addWorker _).updatePath target ?_) _ _ listen
      exact fun _ => ⟨rfl, rfl, rfl⟩

theorem sameOnPath_runStart (hsame : SameOnPath path process low) (start : Start) (stack : Pbuf)
    (now : Int) (listen : Option IpAddr) :
    SameOnPath path (runStart process start stack now listen)
      (runStart low start stack now listen) := by
  cases start with
  | clientHop =>
      exact ⟨hsame.conf, hsame.starts, rfl, hsame.heartbeat, hsame.workers, hsame.path⟩
  | udpWorker target port => exact sameOnPath_startWorker hsame target port (-1) now stack listen
  | tunWorker =>
      exact ⟨hsame.conf, hsame.starts, hsame.hopNext, hsame.heartbeat, hsame.workers, hsame.path⟩
  | heartbeat =>
      exact ⟨hsame.conf, hsame.starts, hsame.hopNext, rfl, hsame.workers, hsame.path⟩

theorem acceptDatagram_alike {ctx low : Ctx} (hconf : SameConf ctx low)
    (hsame : low.paths path = ctx.paths path) (index : Nat) (worker : Worker)
    (source : IpAddr) (n : Int) :
    (acceptDatagram low index worker source n).paths path =
      (acceptDatagram ctx index worker source n).paths path := by
  have hmode : (countReceived low n).mode = (countReceived ctx n).mode := hconf.mode
  have hcounted : (countReceived low n).paths path = (countReceived ctx n).paths path := hsame
  unfold acceptDatagram
  refine updatePath_alike ?_ _ _
  simp only [hmode]
  cases (countReceived ctx n).mode with
  | server =>
      exact updatePath_alike hcounted worker.path fun path =>
        { path with sock := some index, remote := source, token := worker.token }
  | client => exact hcounted

/-- A worker of the path does the same with a datagram: the same assertion fails, or the
same packets are written. -/
theorem receiveDatagram_alike (crypto : Crypto) (hsame : SameOnPath path process low)
    (index : Nat) {worker : Worker} (hpath : worker.path = path) (source : IpAddr)
    (bytes : List UInt8) :
    match receiveDatagram crypto process index worker source bytes with
    | .error abort => receiveDatagram crypto low index worker source bytes = .error abort
    | .ok (process', outputs) => ∃ low',
        receiveDatagram crypto low index worker source bytes = .ok (low', outputs) ∧
        SameOnPath path process' low' := by
  have hscan : low.ctx.paths worker.path = process.ctx.paths worker.path := by
    rw [hpath, hsame.path]
  have hmtu : low.ctx.mtu = process.ctx.mtu := hsame.conf.mtu
  have hmode : low.ctx.mode = process.ctx.mode := hsame.conf.mode
  unfold receiveDatagram
  simp only [hmtu, hmode, hscan, List.set_set]
  by_cases hrefused : process.ctx.mode = .server ∧
      tokenAccepted (process.ctx.paths worker.path).validTokens worker.token = false
  · simp only [if_pos hrefused]
    exact ⟨_, rfl, hsame.setWorker index _⟩
  simp only [if_neg hrefused]
  generalize bytes.take (toUInt64 (process.ctx.mtu + payloadOffset)) = data
  by_cases hshort : data.length < payloadOffset
  · simp only [if_pos hshort]
    exact ⟨_, rfl, hsame.setWorker index _⟩
  simp only [if_neg hshort]
  cases decapsulate crypto worker.token (worker.pbuf.write 0 data) data.length with
  | error abort => rfl
  | ok result =>
      obtain ⟨n, pbuf⟩ := result
      have haccepted : SameOnPath path
          { process with
            ctx := acceptDatagram process.ctx index { worker with pbuf := pbuf } source n
            workers := process.workers.set index { worker with pbuf := pbuf } }
          { low with
            ctx := acceptDatagram low.ctx index { worker with pbuf := pbuf } source n
            workers := low.workers.set index { worker with pbuf := pbuf } } := by
        have hset := hsame.setWorker index { worker with pbuf := pbuf }
        exact ⟨hsame.conf.both (acceptDatagram_sameTokens _ _ _ _ _).toSameConf
            (acceptDatagram_sameTokens _ _ _ _ _).toSameConf,
          hset.starts, hset.hopNext, hset.heartbeat, hset.workers,
          acceptDatagram_alike hsame.conf hsame.path _ _ _ _⟩
      by_cases hinvalid : n < 0
      · simp only [if_pos hinvalid]
        exact ⟨_, rfl, hsame.setWorker index _⟩
      simp only [if_neg hinvalid]
      by_cases hempty : n = 0
      · simp only [if_pos hempty]
        exact ⟨_, rfl, haccepted⟩
      · simp only [if_neg hempty]
        exact ⟨_, rfl, haccepted⟩

/-- A step that concerns the path is a step of both, and leaves them alike. -/
theorem SameOnPath.visible (hsame : SameOnPath path process low) {event : Event}
    (hstep : step crypto process event = some (.ok (process', outputs)))
    (hvisible : concerns path process event = true) :
    ∃ low' outputs', step crypto low event = some (.ok (low', outputs')) ∧
      SameOnPath path process' low' := by
  -- the worker of the event is on this path, so it is the same one
  have hown : ∀ {index : Nat} {worker : Worker}, process.workers[index]? = some worker →
      ((process.workers[index]?).any fun worker => worker.path == path) = true →
      worker.path = path ∧ low.workers[index]? = some worker := by
    intro index worker hworker hany
    rw [hworker, Option.any_some] at hany
    have hpath := beq_iff_eq.mp hany
    exact ⟨hpath, worker_of_seenFrom hsame.workers hworker hpath⟩
  cases event with
  | start stack now listen =>
      obtain ⟨start, starts, hstarts, rfl, -⟩ := step_start hstep
      have hlow : low.starts = start :: starts := hsame.starts.trans hstarts
      refine ⟨runStart { low with starts := starts } start stack now listen, [], ?_, ?_⟩
      · simp only [step, hlow]
      · apply sameOnPath_runStart
        exact ⟨hsame.conf, rfl, hsame.hopNext, hsame.heartbeat, hsame.workers, hsame.path⟩
  | hop clock stack now =>
      obtain ⟨target, hnext, htarget, rfl, -⟩ := step_hop hstep
      have hlow : low.hopNext = some target := hsame.hopNext.trans hnext
      have hcount : target < low.ctx.pathCount := hsame.conf.pathCount ▸ htarget
      refine ⟨startWorker { low with hopNext := some (target + 1) } target
        (totp crypto (low.ctx.paths target).portRange clock 0) 5000 now stack none, [], ?_, ?_⟩
      · simp only [step, hlow, if_pos hcount]
      · rw [hsame.conf.portRange]
        apply sameOnPath_startWorker
        exact ⟨hsame.conf, hsame.starts, rfl, hsame.heartbeat, hsame.workers, hsame.path⟩
  | hopWake =>
      obtain ⟨target, hnext, htarget, rfl, -⟩ := step_hopWake hstep
      have hlow : low.hopNext = some target := hsame.hopNext.trans hnext
      have hcount : ¬ target < low.ctx.pathCount := by
        rw [hsame.conf.pathCount]
        omega
      refine ⟨{ low with hopNext := some 0 }, [], ?_, ?_⟩
      · simp only [step, hlow, if_neg hcount]
      · exact ⟨hsame.conf, hsame.starts, rfl, hsame.heartbeat, hsame.workers, hsame.path⟩
  | resolved index remote listen =>
      obtain ⟨worker, hworker, hstate, rfl, -⟩ := step_resolved hstep
      obtain ⟨-, hlow⟩ := hown hworker hvisible
      refine ⟨resolveWorker low index worker remote listen, [], ?_, ?_⟩
      · simp only [step, hlow, if_pos hstate]
      · refine sameOnPath_bindWorker (hsame.updatePath worker.path ?_) index worker listen
        exact fun _ => ⟨rfl, rfl, rfl⟩
  | received index source bytes =>
      obtain ⟨worker, hworker, hstate, hreceive⟩ := step_received hstep
      obtain ⟨hpath, hlow⟩ := hown hworker hvisible
      have halike := receiveDatagram_alike crypto hsame index hpath source bytes
      rw [hreceive] at halike
      obtain ⟨low', hlow', hsame'⟩ := halike
      refine ⟨low', outputs, ?_, hsame'⟩
      simp only [step, hlow, if_pos hstate, hlow']
  | receiveError index =>
      obtain ⟨worker, hworker, hstate, rfl, -⟩ := step_receiveError hstep
      obtain ⟨-, hlow⟩ := hown hworker hvisible
      refine ⟨low, [], ?_, hsame⟩
      simp only [step, hlow, if_pos hstate]
  | timeout index now =>
      obtain ⟨worker, hworker, hstate, hdeadline, hnow, rfl, -⟩ := step_timeout hstep
      obtain ⟨hpath, hlow⟩ := hown hworker hvisible
      refine ⟨receiveTimeout low index worker, [], ?_, ?_⟩
      · simp only [step, hlow, if_pos (And.intro hstate (And.intro hdeadline hnow))]
      · unfold receiveTimeout
        rw [hsame.conf.mode, hpath, hsame.path]
        split
        · exact hsame
        · exact hsame.setWorker index _
  | heartbeat readings draws =>
      obtain ⟨pbuf, ctx, pbuf', hheartbeat, hround, rfl⟩ := step_heartbeat hstep
      obtain ⟨lowPbuf, hlow⟩ : ∃ lowPbuf, low.heartbeat = some lowPbuf := by
        apply Option.isSome_iff_exists.mp
        rw [hsame.heartbeat, hheartbeat]
        rfl
      have hstepLow : step crypto low (.heartbeat readings draws) = some (.ok
          ({ low with
              ctx := (heartbeatPaths crypto readings draws (List.range low.ctx.pathCount)
                low.ctx lowPbuf).1
              heartbeat := some (heartbeatPaths crypto readings draws
                (List.range low.ctx.pathCount) low.ctx lowPbuf).2.1 },
            (heartbeatPaths crypto readings draws (List.range low.ctx.pathCount)
              low.ctx lowPbuf).2.2)) := by
        simp only [step, hlow]
      refine ⟨_, _, hstepLow, ?_, hsame.starts, hsame.hopNext, rfl, hsame.workers, ?_⟩
      · exact hsame.conf.both (step_sameConf hstep) (step_sameConf hstepLow)
      · have halike := heartbeatPaths_alike crypto readings draws
          (List.range process.ctx.pathCount) pbuf lowPbuf hsame.path
        rw [hround] at halike
        rw [hsame.conf.pathCount]
        exact halike
  | tunRead | tunReadError => cases hvisible

/-- A path sees the peer as a peer to which nothing else happens. -/
theorem peer_simulates_itself (crypto : Crypto) (conf : Conf) (path : Nat) :
    Simulation (peer crypto conf) (peer crypto conf) (concerning path) (SameOnPath path) where
  initial := fun process hinitial => ⟨process, hinitial, .refl path process⟩
  step := by
    rintro process event process' low - hsame ⟨outputs, hstep⟩
    unfold concerning
    cases hconcerns : concerns path process event with
    | false => exact ⟨low, .nil, hsame.hidden hstep hconcerns⟩
    | true =>
        obtain ⟨low', outputs', hlow, hsame'⟩ := hsame.visible hstep hconcerns
        exact ⟨low', .single ⟨outputs', hlow⟩, hsame'⟩

/-- What a peer does with a datagram: nothing is possible, an assertion fails, or it
writes packets. -/
def reaction (crypto : Crypto) (process : Process) (event : Event) :
    Option (Except Abort (List Output)) :=
  (step crypto process event).map (Except.map Prod.snd)

/-- **Paths are isolated.**  Take from any run of a peer the packets of the TUN device and
everything that happened to the workers of other paths: it is a run still, and it ends
with the same path, the same workers on it, and the same reaction of each of them to any
datagram. -/
theorem paths_isolated (crypto : Crypto) (conf : Conf) (steps : List (Step Process Event))
    (process : Process) (hrun : History (peer crypto conf) steps process) (path : Nat) :
    ∃ low, Path (peer crypto conf) (vpnRun conf) (observed (concerning path) steps) low ∧
      low.ctx.paths path = process.ctx.paths path ∧
      ∀ index worker, worker.path = path →
        (low.workers[index]? = some worker ↔ process.workers[index]? = some worker) ∧
          (process.workers[index]? = some worker → ∀ source bytes,
            reaction crypto low (.received index source bytes) =
              reaction crypto process (.received index source bytes)) := by
  obtain ⟨first, low, rfl, hpath, hsame⟩ :=
    (peer_simulates_itself crypto conf path).history hrun
  refine ⟨low, hpath, hsame.path, fun index worker howns => ⟨⟨fun hlow => ?_, fun hworker => ?_⟩,
    fun hworker source bytes => ?_⟩⟩
  · exact worker_of_seenFrom hsame.workers.symm hlow howns
  · exact worker_of_seenFrom hsame.workers hworker howns
  have hlow := worker_of_seenFrom hsame.workers hworker howns
  have halike := receiveDatagram_alike crypto hsame index howns source bytes
  simp only [reaction, step, hworker, hlow]
  by_cases hstate : worker.state = .receiving
  · rw [if_pos hstate, if_pos hstate]
    split at halike
    · next abort hreceive => rw [hreceive, halike]
    · next process' outputs hreceive =>
        obtain ⟨low', hlow', -⟩ := halike
        rw [hreceive, hlow']
        rfl
  · rw [if_neg hstate, if_neg hstate]

/-- A server with a client on both of its paths: without the second one, the first path is
alive all the same. -/
theorem paths_isolated_twoPaths :
    ∃ steps process, History (peer Reference.crypto twoPathConf) steps process ∧
      steps.map Step.event = startTwoPaths.reverse ∧
      ∃ low, Path (peer Reference.crypto twoPathConf) (vpnRun twoPathConf)
          (observed (concerning 0) steps) low ∧
        (low.ctx.paths 0).alive = 5 := by
  have hruns : ((run (nextProcess Reference.crypto) (vpnRun twoPathConf) startTwoPaths).any
      fun process => decide ((process.ctx.paths 0).alive = 5)) = true := by decide +kernel
  obtain ⟨process, hrun, halive⟩ := (Option.any_eq_true _ _).mp hruns
  have hinitial : (peer Reference.crypto twoPathConf).initial (vpnRun twoPathConf) := rfl
  obtain ⟨steps, hhistory, hevents⟩ := exists_history_of_run
    (fun _ _ _ hnext => nextProcess_eq_some.mp hnext) hinitial hrun
  obtain ⟨low, hpath, hsame, -⟩ :=
    paths_isolated Reference.crypto twoPathConf steps process hhistory 0
  refine ⟨steps, process, hhistory, hevents, low, hpath, ?_⟩
  rw [hsame]
  exact of_decide_eq_true halive

end Vpn
end Muon
