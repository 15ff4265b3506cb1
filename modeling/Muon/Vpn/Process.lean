import Muon.Foundation.Loop
import Muon.Foundation.Transition
import Muon.Packet.Sender
import Muon.Vpn.TokenPool

/-!
# The coroutines of one peer

`vpn.c` runs as libmill coroutines that share `ctx` and switch only where they
block: in `ipremote`, `udprecv`, `fdwait`, `msleep`, and at `go`.  A `Process` is
the context together with every coroutine at its switching point, and an event
is what happens between two switching points of one coroutine: the outside world
answers the call it is blocked in, and it runs to its next one.

The events carry the answers: clock readings, random draws, resolved addresses,
whether `udplisten` succeeded, received datagrams.  A worker is known by its
position in `workers`, and so is the socket it opens.
-/

namespace Muon
namespace Vpn

open Foundation Packet Totp

/-- Where a `udp_worker` is. -/
inductive WorkerState where
  /-- Suspended in `ipremote`. -/
  | resolving
  /-- Suspended in `udprecv`, its socket open. -/
  | receiving
  /-- Returned: `udplisten` failed. -/
  | failed
  /-- Returned after `udpclose`. -/
  | closed
  deriving DecidableEq, Repr

/-- A `udp_worker` with its arguments and local variables.  `bound` is the
address of its socket; the source of a datagram stays in the event. -/
structure Worker where
  path : Nat
  token : Int
  deadline : Int
  port : Int
  state : WorkerState
  bound : IpAddr
  pbuf : Pbuf

/-- A `go` call of `vpn_run`. -/
inductive Start where
  | clientHop
  | udpWorker (path : Nat) (port : Int)
  | tunWorker
  | heartbeat

/-- One peer. -/
structure Process where
  ctx : Ctx
  /-- The `go` calls that `vpn_run` has still to make. -/
  starts : List Start
  /-- Every `udp_worker` started so far, the oldest first. -/
  workers : List Worker
  /-- `client_hop`, once started: the next path of its loop. -/
  hopNext : Option Nat
  /-- `heartbeat`, once started: its `pbuf`. -/
  heartbeat : Option Pbuf
  /-- `tun_worker`, while it runs: its `pbuf`. -/
  tun : Option Pbuf
  /-- The static `path` of `udp_sender`. -/
  senderPath : Nat

/-- What a peer gives to the outside world. -/
inductive Output where
  | udpsend (path sock : Nat) (remote : IpAddr) (data : List UInt8)
  | tunWrite (packet : List UInt8)

/-- What happens to a peer. -/
inductive Event where
  /-- `vpn_run` makes its next `go` call; a server worker binds its socket. -/
  | start (stack : Pbuf) (now : Int) (listen : Option IpAddr)
  /-- `client_hop` starts a worker for its next path. -/
  | hop (clock : Timeval) (stack : Pbuf) (now : Int)
  /-- `client_hop` wakes up. -/
  | hopWake
  /-- `ipremote` returns to a client worker, which binds its socket. -/
  | resolved (index : Nat) (remote : IpAddr) (listen : Option IpAddr)
  /-- A datagram arrives at the socket of a worker. -/
  | received (index : Nat) (source : IpAddr) (bytes : List UInt8)
  /-- `udprecv` fails with an error other than a timeout. -/
  | receiveError (index : Nat)
  /-- `udprecv` reaches the deadline of a worker. -/
  | timeout (index : Nat) (now : Int)
  /-- A packet arrives on the TUN device. -/
  | tunRead (packet : List UInt8) (draws : Draws)
  /-- `tun_read` fails. -/
  | tunReadError
  /-- One round of `heartbeat` over all paths. -/
  | heartbeat (readings : Nat → Nat → Timeval) (draws : Nat → Draws)

/-! ## udp_worker -/

/-- `udplisten` and what follows up to the receive loop. -/
def bindWorker (process : Process) (index : Nat) (worker : Worker)
    (listen : Option IpAddr) : Process :=
  match listen with
  | none =>
      -- the worker returns, and what it wrote to its path stays
      { process with workers := process.workers.set index { worker with state := .failed } }
  | some bound =>
      { process with
        ctx := process.ctx.updatePath worker.path fun path => { path with sock := some index }
        workers := process.workers.set index
          { worker with state := .receiving, bound := bound } }

/-- `udp_worker(path, token, timeout)` up to where it first blocks. -/
def startWorker (process : Process) (path : Nat) (token timeout now : Int) (stack : Pbuf)
    (listen : Option IpAddr) : Process :=
  let worker : Worker :=
    { path := path
      token := token
      deadline := if timeout < 0 then -1 else toInt64 (now + timeout)
      port := toInt32 ((process.ctx.paths path).portStart + token)
      state := .resolving
      bound := ⟨0, 0⟩
      pbuf := stack }
  match process.ctx.mode with
  -- a client's worker blocks in `ipremote` before it writes anything
  | .client => { process with workers := process.workers ++ [worker] }
  | .server =>
      bindWorker
        { process with
          ctx := process.ctx.updatePath path fun path => { path with alive := 0 }
          workers := process.workers ++ [worker] }
        process.workers.length worker listen

/-- A client worker after `ipremote`. -/
def resolveWorker (process : Process) (index : Nat) (worker : Worker) (remote : IpAddr)
    (listen : Option IpAddr) : Process :=
  bindWorker
    { process with
      ctx := process.ctx.updatePath worker.path fun path =>
        { path with remote := remote, token := worker.token } }
    index worker listen

/-- The counters of received datagrams. -/
def countReceived (ctx : Ctx) (n : Int) : Ctx :=
  { ctx with
    inPackets := toUInt64 ((ctx.inPackets : Int) + 1)
    inBytes := toUInt64 ((ctx.inBytes : Int) + n) }

/-- The context after a worker accepted a datagram. -/
def acceptDatagram (ctx : Ctx) (index : Nat) (worker : Worker) (source : IpAddr)
    (n : Int) : Ctx :=
  let ctx := countReceived ctx n
  let ctx :=
    match ctx.mode with
    | .server => ctx.updatePath worker.path fun path =>
        { path with sock := some index, remote := source, token := worker.token }
    | .client => ctx
  ctx.updatePath worker.path fun path => { path with alive := 5 }

/-- One iteration of the receive loop of `udp_worker` for a datagram. -/
def receiveDatagram (crypto : Crypto) (process : Process) (index : Nat) (worker : Worker)
    (source : IpAddr) (bytes : List UInt8) : Except Abort (Process × List Output) :=
  let data := bytes.take (toUInt64 (process.ctx.mtu + payloadOffset))
  let worker := { worker with pbuf := worker.pbuf.write 0 data }
  let process := { process with workers := process.workers.set index worker }
  -- a client takes any token; only a server looks the worker's up
  if process.ctx.mode = .server ∧
      tokenAccepted (process.ctx.paths worker.path).validTokens worker.token = false then
    .ok (process, [])
  else if data.length < payloadOffset then
    .ok (process, [])
  else
    match decapsulate crypto worker.token worker.pbuf data.length with
    | .error abort => .error abort
    | .ok (n, pbuf) =>
        let worker := { worker with pbuf := pbuf }
        let process := { process with workers := process.workers.set index worker }
        if n < 0 then
          .ok (process, [])
        else
          let process :=
            { process with ctx := acceptDatagram process.ctx index worker source n }
          -- an empty packet is a heartbeat
          if n = 0 then .ok (process, [])
          else .ok (process, [.tunWrite (pbuf.payload pbuf.len)])

/-- The receive loop of `udp_worker` when `udprecv` reaches the deadline. -/
def receiveTimeout (process : Process) (index : Nat) (worker : Worker) : Process :=
  if process.ctx.mode = .server ∧
      tokenAccepted (process.ctx.paths worker.path).validTokens worker.token = false then
    -- the scan comes before the look at `errno`
    process
  else
    { process with workers := process.workers.set index { worker with state := .closed } }

/-! ## heartbeat and udp_sender -/

/-- Encapsulate a buffer for a path and send it through a socket. -/
def emit (crypto : Crypto) (ctx : Ctx) (path sock : Nat) (pbuf : Pbuf) (draws : Draws) :
    Ctx × Pbuf × Output :=
  let sent := encapsulate crypto (ctx.paths path).token pbuf ctx.mtu draws
  ({ ctx with
      outPackets := toUInt64 ((ctx.outPackets : Int) + 1)
      outBytes := toUInt64 ((ctx.outBytes : Int) + sent.1) },
    sent.2,
    .udpsend path sock (ctx.paths path).remote (sent.2.read 0 (toUInt64 sent.1)))

/-- The two loops of `heartbeat` that refresh the pool of a path. -/
def refreshPath (crypto : Crypto) (readings : Nat → Timeval) (path : Nat) (ctx : Ctx) : Ctx :=
  ctx.updatePath path fun path =>
    { path with
      validTokens := refreshTokens crypto path.portRange readings path.validTokens }

/-- `heartbeat` sends an empty packet on a path that has a socket; a server only
on a path that is alive. -/
def sendHeartbeat (crypto : Crypto) (draws : Draws) (path : Nat) (ctx : Ctx) (pbuf : Pbuf) :
    Ctx × Pbuf × List Output :=
  if ctx.mode = .client ∨ 0 < (ctx.paths path).alive then
    match (ctx.paths path).sock with
    | none => (ctx, pbuf, [])
    | some sock =>
        let (ctx, pbuf, output) := emit crypto ctx path sock (heartbeatLoad pbuf) draws
        (ctx, pbuf, [output])
  else
    (ctx, pbuf, [])

/-- `heartbeat` counts a path down. -/
def countDown (path : Nat) (ctx : Ctx) : Ctx :=
  if 0 < (ctx.paths path).alive then
    ctx.updatePath path fun path => { path with alive := path.alive - 1 }
  else
    ctx

/-- One iteration of the loop of `heartbeat`. -/
def heartbeatPath (crypto : Crypto) (readings : Nat → Timeval) (draws : Draws) (path : Nat)
    (ctx : Ctx) (pbuf : Pbuf) : Ctx × Pbuf × List Output :=
  let ctx := refreshPath crypto readings path ctx
  let (ctx, pbuf, outputs) := sendHeartbeat crypto draws path ctx pbuf
  (countDown path ctx, pbuf, outputs)

/-- One round of `heartbeat` over the given paths. -/
def heartbeatPaths (crypto : Crypto) (readings : Nat → Nat → Timeval) (draws : Nat → Draws) :
    List Nat → Ctx → Pbuf → Ctx × Pbuf × List Output
  | [], ctx, pbuf => (ctx, pbuf, [])
  | path :: paths, ctx, pbuf =>
      let (ctx, pbuf, first) := heartbeatPath crypto (readings path) (draws path) path ctx pbuf
      let (ctx, pbuf, rest) := heartbeatPaths crypto readings draws paths ctx pbuf
      (ctx, pbuf, first ++ rest)

/-- One iteration of the loop in `udp_sender` that selects a path. -/
def selectNext (ctx : Ctx) (last path : Nat) : Iteration Nat Nat :=
  let path := (path + 1) % ctx.pathCount
  if 0 < (ctx.paths path).alive ∨ path = last then .leave path else .next path

/-- The path `udp_sender` selects. -/
def selectPath (ctx : Ctx) (last : Nat) : Option Nat :=
  if 0 < ctx.pathCount then
    match whileLoop (selectNext ctx last) ctx.pathCount last with
    | some (.error path) => some path
    | _ => none
  else
    -- no path, no iteration
    some last

/-- `udp_sender(pbuf)` after it has selected a path. -/
def udpSender (crypto : Crypto) (process : Process) (path : Nat) (pbuf : Pbuf)
    (draws : Draws) : Except Abort (Process × Pbuf × List Output) :=
  let process := { process with senderPath := path }
  match (process.ctx.paths path).sock with
  -- the assertion comes before the check whether the path is alive
  | none => .error .udpSenderSock
  | some sock =>
      if (process.ctx.paths path).alive ≤ 0 then
        .ok (process, pbuf, [])
      else
        let (ctx, pbuf, output) := emit crypto process.ctx path sock pbuf draws
        .ok ({ process with ctx := ctx }, pbuf, [output])

/-! ## The peer -/

/-- The state after `vpn_init`, with the `go` calls of `vpn_run` ahead. -/
def vpnRun (conf : Conf) : Process where
  ctx := initCtx conf
  starts :=
    (match conf.mode with
      | .client => [.clientHop]
      | .server => (List.range conf.paths.length).flatMap fun i =>
          (List.range (((initCtx conf).paths i).portRange + 1).toNat).map
            fun (j : Nat) => .udpWorker i j) ++
      [.tunWorker, .heartbeat]
  workers := []
  hopNext := none
  heartbeat := none
  tun := none
  senderPath := 0

/-- One `go` call of `vpn_run`. -/
def runStart (process : Process) (start : Start) (stack : Pbuf) (now : Int)
    (listen : Option IpAddr) : Process :=
  match start with
  | .clientHop => { process with hopNext := some 0 }
  | .udpWorker path port => startWorker process path port (-1) now stack listen
  | .tunWorker => { process with tun := some stack }
  | .heartbeat => { process with heartbeat := some stack }

/-- One event of a peer: `none` when it is not possible, an abort when an
assertion fails. -/
def step (crypto : Crypto) (process : Process) :
    Event → Option (Except Abort (Process × List Output))
  | .start stack now listen =>
      match process.starts with
      | [] => none
      | start :: starts =>
          some (.ok (runStart { process with starts := starts } start stack now listen, []))
  | .hop clock stack now =>
      match process.hopNext with
      | none => none
      | some path =>
          if path < process.ctx.pathCount then
            let token := totp crypto (process.ctx.paths path).portRange clock 0
            some (.ok (startWorker { process with hopNext := some (path + 1) } path token
              5000 now stack none, []))
          else
            none
  | .hopWake =>
      match process.hopNext with
      | none => none
      | some path =>
          -- a round is over when the last path has its worker
          if path < process.ctx.pathCount then none
          else some (.ok ({ process with hopNext := some 0 }, []))
  | .resolved index remote listen =>
      match process.workers[index]? with
      | none => none
      | some worker =>
          if worker.state = .resolving then
            some (.ok (resolveWorker process index worker remote listen, []))
          else
            none
  | .received index source bytes =>
      match process.workers[index]? with
      | none => none
      | some worker =>
          if worker.state = .receiving then
            some (receiveDatagram crypto process index worker source bytes)
          else
            none
  | .receiveError index =>
      match process.workers[index]? with
      | none => none
      | some worker => if worker.state = .receiving then some (.ok (process, [])) else none
  | .timeout index now =>
      match process.workers[index]? with
      | none => none
      | some worker =>
          if worker.state = .receiving ∧ 0 ≤ worker.deadline ∧ worker.deadline ≤ now then
            some (.ok (receiveTimeout process index worker, []))
          else
            none
  | .tunRead packet draws =>
      match process.tun with
      | none => none
      | some pbuf =>
          if 1 ≤ packet.length ∧ packet.length ≤ process.ctx.mtu then
            match selectPath process.ctx process.senderPath with
            | none => none
            | some path =>
                match udpSender crypto process path (tunWorkerLoad pbuf packet) draws with
                | .error abort => some (.error abort)
                | .ok (process, pbuf, outputs) =>
                    some (.ok ({ process with tun := some pbuf }, outputs))
          else
            none
  | .tunReadError =>
      match process.tun with
      | none => none
      | some _ => some (.ok ({ process with tun := none }, []))
  | .heartbeat readings draws =>
      match process.heartbeat with
      | none => none
      | some pbuf =>
          let (ctx, pbuf, outputs) := heartbeatPaths crypto readings draws
            (List.range process.ctx.pathCount) process.ctx pbuf
          some (.ok ({ process with ctx := ctx, heartbeat := some pbuf }, outputs))

/-- The runs of a peer with a configuration. -/
def peer (crypto : Crypto) (conf : Conf) : TransitionSystem Process Event where
  initial := fun process => process = vpnRun conf
  step := fun process event process' =>
    ∃ outputs, step crypto process event = some (.ok (process', outputs))

/-- The next state of a peer, when the event is possible and no assertion fails. -/
def nextProcess (crypto : Crypto) (process : Process) (event : Event) : Option Process :=
  match step crypto process event with
  | some (.ok (process', _)) => some process'
  | _ => none

theorem nextProcess_eq_some {crypto : Crypto} {process process' : Process} {event : Event} :
    nextProcess crypto process event = some process' ↔
      ∃ outputs, step crypto process event = some (.ok (process', outputs)) := by
  unfold nextProcess
  split
  · next next outputs hstep =>
      rw [hstep]
      simp
  · next hother =>
      constructor
      · intro hnone
        cases hnone
      · rintro ⟨outputs, hstep⟩
        exact absurd hstep (hother _ _)

end Vpn
end Muon
