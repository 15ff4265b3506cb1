import Muon.Foundation.Tally
import Muon.Vpn.FairShare
import Muon.Vpn.ServerHistory
import Muon.Vpn.Traffic

/-!
# What the counters count

The coroutines of a peer step four counters of 64 bits, and `snmp_logger` turns their
growth into rates every 100 ms.  The counters are right over every run: they are the
datagrams that went out, the bytes in them, the datagrams that were accepted and the
bytes that were written to the TUN device, modulo `2 ^ 64`.  So are the rates, also of a
counter that has wrapped since the last round, and only a first round can divide by zero.
-/

namespace Muon
namespace Vpn

open Foundation Packet

/-- The counters of `snmp_t`. -/
inductive Counter where
  | outPackets
  | outBytes
  | inPackets
  | inBytes
  deriving DecidableEq, Repr

/-- The value of a counter. -/
def Ctx.counter (ctx : Ctx) : Counter → Nat
  | .outPackets => ctx.outPackets
  | .outBytes => ctx.outBytes
  | .inPackets => ctx.inPackets
  | .inBytes => ctx.inBytes

variable {crypto : Crypto} {conf : Conf} {process process' : Process}
  {outputs : List Output} {counter : Counter}

/-! ## What is counted -/

/-- What a peer gives to the outside world in a step. -/
def outputsOf (crypto : Crypto) (process : Process) (event : Event) : List Output :=
  match step crypto process event with
  | some (.ok (_, outputs)) => outputs
  | _ => []

/-- What a counter counts of an output. -/
def Output.amount : Counter → Output → Nat
  | .outPackets, .udpsend _ _ _ _ => 1
  | .outBytes, .udpsend _ _ _ data => data.length
  | .inBytes, .tunWrite packet => packet.length
  | _, _ => 0

/-- A worker accepts the datagram: the scan does not refuse its token, the datagram has a
header, and `decapsulate` does not return an error. -/
def takes (crypto : Crypto) (process : Process) : Event → Bool
  | .received index _ bytes =>
      (process.workers[index]?).any fun worker =>
        let data := receivedBytes process bytes
        !decide (Refused process worker) && decide (payloadOffset ≤ data.length) &&
          match decapsulate crypto worker.token (worker.pbuf.write 0 data) data.length with
          | .error _ => false
          | .ok (n, _) => decide (0 ≤ n)
  | _ => false

/-- What a counter counts of a step. -/
def amount (crypto : Crypto) (counter : Counter) (step : Step Process Event) : Nat :=
  ((outputsOf crypto step.before step.event).map (Output.amount counter)).sum +
    if counter = .inPackets ∧ takes crypto step.before step.event = true then 1 else 0

theorem Ctx.counter_outBytes (ctx : Ctx) : ctx.counter .outBytes = ctx.outBytes := rfl

theorem Output.amount_udpsend (path sock : Nat) (remote : IpAddr) (data : List UInt8) :
    (Output.udpsend path sock remote data).amount .outBytes = data.length := rfl

/-- A counter is moved on by an amount, modulo its width. -/
def Adds (counter : Counter) (amount : Nat) (ctx ctx' : Ctx) : Prop :=
  ctx.counter counter < 2 ^ 64 →
    ctx'.counter counter = (ctx.counter counter + amount) % 2 ^ 64

theorem Adds.of_eq {ctx ctx' : Ctx} (hsame : ctx'.counter counter = ctx.counter counter) :
    Adds counter 0 ctx ctx' := by
  intro hbound
  rw [hsame, Nat.add_zero, Nat.mod_eq_of_lt hbound]

theorem Adds.trans {ctx ctx' ctx'' : Ctx} {first second : Nat}
    (hfirst : Adds counter first ctx ctx') (hsecond : Adds counter second ctx' ctx'') : Adds counter (first + second) ctx ctx'' := by
  intro hbound
  have hmiddle := hfirst hbound
  have hlast := hsecond (by rw [hmiddle]; exact Nat.mod_lt _ (by decide))
  rw [hlast, hmiddle, Nat.mod_add_mod, Nat.add_assoc]

theorem toUInt64_add (count : Nat) (n : Int) :
    toUInt64 ((count : Int) + n) = (count + toUInt64 n) % 2 ^ 64 := by
  unfold toUInt64
  omega

theorem toUInt64_add_one (count : Nat) : toUInt64 ((count : Int) + 1) = (count + 1) % 2 ^ 64 := by
  unfold toUInt64
  omega

theorem emit_outBytes (crypto : Crypto) (ctx : Ctx) (path sock : Nat) (pbuf : Pbuf)
    (draws : Draws) :
    (emit crypto ctx path sock pbuf draws).1.outBytes =
      toUInt64 ((ctx.outBytes : Int) +
        (encapsulate crypto (ctx.paths path).token pbuf ctx.mtu draws).1) := by
  unfold emit
  generalize encapsulate crypto (ctx.paths path).token pbuf ctx.mtu draws = sent
  rfl

theorem emit_output (crypto : Crypto) (ctx : Ctx) (path sock : Nat) (pbuf : Pbuf)
    (draws : Draws) :
    (emit crypto ctx path sock pbuf draws).2.2 =
      .udpsend path sock (ctx.paths path).remote
        ((encapsulate crypto (ctx.paths path).token pbuf ctx.mtu draws).2.read 0
          (toUInt64 (encapsulate crypto (ctx.paths path).token pbuf ctx.mtu draws).1)) := by
  unfold emit
  generalize encapsulate crypto (ctx.paths path).token pbuf ctx.mtu draws = sent
  rfl

/-- A datagram is counted, with its bytes. -/
theorem emit_adds (crypto : Crypto) (ctx : Ctx) (path sock : Nat) (pbuf : Pbuf) (draws : Draws)
    (counter : Counter) :
    Adds counter ((emit crypto ctx path sock pbuf draws).2.2.amount counter) ctx
      (emit crypto ctx path sock pbuf draws).1 := by
  rw [emit_output]
  cases counter with
  | outPackets =>
      intro _
      exact toUInt64_add_one ctx.outPackets
  | outBytes =>
      intro _
      rw [Ctx.counter_outBytes, Ctx.counter_outBytes, Output.amount_udpsend, emit_outBytes,
        ByteMemory.length_read, toUInt64_add]
  | inPackets | inBytes => exact Adds.of_eq rfl

theorem sendHeartbeat_adds (crypto : Crypto) (draws : Draws) (path : Nat) (ctx : Ctx)
    (pbuf : Pbuf) (counter : Counter) :
    Adds counter (((sendHeartbeat crypto draws path ctx pbuf).2.2.map (Output.amount counter)).sum)
      ctx (sendHeartbeat crypto draws path ctx pbuf).1 := by
  unfold sendHeartbeat
  split
  · split
    · exact Adds.of_eq rfl
    · next sock hsock =>
        have hemit := emit_adds crypto ctx path sock (heartbeatLoad pbuf) draws counter
        simpa using hemit
  · exact Adds.of_eq rfl

theorem heartbeatPaths_adds (crypto : Crypto) (readings : Nat → Nat → Totp.Timeval)
    (draws : Nat → Draws) (paths : List Nat) (ctx : Ctx) (pbuf : Pbuf) (counter : Counter) :
    Adds counter
      (((heartbeatPaths crypto readings draws paths ctx pbuf).2.2.map (Output.amount counter)).sum)
      ctx (heartbeatPaths crypto readings draws paths ctx pbuf).1 := by
  induction paths generalizing ctx pbuf with
  | nil => exact Adds.of_eq rfl
  | cons path paths ih =>
      have hrefreshed : Adds counter 0 ctx (refreshPath crypto (readings path) path ctx) :=
        Adds.of_eq (by cases counter <;> rfl)
      have hsent := sendHeartbeat_adds crypto (draws path) path
        (refreshPath crypto (readings path) path ctx) pbuf counter
      have hcounted : ∀ ctx, Adds counter 0 ctx (countDown path ctx) := by
        intro ctx
        unfold countDown
        split <;> exact Adds.of_eq (by cases counter <;> rfl)
      have hfirst := (hrefreshed.trans hsent).trans (hcounted _)
      rw [Nat.zero_add, Nat.add_zero] at hfirst
      simp only [heartbeatPaths, List.map_append, List.sum_append]
      exact hfirst.trans (ih _ _)

theorem udpSender_adds {path : Nat} {pbuf pbuf' : Pbuf} {draws : Draws}
    (hsend : udpSender crypto process path pbuf draws = .ok (process', pbuf', outputs))
    (counter : Counter) :
    Adds counter ((outputs.map (Output.amount counter)).sum) process.ctx process'.ctx := by
  simp only [udpSender] at hsend
  split at hsend
  · cases hsend
  · next sock hsock =>
      split at hsend
      · cases hsend
        exact Adds.of_eq rfl
      · cases hsend
        have hemit := emit_adds crypto process.ctx path sock pbuf draws counter
        simpa using hemit

/-- An accepted datagram is counted, with the bytes that are written. -/
theorem acceptDatagram_adds (ctx : Ctx) (index : Nat) (worker : Worker) (source : IpAddr)
    (n : Nat) (counter : Counter) :
    Adds counter
      (match counter with
        | .inPackets => 1
        | .inBytes => n
        | _ => 0)
      ctx (acceptDatagram ctx index worker source n) := by
  have hcounted : (acceptDatagram ctx index worker source n).counter counter =
      (countReceived ctx n).counter counter := by
    have hmode : (countReceived ctx n).mode = ctx.mode := rfl
    cases hctx : ctx.mode <;> cases counter <;>
      simp only [acceptDatagram, hmode, hctx, Ctx.updatePath, Ctx.counter]
  intro hbound
  rw [hcounted]
  cases counter with
  | inPackets => exact toUInt64_add_one ctx.inPackets
  | inBytes =>
      have hsum := toUInt64_add ctx.inBytes n
      show toUInt64 ((ctx.inBytes : Int) + n) = (ctx.inBytes + n) % 2 ^ 64
      rw [hsum, toUInt64]
      omega
  | outPackets | outBytes => exact Adds.of_eq rfl hbound

/-- A datagram is dropped, or it is accepted and its packet written. -/
theorem receiveDatagram_takes {index : Nat} {worker : Worker} {source : IpAddr}
    {bytes : List UInt8} (hworker : process.workers[index]? = some worker)
    (hreceive : receiveDatagram crypto process index worker source bytes =
      .ok (process', outputs)) :
    (takes crypto process (.received index source bytes) = false ∧
        process'.ctx = process.ctx ∧ outputs = []) ∨
      ∃ (n : Nat) (pbuf : Pbuf), takes crypto process (.received index source bytes) = true ∧
        process'.ctx = acceptDatagram process.ctx index { worker with pbuf := pbuf } source n ∧
        (outputs = [] ∧ n = 0 ∨ ∃ packet, outputs = [.tunWrite packet] ∧ packet.length = n) := by
  have htakes : takes crypto process (.received index source bytes) =
      (!decide (Refused process worker) &&
        decide (payloadOffset ≤ (receivedBytes process bytes).length) &&
        match decapsulate crypto worker.token (worker.pbuf.write 0 (receivedBytes process bytes))
          (receivedBytes process bytes).length with
        | .error _ => false
        | .ok (n, _) => decide (0 ≤ n)) := by
    simp only [takes, hworker, Option.any_some]
  rw [htakes]
  simp only [receiveDatagram, List.set_set] at hreceive
  split at hreceive
  · next hrefused =>
      cases hreceive
      rw [decide_eq_true (show Refused process worker from hrefused)]
      exact Or.inl ⟨rfl, rfl, rfl⟩
  · next hscan =>
      rw [decide_eq_false (show ¬ Refused process worker from hscan)]
      split at hreceive
      · next hshort =>
          cases hreceive
          have hheader : ¬ payloadOffset ≤ (receivedBytes process bytes).length :=
            Nat.not_le.mpr hshort
          rw [decide_eq_false hheader]
          exact Or.inl ⟨rfl, rfl, rfl⟩
      · next hlong =>
          have hheader : payloadOffset ≤ (receivedBytes process bytes).length :=
            Nat.le_of_not_lt hlong
          rw [decide_eq_true hheader]
          split at hreceive
          · cases hreceive
          · next n pbuf hdecapsulate =>
              rw [receivedBytes, hdecapsulate]
              split at hreceive
              · next hinvalid =>
                  cases hreceive
                  refine Or.inl ⟨?_, rfl, rfl⟩
                  exact decide_eq_false (Int.not_le.mpr hinvalid)
              · next hvalid =>
                  have hnonneg : 0 ≤ n := Int.le_of_not_gt hvalid
                  obtain ⟨m, rfl⟩ := Int.eq_ofNat_of_zero_le hnonneg
                  refine Or.inr ⟨m, pbuf, decide_eq_true hnonneg, ?_⟩
                  split at hreceive
                  · next hzero =>
                      cases hreceive
                      exact ⟨rfl, Or.inl ⟨rfl, Int.ofNat_eq_zero.mp hzero⟩⟩
                  · next hpositive =>
                      cases hreceive
                      refine ⟨rfl, Or.inr ⟨_, rfl, ?_⟩⟩
                      have hlen := decapsulate_len hdecapsulate (by omega)
                      rw [Pbuf.length_payload]
                      exact (Int.ofNat_inj.mp hlen).symm

/-- Nothing is counted of a step without outputs that takes no datagram. -/
theorem Adds.of_quiet {ctx ctx' : Ctx} {event : Event}
    (htakes : takes crypto process event = false)
    (hsame : ctx'.counter counter = ctx.counter counter) :
    Adds counter ((([] : List Output).map (Output.amount counter)).sum +
      if counter = .inPackets ∧ takes crypto process event = true then 1 else 0) ctx ctx' := by
  rw [htakes]
  simpa using Adds.of_eq hsame

theorem bindWorker_counter (process : Process) (index : Nat) (worker : Worker)
    (listen : Option IpAddr) (counter : Counter) :
    (bindWorker process index worker listen).ctx.counter counter =
      process.ctx.counter counter := by
  cases listen <;> cases counter <;> rfl

theorem startWorker_counter (process : Process) (path : Nat) (token timeout now : Int)
    (stack : Pbuf) (listen : Option IpAddr) (counter : Counter) :
    (startWorker process path token timeout now stack listen).ctx.counter counter =
      process.ctx.counter counter := by
  cases hmode : process.ctx.mode with
  | client => simp only [startWorker, hmode]
  | server =>
      simp only [startWorker, hmode]
      rw [bindWorker_counter]
      cases counter <;> rfl

/-- What happens in a step is what is counted. -/
theorem step_adds {event : Event}
    (hstep : step crypto process event = some (.ok (process', outputs))) (counter : Counter) :
    Adds counter (amount crypto counter ⟨process, event, process'⟩) process.ctx process'.ctx := by
  have hamount : amount crypto counter ⟨process, event, process'⟩ =
      (outputs.map (Output.amount counter)).sum +
        if counter = .inPackets ∧ takes crypto process event = true then 1 else 0 := by
    simp only [amount, outputsOf, hstep]
  rw [hamount]
  cases event with
  | received index source bytes =>
      obtain ⟨worker, hworker, -, hreceive⟩ := step_received hstep
      rcases receiveDatagram_takes hworker hreceive with
        ⟨htakes, hctx, rfl⟩ | ⟨n, pbuf, htakes, hctx, houtputs⟩
      · exact Adds.of_quiet htakes (by rw [hctx])
      · rw [htakes, hctx]
        have hadds := acceptDatagram_adds process.ctx index { worker with pbuf := pbuf } source n
          counter
        rcases houtputs with ⟨rfl, rfl⟩ | ⟨packet, rfl, rfl⟩
        · cases counter <;> simpa using hadds
        · cases counter <;> simpa [Output.amount] using hadds
  | start stack now listen =>
      obtain ⟨start, starts, -, rfl, rfl⟩ := step_start hstep
      cases start with
      | udpWorker path port =>
          exact Adds.of_quiet rfl (startWorker_counter { process with starts := starts } path port
            (-1) now stack listen counter)
      | clientHop | tunWorker | heartbeat => exact Adds.of_quiet rfl rfl
  | hop clock stack now =>
      obtain ⟨path, -, -, rfl, rfl⟩ := step_hop hstep
      exact Adds.of_quiet rfl (startWorker_counter { process with hopNext := some (path + 1) }
        path _ 5000 now stack none counter)
  | hopWake =>
      obtain ⟨path, -, -, rfl, rfl⟩ := step_hopWake hstep
      exact Adds.of_quiet rfl rfl
  | resolved index remote listen =>
      obtain ⟨worker, -, -, rfl, rfl⟩ := step_resolved hstep
      exact Adds.of_quiet rfl (bindWorker_counter _ _ _ _ _)
  | receiveError index =>
      obtain ⟨worker, -, -, rfl, rfl⟩ := step_receiveError hstep
      exact Adds.of_quiet rfl rfl
  | timeout index now =>
      obtain ⟨worker, -, -, -, -, rfl, rfl⟩ := step_timeout hstep
      refine Adds.of_quiet rfl ?_
      unfold receiveTimeout
      split <;> rfl
  | tunReadError =>
      obtain ⟨pbuf, -, rfl, rfl⟩ := step_tunReadError hstep
      exact Adds.of_quiet rfl rfl
  | tunRead packet draws =>
      obtain ⟨pbuf, path, next, pbuf', -, -, -, -, hsend, rfl⟩ := step_tunRead hstep
      simpa [takes] using udpSender_adds hsend counter
  | heartbeat readings draws =>
      obtain ⟨pbuf, ctx, pbuf', -, hround, rfl⟩ := step_heartbeat hstep
      have hadds := heartbeatPaths_adds crypto readings draws
        (List.range process.ctx.pathCount) process.ctx pbuf counter
      rw [hround] at hadds
      simpa [takes] using hadds

/-- **The counters count.**  In every run of a peer each counter is, modulo `2 ^ 64`, what
has been sent, accepted and written since the start. -/
theorem counter_eq_tally (crypto : Crypto) (conf : Conf) (steps : List (Step Process Event))
    (process : Process) (hrun : History (peer crypto conf) steps process) (counter : Counter) :
    process.ctx.counter counter = tally (amount crypto counter) steps % 2 ^ 64 := by
  obtain ⟨hbound, hcount⟩ := hrun.counter_modEq
    (fun process => process.ctx.counter counter) (fun _ => 0) (amount crypto counter)
    (fun _ => false) (2 ^ 64)
    (by
      rintro process rfl
      cases counter <;> exact ⟨Nat.two_pow_pos 64, rfl⟩)
    (by
      rintro process event process' - hbound ⟨outputs, hstep⟩
      exact ⟨fun hmarks => Bool.noConfusion hmarks,
        fun _ => ⟨rfl, step_adds hstep counter hbound⟩⟩)
  rw [since_of_forall_not_marks fun _ => rfl, Nat.zero_add] at hcount
  rw [← Nat.mod_eq_of_lt hbound]
  exact hcount

/-! ## snmp_logger -/

/-- `snmp_t`: its counters and their rates by name. -/
structure Snmp where
  timestamp : Nat
  uptime : Nat
  count : Counter → Nat
  rate : Counter → Int

/-- `snmp_logger` with its local variables. -/
structure Logger where
  start : Nat
  last : Snmp

/-- A peer with the other fields of `ctx.snmp`, and `snmp_logger` once it is started. -/
structure Monitored where
  process : Process
  timestamp : Nat
  uptime : Nat
  rate : Counter → Int
  logger : Option Logger

/-- `ctx.snmp`. -/
def Monitored.snmp (state : Monitored) : Snmp where
  timestamp := state.timestamp
  uptime := state.uptime
  count := state.process.ctx.counter
  rate := state.rate

/-- `memset(&last, 0, sizeof(last))`. -/
def zeroSnmp : Snmp where
  timestamp := 0
  uptime := 0
  count := fun _ => 0
  rate := fun _ => 0

/-- `(int)((count - last) * 1000 / interval)`. -/
def rateOf (count last interval : Nat) : Int :=
  toInt32 ((toUInt64 ((toUInt64 ((count : Int) - last) : Int) * 1000) / interval : Nat) : Int)

/-- A value of `now()`: milliseconds in an `int64_t`, not in the last of its deciseconds. -/
def IsClock (now : Nat) : Prop := now + 100 < 2 ^ 63

instance (now : Nat) : Decidable (IsClock now) := inferInstanceAs (Decidable (_ < _))

/-- One iteration of the loop of `snmp_logger`; `none` is a division by zero. -/
def logRound (state : Monitored) (logger : Logger) (now : Nat) : Option Monitored :=
  let timestamp := now
  let uptime := toUInt64 ((timestamp : Int) - logger.start)
  let interval := toUInt64 ((timestamp : Int) - logger.last.timestamp)
  if interval = 0 then none
  else
    let state : Monitored := { state with
      timestamp := timestamp
      uptime := uptime
      rate := fun counter =>
        rateOf (state.process.ctx.counter counter) (logger.last.count counter) interval }
    some { state with logger := some { logger with last := state.snmp } }

/-- What happens to a peer with `snmp_logger`. -/
inductive MonitoredEvent where
  | peer (event : Event)
  /-- `vpn_run` starts `snmp_logger`, which reads the clock twice. -/
  | goSnmpLogger (start now : Nat)
  /-- `snmp_logger` wakes up. -/
  | wake (now : Nat)

/-- One event. -/
def nextMonitored (crypto : Crypto) (state : Monitored) : MonitoredEvent → Option Monitored
  | .peer event =>
      match nextProcess crypto state.process event with
      | none => none
      | some process => some { state with process := process }
  | .goSnmpLogger start now =>
      -- the `go` calls before it have been made
      if state.logger.isNone ∧ state.process.starts.isEmpty ∧ start ≤ now ∧ IsClock now then
        logRound state ⟨start, zeroSnmp⟩ now
      else
        none
  | .wake now =>
      match state.logger with
      | none => none
      | some logger =>
          -- `msleep(ctx.snmp.timestamp + 100)`
          if state.timestamp + 100 ≤ now ∧ IsClock now then logRound state logger now else none

/-- The runs of a peer with `snmp_logger`. -/
def monitored (crypto : Crypto) (conf : Conf) : TransitionSystem Monitored MonitoredEvent where
  initial := fun state => state =
    { process := vpnRun conf, timestamp := 0, uptime := 0, rate := fun _ => 0, logger := none }
  step := fun state event state' => nextMonitored crypto state event = some state'

/-- The clock of a round of `snmp_logger`. -/
def roundAt : MonitoredEvent → Option Nat
  | .peer _ => none
  | .goSnmpLogger _ now => some now
  | .wake now => some now

/-- The clock of the last round, or 0. -/
def lastRound (steps : List (Step Monitored MonitoredEvent)) : Nat :=
  (steps.findSome? fun step => roundAt step.event).getD 0

/-- What a counter counts of a step. -/
def monitoredAmount (crypto : Crypto) (counter : Counter)
    (step : Step Monitored MonitoredEvent) : Nat :=
  match step.event with
  | .peer event => amount crypto counter ⟨step.before.process, event, step.after.process⟩
  | _ => 0

/-- What a counter has counted since the last round. -/
def sinceRound (crypto : Crypto) (counter : Counter)
    (steps : List (Step Monitored MonitoredEvent)) : Nat :=
  tally (monitoredAmount crypto counter) (since (fun event => (roundAt event).isSome) steps)

variable {state state' : Monitored} {event : MonitoredEvent} {logger : Logger} {now : Nat}
  {steps : List (Step Monitored MonitoredEvent)}

/-- The snapshot the next round starts from. -/
def Monitored.last (state : Monitored) : Snmp := (state.logger.map Logger.last).getD zeroSnmp

theorem nextMonitored_peer {event : Event}
    (hnext : nextMonitored crypto state (.peer event) = some state') :
    ∃ process' outputs, step crypto state.process event = some (.ok (process', outputs)) ∧
      state' = { state with process := process' } := by
  simp only [nextMonitored] at hnext
  split at hnext
  · cases hnext
  · next process' hprocess =>
      obtain ⟨outputs, hstep⟩ := nextProcess_eq_some.mp hprocess
      cases hnext
      exact ⟨process', outputs, hstep, rfl⟩

/-- A round keeps the peer, dates the snapshot and sets the rates. -/
theorem logRound_eq_some (hround : logRound state logger now = some state') :
    state'.process = state.process ∧ state'.timestamp = now ∧ state'.last = state'.snmp ∧
      state'.logger.isSome = true ∧
      ∀ counter, state'.rate counter = rateOf (state.process.ctx.counter counter)
        (logger.last.count counter) (toUInt64 ((now : Int) - logger.last.timestamp)) := by
  simp only [logRound] at hround
  generalize toUInt64 ((now : Int) - logger.last.timestamp) = interval at hround ⊢
  split at hround
  · cases hround
  · cases hround
    refine ⟨rfl, rfl, rfl, rfl, fun counter => ?_⟩
    dsimp only

/-- A round starts from the last snapshot, 100 ms after it unless it is the first. -/
theorem nextMonitored_round (hat : roundAt event = some now)
    (hnext : nextMonitored crypto state event = some state') :
    ∃ logger, logger.last = state.last ∧ logRound state logger now = some state' ∧
      IsClock now ∧ (state.logger.isSome = true → state.timestamp + 100 ≤ now) := by
  cases event with
  | peer event => cases hat
  | goSnmpLogger start now' =>
      cases hat
      simp only [nextMonitored] at hnext
      split at hnext
      · next hguard =>
          obtain ⟨hnone, -, -, hclock⟩ := hguard
          rw [Option.isNone_iff_eq_none] at hnone
          refine ⟨⟨start, zeroSnmp⟩, ?_, hnext, hclock, fun hsome => ?_⟩
          · rw [Monitored.last, hnone]
            rfl
          · rw [hnone] at hsome
            cases hsome
      · cases hnext
  | wake now' =>
      cases hat
      simp only [nextMonitored] at hnext
      split at hnext
      · cases hnext
      · next logger hlogger =>
          split at hnext
          · next hguard =>
              refine ⟨logger, ?_, hnext, hguard.2, fun _ => hguard.1⟩
              rw [Monitored.last, hlogger]
              rfl
          · cases hnext

/-- The clock of the last round is the time of the snapshot. -/
structure Dated (steps : List (Step Monitored MonitoredEvent)) (state : Monitored) : Prop where
  clock : IsClock (lastRound steps)
  last : state.last.timestamp = lastRound steps
  timestamp : state.logger.isSome = true → state.timestamp = lastRound steps

theorem dated_of_history (hrun : History (monitored crypto conf) steps state) :
    Dated steps state := by
  induction hrun with
  | initial hinitial =>
      cases hinitial
      exact ⟨by decide, rfl, fun hsome => by cases hsome⟩
  | @step steps state state' event hhistory hnext ih =>
      cases hat : roundAt event with
      | none =>
          have hlast : lastRound (⟨state, event, state'⟩ :: steps) = lastRound steps := by
            simp only [lastRound, List.findSome?_cons, hat]
          rw [show (monitored crypto conf).step state event state' =
            (nextMonitored crypto state event = some state') from rfl] at hnext
          cases event with
          | peer event =>
              obtain ⟨process', outputs, -, rfl⟩ := nextMonitored_peer hnext
              exact ⟨hlast ▸ ih.clock, ih.last.trans hlast.symm,
                fun hsome => (ih.timestamp hsome).trans hlast.symm⟩
          | goSnmpLogger | wake => cases hat
      | some now =>
          have hlast : lastRound (⟨state, event, state'⟩ :: steps) = now := by
            simp only [lastRound, List.findSome?_cons, hat, Option.getD_some]
          obtain ⟨logger, -, hround, hclock, -⟩ := nextMonitored_round hat hnext
          obtain ⟨-, htimestamp, hsnmp, -, -⟩ := logRound_eq_some hround
          refine ⟨hlast ▸ hclock, ?_, fun _ => htimestamp.trans hlast.symm⟩
          rw [hsnmp, hlast]
          exact htimestamp

/-- The peer by itself is in one of its own runs. -/
theorem monitored_reachable (hreach : Reachable (monitored crypto conf) state) :
    Reachable (peer crypto conf) state.process := by
  refine hreach.map Monitored.process ?_ ?_
  · rintro state rfl
    rfl
  · intro state event state' hnext
    cases hat : roundAt event with
    | none =>
        cases event with
        | peer event =>
            obtain ⟨process', outputs, hstep, rfl⟩ := nextMonitored_peer hnext
            exact Or.inr ⟨event, outputs, hstep⟩
        | goSnmpLogger | wake => cases hat
    | some now =>
        obtain ⟨logger, -, hround, -⟩ := nextMonitored_round hat hnext
        exact Or.inl (logRound_eq_some hround).1

/-- A counter is ahead of the last snapshot by what it has counted since. -/
theorem counter_sinceRound (hrun : History (monitored crypto conf) steps state)
    (counter : Counter) :
    state.process.ctx.counter counter ≡
      state.last.count counter + sinceRound crypto counter steps [MOD 2 ^ 64] := by
  refine (hrun.counter_modEq (fun state => state.process.ctx.counter counter)
    (fun state => state.last.count counter) (monitoredAmount crypto counter)
    (fun event => (roundAt event).isSome) (2 ^ 64) ?_ ?_).2
  · rintro state rfl
    cases counter <;> exact ⟨Nat.two_pow_pos 64, rfl⟩
  · intro state event state' hreach hbound hnext
    cases hat : roundAt event with
    | none =>
        refine ⟨fun hmarks => (by cases hmarks), fun _ => ?_⟩
        cases event with
        | peer event =>
            obtain ⟨process', outputs, hstep, rfl⟩ := nextMonitored_peer hnext
            exact ⟨rfl, step_adds hstep counter hbound⟩
        | goSnmpLogger | wake => cases hat
    | some now =>
        refine ⟨fun _ => ?_, fun hmarks => (by cases hmarks)⟩
        obtain ⟨logger, -, hround, -⟩ := nextMonitored_round hat hnext
        obtain ⟨hprocess, -, hsnmp, -⟩ := logRound_eq_some hround
        rw [hsnmp, hprocess]
        exact ⟨rfl, congrArg (fun process : Process => process.ctx.counter counter) hprocess⟩

theorem toUInt64_sub {count last amount : Nat} (hcount : count ≡ last + amount [MOD 2 ^ 64]) :
    toUInt64 ((count : Int) - last) = amount % 2 ^ 64 := by
  rw [Nat.ModEq] at hcount
  unfold toUInt64
  omega

theorem toUInt64_mod_mul (amount : Nat) :
    toUInt64 (((amount % 2 ^ 64 : Nat) : Int) * 1000) = (1000 * amount) % 2 ^ 64 := by
  have hmod : ∀ value : Nat, toUInt64 value = value % 2 ^ 64 := by
    intro value
    unfold toUInt64
    omega
  have hcast : ((amount % 2 ^ 64 : Nat) : Int) * 1000 =
      ((amount % 2 ^ 64 * 1000 : Nat) : Int) := by
    rw [Int.natCast_mul]
    rfl
  rw [hcast, hmod, Nat.mod_mul_mod, Nat.mul_comm]

/-- The rate over an interval, also when the counter has wrapped in it. -/
theorem rateOf_eq {count last amount : Nat} (hcount : count ≡ last + amount [MOD 2 ^ 64])
    (interval : Nat) :
    rateOf count last interval =
      toInt32 (((1000 * amount) % 2 ^ 64 / interval : Nat) : Int) := by
  rw [rateOf, toUInt64_sub hcount, toUInt64_mod_mul]

/-- **The rates are exact.**  In every run a waking `snmp_logger` never divides by zero, and
every round sets each rate to a thousand times what the counter has counted since the
round before, over the milliseconds between the two: exactly, unless that product or the
rate itself does not fit. -/
theorem snmpLogger_rates (crypto : Crypto) (conf : Conf)
    (steps : List (Step Monitored MonitoredEvent)) (state : Monitored)
    (hrun : History (monitored crypto conf) steps state) :
    (∀ now, state.logger.isSome = true → lastRound steps + 100 ≤ now → IsClock now →
        (nextMonitored crypto state (.wake now)).isSome = true) ∧
      ∀ event state' now counter, nextMonitored crypto state event = some state' →
        roundAt event = some now →
        state'.rate counter = toInt32
            (((1000 * sinceRound crypto counter steps) % 2 ^ 64 / (now - lastRound steps) : Nat) :
              Int) ∧
          (1000 * sinceRound crypto counter steps < 2 ^ 64 →
            1000 * sinceRound crypto counter steps / (now - lastRound steps) < 2 ^ 31 →
            state'.rate counter =
              ((1000 * sinceRound crypto counter steps / (now - lastRound steps) : Nat) :
                Int)) := by
  have hdated := dated_of_history hrun
  constructor
  · intro now hsome hlater hclock
    obtain ⟨logger, hlogger⟩ := Option.isSome_iff_exists.mp hsome
    have hguard : state.timestamp + 100 ≤ now ∧ IsClock now :=
      ⟨by rw [hdated.timestamp hsome]; exact hlater, hclock⟩
    have hlast : logger.last.timestamp = lastRound steps := by
      have hlast := hdated.last
      rwa [Monitored.last, hlogger] at hlast
    have hinterval : toUInt64 ((now : Int) - logger.last.timestamp) ≠ 0 := by
      rw [hlast]
      unfold IsClock at hclock
      unfold toUInt64
      omega
    simp only [nextMonitored, hlogger, if_pos hguard, logRound, if_neg hinterval,
      Option.isSome_some]
  · intro event state' now counter hnext hat
    obtain ⟨logger, hlast, hround, hclock, hlater⟩ := nextMonitored_round hat hnext
    obtain ⟨-, -, -, -, hrate⟩ := logRound_eq_some hround
    have hcount := counter_sinceRound hrun counter
    have hinterval : toUInt64 ((now : Int) - logger.last.timestamp) = now - lastRound steps := by
      have hmono : lastRound steps ≤ now := by
        cases hlogger : state.logger with
        | none =>
            have hfirst := hdated.last
            rw [Monitored.last, hlogger] at hfirst
            exact hfirst ▸ Nat.zero_le now
        | some _ =>
            have hsome : state.logger.isSome = true := by rw [hlogger]; rfl
            have hsleep := hlater hsome
            rw [hdated.timestamp hsome] at hsleep
            omega
      rw [hlast, hdated.last]
      unfold IsClock at hclock
      unfold toUInt64
      omega
    rw [hrate, hinterval, hlast, rateOf_eq hcount]
    refine ⟨rfl, fun hproduct hfits => ?_⟩
    rw [Nat.mod_eq_of_lt hproduct]
    have hnonneg : (0 : Int) ≤
        ((1000 * sinceRound crypto counter steps / (now - lastRound steps) : Nat) : Int) :=
      Int.natCast_nonneg _
    exact toInt32_of_fits (Int.le_trans (by decide) hnonneg) (by exact_mod_cast hfits)

/-! ## A server with two clients -/

/-- Two datagrams were accepted, and counted. -/
theorem counter_eq_tally_twoPaths :
    ∃ steps process, History (peer Reference.crypto twoPathConf) steps process ∧
      process.ctx.counter .inPackets = 2 ∧
      tally (amount Reference.crypto .inPackets) steps % 2 ^ 64 = 2 := by
  have hruns : ((run (nextProcess Reference.crypto) (vpnRun twoPathConf) startTwoPaths).any
      fun process => decide (process.ctx.counter .inPackets = 2)) = true := by decide +kernel
  obtain ⟨process, hrun, hcounter⟩ := (Option.any_eq_true _ _).mp hruns
  have hinitial : (peer Reference.crypto twoPathConf).initial (vpnRun twoPathConf) := rfl
  obtain ⟨steps, hhistory, -⟩ := exists_history_of_run
    (fun _ _ _ hnext => nextProcess_eq_some.mp hnext) hinitial hrun
  have hcount := of_decide_eq_true hcounter
  refine ⟨steps, process, hhistory, hcount, ?_⟩
  rw [← counter_eq_tally Reference.crypto twoPathConf steps process hhistory, hcount]

/-- The server starts, and `snmp_logger` with it; then both clients come up. -/
def startMonitored : List MonitoredEvent :=
  [.peer (.start (Reference.bufferOf []) 0 (some ⟨1, 1200⟩)),
    .peer (.start (Reference.bufferOf []) 0 (some ⟨2, 1200⟩)),
    .peer (.start (Reference.bufferOf []) 0 none),
    .peer (.start (Reference.bufferOf []) 0 none),
    .goSnmpLogger 1000 1000,
    .peer (.received 0 ⟨3, 5000⟩ Reference.twoByteDatagram),
    .peer (.received 1 ⟨4, 5000⟩ Reference.twoByteDatagram)]

/-- 100 ms later that is a rate of 20 datagrams a second. -/
theorem snmpLogger_rates_twoPaths :
    ∃ steps state state', History (monitored Reference.crypto twoPathConf) steps state ∧
      nextMonitored Reference.crypto state (.wake 1100) = some state' ∧
      state'.rate .inPackets = 20 ∧
      toInt32 (((1000 * sinceRound Reference.crypto .inPackets steps) % 2 ^ 64 /
        (1100 - lastRound steps) : Nat) : Int) = 20 := by
  have hruns : ((run (nextMonitored Reference.crypto)
      { process := vpnRun twoPathConf, timestamp := 0, uptime := 0, rate := fun _ => 0,
        logger := none } startMonitored).any fun state =>
      (nextMonitored Reference.crypto state (.wake 1100)).any fun state' =>
        decide (state'.rate .inPackets = 20)) = true := by decide +kernel
  obtain ⟨state, hrun, hlater⟩ := (Option.any_eq_true _ _).mp hruns
  obtain ⟨state', hnext, hrate⟩ := (Option.any_eq_true _ _).mp hlater
  have hinitial : (monitored Reference.crypto twoPathConf).initial
      { process := vpnRun twoPathConf, timestamp := 0, uptime := 0, rate := fun _ => 0,
        logger := none } := rfl
  obtain ⟨steps, hhistory, -⟩ :=
    exists_history_of_run (fun _ _ _ hnext => hnext) hinitial hrun
  have htwenty := of_decide_eq_true hrate
  refine ⟨steps, state, state', hhistory, hnext, htwenty, ?_⟩
  rw [← ((snmpLogger_rates Reference.crypto twoPathConf steps state hhistory).2
    (.wake 1100) state' 1100 .inPackets hnext rfl).1, htwenty]

end Vpn
end Muon
