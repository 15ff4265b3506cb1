import Muon.Foundation.RoundRobin
import Muon.Vpn.SenderAssertion

/-!
# The share of a path

`udp_sender` goes round robin over the live paths: it selects the first one behind
the path it used last.  A live path has a socket, so the packet is sent; and while
the same paths stay alive, whatever else the coroutines do between two packets,
each of them carries its share of the packets.
-/

namespace Muon
namespace Vpn

open Foundation Packet

variable {crypto : Crypto} {conf : Conf} {process process' : Process}
  {outputs : List Output}

/-- The paths that are alive. -/
def livePaths (ctx : Ctx) : Finset Nat :=
  (Finset.range ctx.pathCount).filter fun path => 0 < (ctx.paths path).alive

theorem mem_livePaths {ctx : Ctx} {path : Nat} :
    path ∈ livePaths ctx ↔ path < ctx.pathCount ∧ 0 < (ctx.paths path).alive := by
  rw [livePaths, Finset.mem_filter, Finset.mem_range]

/-! ## One packet -/

/-- The loop of `udp_sender` takes at most as many iterations as there are paths.  It
selects the first live path behind the last one, and the last one itself only when
no other is alive; with none alive the selected path stays, and nothing is sent. -/
structure SelectsFirst (ctx : Ctx) (last : Nat) : Prop where
  ends : ∃ path, whileLoop (selectNext ctx last) ctx.pathCount last = some (.error path) ∧
    selectPath ctx last = some path
  live : (livePaths ctx).Nonempty → ∃ path, selectPath ctx last = some path ∧
    FirstBehind ctx.pathCount (fun path => path ∈ livePaths ctx) last path
  alone : selectPath ctx last = some last → ∀ path ∈ livePaths ctx, path = last
  dead : livePaths ctx = ∅ → selectPath ctx last = some last ∧
    ∀ crypto process pbuf draws process' pbuf' outputs, process.ctx = ctx →
      udpSender crypto process last pbuf draws = .ok (process', pbuf', outputs) →
        process'.senderPath = last ∧ outputs = []

/-- Nothing is sent on a path that is not alive. -/
theorem udpSender_dead {path : Nat} {pbuf pbuf' : Pbuf} {draws : Draws}
    (hdead : ¬ 0 < (process.ctx.paths path).alive)
    (hsend : udpSender crypto process path pbuf draws = .ok (process', pbuf', outputs)) :
    outputs = [] := by
  simp only [udpSender] at hsend
  split at hsend
  · cases hsend
  · rw [if_pos (Int.not_lt.mp hdead)] at hsend
    cases hsend
    rfl

theorem selectsFirst {ctx : Ctx} {last : Nat} (hlast : last < ctx.pathCount) :
    SelectsFirst ctx last := by
  have hcount : 0 < ctx.pathCount := by omega
  have hlive : ∀ place, place ∈ livePaths ctx ↔
      place < ctx.pathCount ∧ 0 < (ctx.paths place).alive := fun _ => mem_livePaths
  obtain ⟨k, hlow, hhigh, hselect, hdead, -⟩ := selectPath_first hlast
  constructor
  · refine ⟨_, ?_, hselect⟩
    simp only [selectPath, if_pos hcount] at hselect
    split at hselect
    · next path hloop =>
        cases hselect
        exact hloop
    · cases hselect
  · rintro ⟨path, hpath⟩
    obtain ⟨hrange, halive⟩ := (hlive path).mp hpath
    refine ⟨_, hselect, k, hlow, hhigh, rfl, (hlive _).mpr ⟨Nat.mod_lt _ hcount, ?_⟩, ?_⟩
    · exact alive_of_selectPath hlast hrange halive hselect
    · intro j hjlow hj hmem
      exact hdead j hjlow hj ((hlive _).mp hmem).2
  · intro hstays path hpath
    obtain ⟨hrange, halive⟩ := (hlive path).mp hpath
    obtain ⟨j, hjlow, hjhigh, rfl⟩ := exists_behind hlast hrange
    -- back at the last path, the loop has passed all others
    have hback : (last + k) % ctx.pathCount = last := by
      rw [hselect] at hstays
      exact Option.some.inj hstays
    have hall : k = ctx.pathCount := by
      rcases Nat.lt_or_ge (last + k) ctx.pathCount with hinside | hwrap
      · rw [Nat.mod_eq_of_lt hinside] at hback
        omega
      · rw [Nat.mod_eq_sub_mod hwrap, Nat.mod_eq_of_lt (by omega)] at hback
        omega
    rcases Nat.lt_or_eq_of_le hjhigh with hbefore | rfl
    · exact absurd halive (hdead j hjlow (by omega))
    · rw [Nat.add_mod_right, Nat.mod_eq_of_lt hlast]
  · intro hnone
    have hnot : ∀ path, path < ctx.pathCount → ¬ 0 < (ctx.paths path).alive := by
      intro path hpath halive
      have hmem := (hlive path).mpr ⟨hpath, halive⟩
      rw [hnone] at hmem
      exact absurd hmem (Finset.notMem_empty path)
    refine ⟨selectPath_of_dead hlast hnot, ?_⟩
    rintro crypto process pbuf draws process' pbuf' outputs rfl hsend
    exact ⟨udpSender_senderPath hsend, udpSender_dead (hnot last hlast) hsend⟩

/-! ## The packets of a run -/

/-- The path a datagram goes out on. -/
def sentOn : Output → Option Nat
  | .udpsend path _ _ _ => some path
  | .tunWrite _ => none

/-- A packet is read from the TUN device and handed to `udp_sender`. -/
def isPacket : Event → Bool
  | .tunRead _ _ => true
  | _ => false

/-- The paths on which a step sends its packet. -/
def packetPaths (step : Step Outcome Event) : List Nat :=
  match step.event, step.after with
  | .tunRead _ _, .ok (_, outputs) => outputs.filterMap sentOn
  | _, _ => []

/-- The paths that are alive after an event. -/
def aliveAfter (outcome : Outcome) : Finset Nat :=
  match outcome with
  | .ok (process, _) => livePaths process.ctx
  | .error _ => ∅

/-- Every packet goes out once, on one of the given paths, and every path carries its
share of them, rounded down or up. -/
structure ServesFairly (alive : Finset Nat) (steps : List (Step Outcome Event)) : Prop where
  once : ∀ step ∈ steps, isPacket step.event = true →
    ∃ path ∈ alive, packetPaths step = [path]
  share : ∀ path ∈ alive,
    (steps.flatMap packetPaths).count path =
        (steps.countP fun step => isPacket step.event) / alive.card ∨
      (steps.flatMap packetPaths).count path =
        ((steps.countP fun step => isPacket step.event) + alive.card - 1) / alive.card

/-- Nothing but a packet goes out on a path. -/
theorem packetPaths_of_quiet {step : Step Outcome Event} (hquiet : isPacket step.event = false) :
    packetPaths step = [] := by
  obtain ⟨before, event, after⟩ := step
  cases event with
  | tunRead packet draws => cases hquiet
  | start | hop | hopWake | resolved | received | receiveError | timeout | tunReadError
  | heartbeat => rfl

/-- On a live path the packet is sent. -/
theorem udpSender_live {path : Nat} {pbuf pbuf' : Pbuf} {draws : Draws}
    (hlive : 0 < (process.ctx.paths path).alive)
    (hsend : udpSender crypto process path pbuf draws = .ok (process', pbuf', outputs)) :
    outputs.filterMap sentOn = [path] := by
  simp only [udpSender] at hsend
  split at hsend
  · cases hsend
  · rw [if_neg (Int.not_le.mpr hlive)] at hsend
    cases hsend
    rfl

/-- With a live path, a packet goes out on the first one behind the last. -/
theorem tunRead_serves (hpaths : 0 < conf.paths.length) {packet : List UInt8}
    {draws : Draws} {outcome' : Outcome} (hreach : Reachable (peer crypto conf) process)
    (hlive : (livePaths process.ctx).Nonempty)
    (hstep : step crypto process (.tunRead packet draws) = some outcome') :
    ∃ process' sent, outcome' = .ok (process', sent) ∧
      sent.filterMap sentOn = [process'.senderPath] ∧
      FirstBehind conf.paths.length (fun path => path ∈ livePaths process.ctx)
        process.senderPath process'.senderPath := by
  have hlast := senderPath_lt_of_reachable hpaths hreach
  have hcount : process.ctx.pathCount = conf.paths.length :=
    (sameConf_of_reachable hreach).pathCount
  obtain ⟨path, hselect, hfirst⟩ := (selectsFirst hlast).live hlive
  obtain ⟨-, halive⟩ := mem_livePaths.mp hfirst.ready_next
  -- a live path has published its socket, so the assertion holds
  have hsock := (socksPublished_of_reachable hreach).alive path halive
  rcases step_tunRead_outcome hselect hstep with
    ⟨hnone, -⟩ | ⟨-, process', sent, rfl, -⟩
  · exact absurd hnone hsock
  · have hmoves := step_tunRead_senderPath hstep
    rw [hselect] at hmoves
    cases hmoves
    refine ⟨process', sent, rfl, ?_, hcount ▸ hfirst⟩
    obtain ⟨pbuf, selected, next, pbuf', -, -, -, hselected, hsend, rfl⟩ :=
      step_tunRead hstep
    rw [hselect] at hselected
    cases hselected
    exact udpSender_live halive hsend

/-- The packets have gone round among the given paths, and the static path is where
the last one went. -/
def GoneRound (size : Nat) (alive : Finset Nat) (start : Nat) (places : List Nat)
    (outcome : Outcome) : Prop :=
  ∃ last, Rounds size (fun path => path ∈ alive) start places last ∧
    ∀ process outputs, outcome = .ok (process, outputs) → process.senderPath = last

/-- One event, while the given paths are alive. -/
theorem step_goneRound (hpaths : 0 < conf.paths.length) {alive : Finset Nat}
    (hsome : alive.Nonempty) {start : Nat} {places : List Nat} {event : Event}
    {outcome' : Outcome} (hreach : Reachable (peer crypto conf) process)
    (hround : GoneRound conf.paths.length alive start places (.ok (process, outputs)))
    (hstep : step crypto process event = some outcome')
    (halive : isPacket event = true → livePaths process.ctx = alive) :
    GoneRound conf.paths.length alive start
        (packetPaths ⟨.ok (process, outputs), event, outcome'⟩ ++ places) outcome' ∧
      (isPacket event = true →
        ∃ path ∈ alive, packetPaths ⟨.ok (process, outputs), event, outcome'⟩ = [path]) := by
  obtain ⟨last, hrounds, hcurrent⟩ := hround
  have hlast : process.senderPath = last := hcurrent process outputs rfl
  by_cases hread : ∃ packet draws, event = .tunRead packet draws
  · obtain ⟨packet, draws, rfl⟩ := hread
    have hlive := halive rfl
    obtain ⟨process', sent, rfl, hsent, hfirst⟩ :=
      tunRead_serves hpaths hreach (hlive ▸ hsome) hstep
    rw [hlive, hlast] at hfirst
    have hplace : packetPaths ⟨.ok (process, outputs), .tunRead packet draws,
        .ok (process', sent)⟩ = [process'.senderPath] := hsent
    rw [hplace]
    refine ⟨⟨process'.senderPath, .next hrounds hfirst, ?_⟩, fun _ => ?_⟩
    · rintro process'' outputs'' ⟨⟩
      rfl
    · exact ⟨process'.senderPath, hfirst.ready_next, rfl⟩
  · -- no packet: nothing goes out, and the static path stays
    have hquiet : isPacket event = false := by
      cases event with
      | tunRead packet draws => exact absurd ⟨packet, draws, rfl⟩ hread
      | start | hop | hopWake | resolved | received | receiveError | timeout | tunReadError
      | heartbeat => rfl
    have hplaces : packetPaths ⟨.ok (process, outputs), event, outcome'⟩ = [] :=
      packetPaths_of_quiet hquiet
    rw [hplaces, hquiet]
    refine ⟨⟨last, hrounds, ?_⟩, fun hpacket => by cases hpacket⟩
    rintro process' outputs' rfl
    rw [step_senderPath_same (fun packet draws heq => hread ⟨packet, draws, heq⟩) hstep, hlast]

/-- A stretch of a run during which the given paths are alive. -/
theorem exists_goneRound (hpaths : 0 < conf.paths.length) {alive : Finset Nat}
    (hsome : alive.Nonempty) {later earlier : List (Step Outcome Event)} {outcome : Outcome}
    (hrun : History (outcomes crypto conf) (later ++ earlier) outcome)
    (hconstant : ∀ step ∈ later, isPacket step.event = true → aliveAfter step.before = alive) :
    ∃ start < conf.paths.length,
      GoneRound conf.paths.length alive start (later.flatMap packetPaths) outcome ∧
        ∀ step ∈ later, isPacket step.event = true →
          ∃ path ∈ alive, packetPaths step = [path] := by
  induction later generalizing outcome with
  | nil =>
      cases outcome with
      | error abort =>
          -- an assertion has failed: no packet follows
          refine ⟨0, hpaths, ⟨0, .start, ?_⟩, ?_⟩
          · rintro process outputs ⟨⟩
          · intro step hmem
            cases hmem
      | ok pair =>
          obtain ⟨process, outputs⟩ := pair
          have hreach := peer_reachable hrun.reachable
          have hcount : process.ctx.pathCount = conf.paths.length :=
            (sameConf_of_reachable hreach).pathCount
          refine ⟨process.senderPath, ?_, ⟨process.senderPath, .start, ?_⟩, ?_⟩
          · rw [← hcount]
            exact senderPath_lt_of_reachable hpaths hreach
          · rintro process' outputs' ⟨⟩
            rfl
          · intro step hmem
            cases hmem
  | cons step later ih =>
      cases hrun with
      | step hbefore hnext =>
          obtain ⟨hhead, htail⟩ := List.forall_mem_cons.mp hconstant
          obtain ⟨start, hstart, hround, honce⟩ := ih hbefore htail
          obtain ⟨process, outputs, rfl, hstep⟩ := hnext
          obtain ⟨hround', honce'⟩ :=
            step_goneRound hpaths hsome (peer_reachable hbefore.reachable) hround hstep hhead
          exact ⟨start, hstart, hround', List.forall_mem_cons.mpr ⟨honce', honce⟩⟩

/-- Only paths of the configuration are ever alive. -/
theorem aliveAfter_subset {steps : List (Step Outcome Event)} {outcome : Outcome}
    (hrun : History (outcomes crypto conf) steps outcome) :
    ∀ step ∈ steps, aliveAfter step.before ⊆ Finset.range conf.paths.length := by
  refine (hrun.forall_steps_iff
    (fun step => aliveAfter step.before ⊆ Finset.range conf.paths.length)
    (fun _ _ => True) ?_).mpr fun _ _ => trivial
  rintro outcome event outcome' hreach ⟨process, outputs, rfl, -⟩
  have hcount : process.ctx.pathCount = conf.paths.length :=
    (sameConf_of_reachable (peer_reachable hreach)).pathCount
  refine iff_of_true ?_ trivial
  rw [← hcount]
  exact Finset.filter_subset _ _

/-- As many datagrams as packets. -/
theorem length_packetPaths {alive : Finset Nat} {steps : List (Step Outcome Event)}
    (honce : ∀ step ∈ steps, isPacket step.event = true →
      ∃ path ∈ alive, packetPaths step = [path]) :
    (steps.flatMap packetPaths).length = steps.countP fun step => isPacket step.event := by
  induction steps with
  | nil => rfl
  | cons step steps ih =>
      obtain ⟨hhead, htail⟩ := List.forall_mem_cons.mp honce
      rw [List.flatMap_cons, List.length_append, List.countP_cons, ih htail, Nat.add_comm]
      congr 1
      cases hpacket : isPacket step.event with
      | true =>
          obtain ⟨path, -, hplace⟩ := hhead hpacket
          rw [hplace]
          rfl
      | false =>
          rw [packetPaths_of_quiet hpacket]
          rfl

/-- **Round robin over the live paths.**  Every packet goes to the first live path
behind the last one; and while the same paths stay alive, every one of them carries
its share of the packets. -/
theorem udpSender_servesFairly :
    (∀ (ctx : Ctx) (last : Nat), last < ctx.pathCount → SelectsFirst ctx last) ∧
      ∀ (crypto : Crypto) (conf : Conf), 0 < conf.paths.length →
        ∀ (alive : Finset Nat), alive.Nonempty →
          ∀ (later earlier : List (Step Outcome Event)) (outcome : Outcome),
            History (outcomes crypto conf) (later ++ earlier) outcome →
            (∀ step ∈ later, isPacket step.event = true → aliveAfter step.before = alive) →
            ServesFairly alive later := by
  refine ⟨fun ctx last hlast => selectsFirst hlast, ?_⟩
  intro crypto conf hpaths alive hsome later earlier outcome hrun hconstant
  obtain ⟨start, hstart, ⟨last, hrounds, -⟩, honce⟩ := exists_goneRound hpaths hsome hrun hconstant
  refine ⟨honce, fun path hpath => ?_⟩
  rw [← length_packetPaths honce]
  by_cases hany : ∃ step ∈ later, isPacket step.event = true
  · obtain ⟨step, hmem, hpacket⟩ := hany
    have hinside : alive ⊆ Finset.range conf.paths.length := by
      rw [← hconstant step hmem hpacket]
      exact aliveAfter_subset hrun step (List.mem_append_left earlier hmem)
    have hcard : Nat.count (fun path => path ∈ alive) conf.paths.length = alive.card := by
      rw [Nat.count_eq_card_filter_range, Finset.filter_mem_eq_inter,
        Finset.inter_eq_right.mpr hinside]
    rw [← hcard]
    exact hrounds.share hstart (Finset.mem_range.mp (hinside hpath)) hpath
  · -- no packet, nothing to share
    have hnone : (later.flatMap packetPaths).length = 0 := by
      rw [length_packetPaths honce, List.countP_eq_zero]
      intro step hmem hpacket
      exact hany ⟨step, hmem, hpacket⟩
    rw [List.length_eq_zero_iff.mp hnone]
    apply Or.inl
    rw [List.count_nil, List.length_nil, Nat.zero_div]

/-! ## Two paths -/

/-- A server with two paths. -/
def twoPathConf : Conf :=
  { onePathConf .server with
    paths := [⟨"192.0.2.1", 1200, 1200⟩, ⟨"192.0.2.2", 1200, 1200⟩] }

/-- It starts, and a client comes up on both. -/
def startTwoPaths : List Event :=
  [.start (Reference.bufferOf []) 0 (some ⟨1, 1200⟩),
    .start (Reference.bufferOf []) 0 (some ⟨2, 1200⟩),
    .start (Reference.bufferOf []) 0 none,
    .received 0 ⟨3, 5000⟩ Reference.twoByteDatagram,
    .received 1 ⟨4, 5000⟩ Reference.twoByteDatagram]

/-- Two packets, one on each path. -/
theorem udpSender_servesFairly_twoPaths :
    ∃ later : List (Step Outcome Event),
      later.map Step.event = [firstPacket, firstPacket] ∧ ServesFairly {0, 1} later := by
  have hruns : ((run (nextOutcome Reference.crypto) (.ok (vpnRun twoPathConf, []))
      startTwoPaths).any fun outcome => decide (aliveAfter outcome = {0, 1}) &&
        (nextOutcome Reference.crypto outcome firstPacket).any fun outcome' =>
          decide (aliveAfter outcome' = {0, 1}) &&
            (nextOutcome Reference.crypto outcome' firstPacket).isSome) = true := by
    decide +kernel
  obtain ⟨outcome, hrun, hfirst⟩ := (Option.any_eq_true _ _).mp hruns
  obtain ⟨halive, hsecond⟩ := (Bool.and_eq_true _ _).mp hfirst
  obtain ⟨outcome', hnext, hlast⟩ := (Option.any_eq_true _ _).mp hsecond
  obtain ⟨halive', hends⟩ := (Bool.and_eq_true _ _).mp hlast
  obtain ⟨outcome'', hnext'⟩ := Option.isSome_iff_exists.mp hends
  have hinitial : (outcomes Reference.crypto twoPathConf).initial
      (.ok (vpnRun twoPathConf, [])) := rfl
  obtain ⟨earlier, hhistory, -⟩ :=
    exists_history_of_run (fun _ _ _ => nextOutcome_eq_some) hinitial hrun
  refine ⟨[⟨outcome', firstPacket, outcome''⟩, ⟨outcome, firstPacket, outcome'⟩], rfl, ?_⟩
  refine udpSender_servesFairly.2 Reference.crypto twoPathConf (by decide) {0, 1}
    ⟨0, by decide⟩ _ earlier outcome''
    (.step (.step hhistory (nextOutcome_eq_some hnext)) (nextOutcome_eq_some hnext')) ?_
  rintro step hmem -
  simp only [List.mem_cons, List.not_mem_nil, or_false] at hmem
  rcases hmem with rfl | rfl
  · exact of_decide_eq_true halive'
  · exact of_decide_eq_true halive

end Vpn
end Muon
