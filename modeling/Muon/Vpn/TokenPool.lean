import Mathlib.Data.Nat.Find
import Muon.Foundation.Assignments
import Muon.Reference.Libraries
import Muon.Totp
import Muon.Vpn.Context

/-!
# The pool of valid tokens

`heartbeat` refreshes the pool of a path with two loops: the first fills the even
slots with the current and later tokens, the second the odd slots from 3 on with
earlier ones.  Each of the 39 calls of `totp` reads the clock again.  The server
accepts a token that it finds in any of the 40 slots.

Slot 1 belongs to neither loop and keeps the zero of `vpn_init`.
-/

namespace Muon
namespace Vpn

open Foundation Packet Totp

/-- Slot and offset of the calls of `totp` in one refresh, in order. -/
def refreshCalls : List (Nat × Int) :=
  (((List.range pool).filter fun i => i * 2 < pool).map
      fun (i : Nat) => (i * 2, (i : Int))) ++
    (((List.range pool).filter fun i => 1 ≤ i ∧ i * 2 + 1 < pool).map
      fun (i : Nat) => (i * 2 + 1, -(i : Int)))

/-- The assignments of one refresh; call number `call` reads the clock value
`readings call`. -/
def refreshAssignments (crypto : Crypto) (range : Int) (readings : Nat → Timeval) :
    List (Nat × Int) :=
  refreshCalls.zipIdx.map fun ((slot, offset), call) =>
    (slot, totp crypto range (readings call) offset)

/-- The refresh of `ctx.paths[path].valid_tokens` in `heartbeat`. -/
def refreshTokens (crypto : Crypto) (range : Int) (readings : Nat → Timeval)
    (validTokens : Nat → Int) : Nat → Int :=
  assignAll validTokens (refreshAssignments crypto range readings)

/-- The scan of `udp_worker`: some slot holds the token. -/
def tokenAccepted (validTokens : Nat → Int) (token : Int) : Bool :=
  (List.range pool).any fun i => token == validTokens i

theorem tokenAccepted_iff {validTokens : Nat → Int} {token : Int} :
    tokenAccepted validTokens token = true ↔ ∃ i, i < 40 ∧ token = validTokens i := by
  simp [tokenAccepted, pool]

/-! ## What the loops leave in the slots -/

private theorem map_fst_refreshAssignments (crypto : Crypto) (range : Int)
    (readings : Nat → Timeval) :
    (refreshAssignments crypto range readings).map Prod.fst = refreshCalls.map Prod.fst := by
  calc (refreshAssignments crypto range readings).map Prod.fst
      = (refreshCalls.zipIdx.map Prod.fst).map Prod.fst := by
        rw [refreshAssignments, List.map_map, List.map_map]
        rfl
    _ = refreshCalls.map Prod.fst := by rw [List.zipIdx_map_fst]

/-- A slot holds what its own call computed. -/
theorem refreshTokens_of_call (crypto : Crypto) (range : Int) (readings : Nat → Timeval)
    (validTokens : Nat → Int) {call slot : Nat} {offset : Int}
    (hcall : ((slot, offset), call) ∈ refreshCalls.zipIdx) :
    refreshTokens crypto range readings validTokens slot =
      totp crypto range (readings call) offset := by
  refine assignAll_of_mem _ ?_ (List.mem_map.mpr ⟨_, hcall, rfl⟩)
  rw [map_fst_refreshAssignments]
  decide

/-- Call `i` of the first loop. -/
theorem mem_refreshCalls_forward {i : Nat} (hi : i < 20) :
    ((2 * i, (i : Int)), i) ∈ refreshCalls.zipIdx := by
  have hall : ∀ i : Nat, i < 20 → ((2 * i, (i : Int)), i) ∈ refreshCalls.zipIdx := by decide
  exact hall i hi

/-- Call `i` of the second loop. -/
theorem mem_refreshCalls_backward {i : Nat} (hlow : 1 ≤ i) (hi : i < 20) :
    ((2 * i + 1, -(i : Int)), 19 + i) ∈ refreshCalls.zipIdx := by
  have hall : ∀ i : Nat, i < 20 → 1 ≤ i →
      ((2 * i + 1, -(i : Int)), 19 + i) ∈ refreshCalls.zipIdx := by decide
  exact hall i hi hlow

/-- There are no other calls. -/
theorem mem_refreshCalls_cases {call slot : Nat} {offset : Int}
    (hcall : ((slot, offset), call) ∈ refreshCalls.zipIdx) :
    (∃ i, i < 20 ∧ slot = 2 * i ∧ offset = i ∧ call = i) ∨
      ∃ i, 1 ≤ i ∧ i < 20 ∧ slot = 2 * i + 1 ∧ offset = -i ∧ call = 19 + i := by
  have hall : ∀ entry ∈ refreshCalls.zipIdx,
      (∃ i < 20, entry.1.1 = 2 * i ∧ entry.1.2 = (i : Int) ∧ entry.2 = i) ∨
        ∃ i < 20, 1 ≤ i ∧ entry.1.1 = 2 * i + 1 ∧ entry.1.2 = -(i : Int) ∧
          entry.2 = 19 + i := by decide
  rcases hall _ hcall with ⟨i, hi, hslot, hoffset, hindex⟩ | ⟨i, hi, hlow, hslot, hoffset, hindex⟩
  · exact Or.inl ⟨i, hi, hslot, hoffset, hindex⟩
  · exact Or.inr ⟨i, hlow, hi, hslot, hoffset, hindex⟩

theorem refreshTokens_forward (crypto : Crypto) (range : Int) (readings : Nat → Timeval)
    (validTokens : Nat → Int) {i : Nat} (hi : i < 20) :
    refreshTokens crypto range readings validTokens (2 * i) =
      totp crypto range (readings i) i :=
  refreshTokens_of_call crypto range readings validTokens (mem_refreshCalls_forward hi)

theorem refreshTokens_backward (crypto : Crypto) (range : Int) (readings : Nat → Timeval)
    (validTokens : Nat → Int) {i : Nat} (hlow : 1 ≤ i) (hi : i < 20) :
    refreshTokens crypto range readings validTokens (2 * i + 1) =
      totp crypto range (readings (19 + i)) (-i) :=
  refreshTokens_of_call crypto range readings validTokens
    (mem_refreshCalls_backward hlow hi)

/-- No loop writes slot 1. -/
theorem refreshTokens_one (crypto : Crypto) (range : Int) (readings : Nat → Timeval)
    (validTokens : Nat → Int) :
    refreshTokens crypto range readings validTokens 1 = validTokens 1 := by
  refine assignAll_of_not_mem _ ?_
  rw [map_fst_refreshAssignments]
  decide

/-- After a refresh at one clock value the scan accepts the tokens of the 39
steps around it, and whatever slot 1 holds. -/
theorem tokenAccepted_refreshTokens (crypto : Crypto) (range : Int)
    {readings : Nat → Timeval} {tv : Timeval} (hreadings : ∀ call, readings call = tv)
    (validTokens : Nat → Int) (token : Int) :
    tokenAccepted (refreshTokens crypto range readings validTokens) token = true ↔
      token = validTokens 1 ∨
        ∃ k : Int, -19 ≤ k ∧ k ≤ 19 ∧ token = totp crypto range tv k := by
  rw [tokenAccepted_iff]
  constructor
  · rintro ⟨slot, hslot, rfl⟩
    by_cases hone : slot = 1
    · subst hone
      exact Or.inl (refreshTokens_one _ _ _ _)
    · right
      obtain ⟨i, rfl | rfl⟩ : ∃ i, slot = 2 * i ∨ slot = 2 * i + 1 :=
        ⟨slot / 2, by omega⟩
      · refine ⟨i, by omega, by omega, ?_⟩
        rw [refreshTokens_forward crypto range readings validTokens (by omega), hreadings]
      · refine ⟨-i, by omega, by omega, ?_⟩
        rw [refreshTokens_backward crypto range readings validTokens (by omega) (by omega),
          hreadings]
  · rintro (hone | ⟨k, hlow, hhigh, htoken⟩)
    · exact ⟨1, by omega, by rw [refreshTokens_one, hone]⟩
    · rcases Int.lt_or_le k 0 with hneg | hnonneg
      · obtain ⟨i, rfl⟩ : ∃ i : Nat, k = -i := ⟨k.natAbs, by omega⟩
        refine ⟨2 * i + 1, by omega, ?_⟩
        rw [refreshTokens_backward crypto range readings validTokens (by omega) (by omega),
          hreadings, htoken]
      · obtain ⟨i, rfl⟩ : ∃ i : Nat, k = i := ⟨k.natAbs, by omega⟩
        refine ⟨2 * i, by omega, ?_⟩
        rw [refreshTokens_forward crypto range readings validTokens (by omega), hreadings,
          htoken]

/-! ## A refresh under a moving clock -/

/-- The time step of a clock value. -/
def stepOf (tv : Timeval) : Nat := milliseconds 64 tv / totpStep

/-- The refresh evaluated the token of a step into some slot. -/
def Evaluated (crypto : Crypto) (range : Int) (readings : Nat → Timeval)
    (validTokens : Nat → Int) (step : Int) : Prop :=
  ∃ call slot offset, ((slot, offset), call) ∈ refreshCalls.zipIdx ∧
    refreshTokens crypto range readings validTokens slot =
      totp crypto range (readings call) offset ∧
    stepOf (readings call) + offset = step

/-- The 39 readings do not decrease and span less than a time step. -/
structure ShortRefresh (readings : Nat → Timeval) : Prop where
  mono : ∀ call call', call ≤ call' → call' < 39 →
    milliseconds 64 (readings call) ≤ milliseconds 64 (readings call')
  span : milliseconds 64 (readings 38) < milliseconds 64 (readings 0) + totpStep

theorem evaluated_iff (crypto : Crypto) (range : Int) (readings : Nat → Timeval)
    (validTokens : Nat → Int) (step : Int) :
    Evaluated crypto range readings validTokens step ↔
      (∃ i : Nat, i < 20 ∧ stepOf (readings i) + (i : Int) = step) ∨
        ∃ i : Nat, 1 ≤ i ∧ i < 20 ∧ stepOf (readings (19 + i)) - (i : Int) = step := by
  constructor
  · rintro ⟨call, slot, offset, hcall, -, hstep⟩
    rcases mem_refreshCalls_cases hcall with
      ⟨i, hi, rfl, rfl, rfl⟩ | ⟨i, hlow, hi, rfl, rfl, rfl⟩
    · exact Or.inl ⟨_, hi, hstep⟩
    · exact Or.inr ⟨i, hlow, hi, by omega⟩
  · rintro (⟨i, hi, hstep⟩ | ⟨i, hlow, hi, hstep⟩)
    · exact ⟨i, 2 * i, i, mem_refreshCalls_forward hi,
        refreshTokens_forward crypto range readings validTokens hi, hstep⟩
    · exact ⟨19 + i, 2 * i + 1, -i, mem_refreshCalls_backward hlow hi,
        refreshTokens_backward crypto range readings validTokens hlow hi, by omega⟩

/-- The steps of the readings do not decrease. -/
theorem ShortRefresh.stepOf_mono {readings : Nat → Timeval} (hshort : ShortRefresh readings)
    (call call' : Nat) (hle : call ≤ call') (hlt : call' < 39) :
    stepOf (readings call) ≤ stepOf (readings call') :=
  Nat.div_le_div_right (hshort.mono call call' hle hlt)

/-- At most one step boundary falls into the refresh. -/
theorem ShortRefresh.stepOf_last_le {readings : Nat → Timeval}
    (hshort : ShortRefresh readings) : stepOf (readings 38) ≤ stepOf (readings 0) + 1 := by
  have hspan := hshort.span
  simp only [stepOf, totpStep] at *
  omega

/-- **When a moving clock leaves no hole.**  The refresh evaluates every step at
most 18 away from the step of its last reading exactly when the first 20
readings, those of the first loop, fall in one step. -/
theorem refreshTokens_evaluated_iff (crypto : Crypto) (range : Int) (_hrange : 0 < range)
    (readings : Nat → Timeval) (hshort : ShortRefresh readings) (validTokens : Nat → Int) :
    (∀ step : Int, (step - stepOf (readings 38)).natAbs ≤ 18 →
        Evaluated crypto range readings validTokens step) ↔
      stepOf (readings 0) = stepOf (readings 19) := by
  have hlast := hshort.stepOf_last_le
  have hfirst19 := hshort.stepOf_mono 0 19 (by omega) (by omega)
  have h19last := hshort.stepOf_mono 19 38 (by omega) (by omega)
  simp only [evaluated_iff]
  constructor
  · intro hall
    by_contra hne
    -- The first reading after the boundary belongs to the first loop.
    have hexists : ∃ call, stepOf (readings call) = stepOf (readings 38) := ⟨38, rfl⟩
    obtain ⟨tick, htick, hbefore⟩ : ∃ tick, stepOf (readings tick) = stepOf (readings 38) ∧
        ∀ call, call < tick → stepOf (readings call) ≠ stepOf (readings 38) :=
      ⟨Nat.find hexists, Nat.find_spec hexists, fun _ => Nat.find_min hexists⟩
    have htickPos : 0 < tick := by
      by_contra hzero
      rw [show tick = 0 by omega] at htick
      omega
    have htickLe : tick ≤ 19 := by
      by_contra hlarge
      exact hbefore 19 (by omega) (by omega)
    have hstepBefore : ∀ i, i < tick → stepOf (readings i) + 1 = stepOf (readings 38) := by
      intro i hi
      have hne := hbefore i hi
      have hlow := hshort.stepOf_mono 0 i (by omega) (by omega)
      have hhigh := hshort.stepOf_mono i 38 (by omega) (by omega)
      omega
    have hstepAfter : ∀ i, tick ≤ i → i < 39 →
        stepOf (readings i) = stepOf (readings 38) := by
      intro i hi hlt
      have hlow := hshort.stepOf_mono tick i hi hlt
      have hhigh := hshort.stepOf_mono i 38 (by omega) (by omega)
      omega
    rcases hall (stepOf (readings 38) + tick - 1) (by omega) with
      ⟨i, hi, hstep⟩ | ⟨i, hlow, hi, hstep⟩
    · rcases Nat.lt_or_ge i tick with hearly | hlate
      · have := hstepBefore i hearly
        omega
      · have := hstepAfter i hlate (by omega)
        omega
    · have := hstepAfter (19 + i) (by omega) (by omega)
      omega
  · intro hsame step hstep
    have hforward : ∀ i, i < 20 → stepOf (readings i) = stepOf (readings 0) := by
      intro i hi
      have hlow := hshort.stepOf_mono 0 i (by omega) (by omega)
      have hhigh := hshort.stepOf_mono i 19 (by omega) (by omega)
      omega
    have hbounds : ∀ i, i < 20 → stepOf (readings 19) ≤ stepOf (readings (19 + i)) ∧
        stepOf (readings (19 + i)) ≤ stepOf (readings 38) := fun i hi =>
      ⟨hshort.stepOf_mono _ _ (by omega) (by omega),
        hshort.stepOf_mono _ _ (by omega) (by omega)⟩
    obtain ⟨shift, hshift⟩ : ∃ shift : Nat,
        stepOf (readings 38) = stepOf (readings 0) + shift ∧ shift ≤ 1 :=
      ⟨stepOf (readings 38) - stepOf (readings 0), by omega, by omega⟩
    rcases Int.lt_or_le (step - stepOf (readings 0)) 0 with hneg | hnonneg
    · right
      -- The boundary, if it falls behind call `back`, makes the call before it hit.
      obtain ⟨back, hback⟩ : ∃ back : Nat, step = stepOf (readings 38) - back :=
        ⟨(step - stepOf (readings 38)).natAbs, by omega⟩
      have hhere := hbounds back (by omega)
      have hprev := hbounds (back - 1) (by omega)
      have hmono := hshort.stepOf_mono (19 + (back - 1)) (19 + back)
        (by omega) (by omega)
      by_cases hticked : stepOf (readings (19 + back)) = stepOf (readings 38)
      · exact ⟨back, by omega, by omega, by omega⟩
      · exact ⟨back - 1, by omega, by omega, by omega⟩
    · left
      obtain ⟨i, hi⟩ : ∃ i : Nat, step = stepOf (readings 0) + i :=
        ⟨(step - stepOf (readings 0)).natAbs, by omega⟩
      have := hforward i (by omega)
      exact ⟨i, by omega, by omega⟩

/-! ## A clock that ticks once -/

/-- A clock that reaches a step boundary after the given reading. -/
def tickingClock (last call : Nat) : Timeval :=
  Timeval.ofMilliseconds (if call ≤ last then 999 else 1000)

theorem shortRefresh_tickingClock {last : Nat} (hlast : last < 38) :
    ShortRefresh (tickingClock last) := by
  have hreading : ∀ call, milliseconds 64 (tickingClock last call) =
      if call ≤ last then 999 else 1000 := by
    intro call
    rw [tickingClock, milliseconds_ofMilliseconds (by split <;> omega)]
  refine ⟨?mono, ?span⟩
  case mono =>
    intro call call' hle _
    rw [hreading, hreading]
    split <;> split <;> omega
  case span =>
    rw [hreading, hreading, if_neg (by omega), if_pos (Nat.zero_le _)]
    decide

/-- A tick in the second loop leaves no hole: the steps next to the current one and the
outermost ones are there. -/
theorem refreshTokens_evaluated_backwardTick :
    Evaluated Reference.crypto 99 (tickingClock 20) (fun _ => 0) 2 ∧
      Evaluated Reference.crypto 99 (tickingClock 20) (fun _ => 0) 1 ∧
      Evaluated Reference.crypto 99 (tickingClock 20) (fun _ => 0) 0 ∧
      Evaluated Reference.crypto 99 (tickingClock 20) (fun _ => 0) (-16) ∧
      Evaluated Reference.crypto 99 (tickingClock 20) (fun _ => 0) 20 := by
  have hall := (refreshTokens_evaluated_iff Reference.crypto 99 (by omega) (tickingClock 20)
    (shortRefresh_tickingClock (by omega)) (fun _ => 0)).mpr (by decide)
  exact ⟨hall 2 (by decide), hall 1 (by decide), hall 0 (by decide), hall (-16) (by decide),
    hall 20 (by decide)⟩

/-- A tick right after the first reading leaves a hole at the current step. -/
theorem exists_refreshTokens_hole :
    ¬ ∀ (crypto : Crypto) (range : Int), 0 < range → ∀ readings, ShortRefresh readings →
        ∀ (validTokens : Nat → Int) (step : Int),
        (step - stepOf (readings 38)).natAbs ≤ 18 →
        Evaluated crypto range readings validTokens step := by
  intro hall
  have hfirst : stepOf (tickingClock 0 0) = 1 := by decide
  have hlater : ∀ call, call ≠ 0 → stepOf (tickingClock 0 call) = 2 := by
    intro call hcall
    rw [tickingClock, if_neg (by omega)]
    decide
  have hcurrent := hall Reference.crypto 99 (by omega) (tickingClock 0)
    (shortRefresh_tickingClock (by omega)) (fun _ => 0) 2 (by decide)
  rcases (evaluated_iff _ _ _ _ _).mp hcurrent with ⟨i, hi, hstep⟩ | ⟨i, hlow, hi, hstep⟩
  · rcases Nat.eq_zero_or_pos i with rfl | hpos
    · omega
    · have := hlater i (by omega)
      omega
  · have := hlater (19 + i) (by omega)
    omega

end Vpn
end Muon
