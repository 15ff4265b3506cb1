import Muon.Totp

/-!
# The time step and the width of a long

`totp` multiplies the seconds by 1000 in the type of `tv.tv_sec` and widens the sum
only afterwards.  Where `time_t` and `long` have 32 bits the sum wraps as soon as it
does not fit, 24.8 days after the epoch, and from then on such a peer computes
another time step than a peer with 64 bits.
-/

namespace Muon
namespace Totp

open Foundation Packet

/-- `tv_sec * 1000 + tv_usec / 1000`, without a width. -/
def exactMilliseconds (tv : Timeval) : Int := tv.sec * 1000 + (tv.usec / 1000 : Nat)

/-- A peer with a 32-bit `long` computes the time step that a peer with a 64-bit
`long` computes, and this is the step of the clock, moved by the offset; so both
compute the same tokens. -/
structure AgreesAcrossWidths (tv : Timeval) (offset : Int) : Prop where
  step : timeStep 32 tv offset = timeStep 64 tv offset
  exact_step : (timeStep 64 tv offset : Int) =
    (exactMilliseconds tv / totpStep + offset) % 2 ^ 64
  tokens : ∀ (crypto : Crypto) (range : Int),
    totpOn 32 crypto range tv offset = totpOn 64 crypto range tv offset

/-- With 64 bits the sum does not wrap. -/
theorem milliseconds_wide {tv : Timeval} (hlow : 0 ≤ tv.sec) (hhigh : tv.sec < 2 ^ 31) :
    (milliseconds 64 tv : Int) = exactMilliseconds tv := by
  have husec := tv.usec_lt
  unfold milliseconds exactMilliseconds
  rw [Int.bmod_eq_of_le (by omega) (by omega), toUInt64_of_nonneg (by omega) (by omega)]
  omega

/-- With 32 bits it keeps its value as long as it fits. -/
theorem milliseconds_narrow {tv : Timeval} (hlow : 0 ≤ tv.sec)
    (hfits : exactMilliseconds tv < 2 ^ 31) :
    (milliseconds 32 tv : Int) = exactMilliseconds tv := by
  unfold exactMilliseconds at hfits
  unfold milliseconds exactMilliseconds
  rw [Int.bmod_eq_of_le (by omega) (by omega), toUInt64_of_nonneg (by omega) (by omega)]
  omega

/-- When it does not fit, it either loses at least `2 ^ 32` or becomes negative, and
is then widened to almost `2 ^ 64`; in neither case does the step survive. -/
theorem milliseconds_narrow_wraps {tv : Timeval} (hlow : 0 ≤ tv.sec) (hhigh : tv.sec < 2 ^ 31)
    (hwraps : 2 ^ 31 ≤ exactMilliseconds tv) :
    milliseconds 32 tv / totpStep ≠ milliseconds 64 tv / totpStep := by
  have hwide := milliseconds_wide hlow hhigh
  have husec := tv.usec_lt
  have hbound : exactMilliseconds tv < 2 ^ 31 * 1000 := by
    unfold exactMilliseconds
    omega
  have hnarrow : milliseconds 32 tv = toUInt64 (Int.bmod (exactMilliseconds tv) (2 ^ 32)) := rfl
  have hwrapped := Int.bmod_def (exactMilliseconds tv) (2 ^ 32)
  simp only [totpStep]
  rw [hnarrow, hwrapped]
  unfold toUInt64
  split <;> omega

/-- Adding an offset modulo `2 ^ 64` keeps different steps apart. -/
theorem timeStep_eq_iff {tv : Timeval} {offset : Int} :
    timeStep 32 tv offset = timeStep 64 tv offset ↔
      milliseconds 32 tv / totpStep = milliseconds 64 tv / totpStep := by
  have hnarrow : milliseconds 32 tv < 2 ^ 64 := toUInt64_lt _
  have hwide : milliseconds 64 tv < 2 ^ 64 := toUInt64_lt _
  unfold timeStep toUInt64 totpStep
  omega

/-- **When the word sizes agree.**  For every offset, exactly while the milliseconds
since the epoch fit a 32-bit `long`. -/
theorem agreesAcrossWidths_iff (tv : Timeval) (offset : Int) (hsec : 0 ≤ tv.sec)
    (hsecFits : tv.sec < 2 ^ 31) :
    AgreesAcrossWidths tv offset ↔ exactMilliseconds tv < 2 ^ 31 := by
  have hwide := milliseconds_wide hsec hsecFits
  constructor
  · intro hagrees
    by_contra hwraps
    exact milliseconds_narrow_wraps hsec hsecFits (Int.not_lt.mp hwraps)
      (timeStep_eq_iff.mp hagrees.step)
  · intro hfits
    have hsame : milliseconds 32 tv = milliseconds 64 tv := by
      have hnarrow := milliseconds_narrow hsec hfits
      omega
    have hstep : timeStep 32 tv offset = timeStep 64 tv offset := by
      rw [timeStep_eq_iff, hsame]
    refine ⟨hstep, ?_, fun crypto range => ?_⟩
    · unfold timeStep toUInt64
      rw [← hwide]
      simp only [totpStep]
      omega
    · unfold totpOn
      rw [hstep]

/-- In the last second before the boundary both widths agree. -/
theorem agreesAcrossWidths_early :
    AgreesAcrossWidths (Timeval.ofMilliseconds 2147483000) (-19) :=
  (agreesAcrossWidths_iff (Timeval.ofMilliseconds 2147483000) (-19) (by decide)
    (by decide)).mpr (by decide)

/-- At any date of this century they do not. -/
theorem exists_not_agreesAcrossWidths :
    ¬ ∀ (tv : Timeval) (offset : Int), 0 ≤ tv.sec → tv.sec < 2 ^ 31 → -19 ≤ offset →
        offset ≤ 19 → AgreesAcrossWidths tv offset := by
  intro hall
  have hagrees := hall (Timeval.ofMilliseconds 1500000000000) 0 (by decide) (by decide)
    (by decide) (by decide)
  have hdiffer : timeStep 32 (Timeval.ofMilliseconds 1500000000000) 0 ≠
      timeStep 64 (Timeval.ofMilliseconds 1500000000000) 0 := by decide
  exact hdiffer hagrees.step

end Totp
end Muon
