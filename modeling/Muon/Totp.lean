import Muon.Packet.Crypto

/-!
# Time-based tokens

`totp` of `totp.c`.  The clock is read once for each call and cut into steps of
500 ms; the token is the keyed hash of the step, written as 16 hexadecimal
digits, reduced byte by byte modulo `range + 1` in `int` arithmetic.

A call with `range = 0` reads no clock and returns 0.
-/

namespace Muon
namespace Totp

open Foundation Packet

/-- `TOTP_STEP`, in milliseconds. -/
def totpStep : Nat := 500

/-- What `gettimeofday` stores. -/
structure Timeval where
  sec : Int
  usec : Nat
  usec_lt : usec < 1000000

/-- The clock value of a number of milliseconds. -/
def Timeval.ofMilliseconds (ms : Nat) : Timeval where
  sec := (ms / 1000 : Nat)
  usec := ms % 1000 * 1000
  usec_lt := by omega

/-- `(unsigned long long)(tv.tv_sec * 1000 + tv.tv_usec / 1000)`, computed with a
`long` and a `time_t` of the given width. -/
def milliseconds (longBits : Nat) (tv : Timeval) : Nat :=
  toUInt64 (Int.bmod (tv.sec * 1000 + (tv.usec / 1000 : Nat)) (2 ^ longBits))

theorem milliseconds_ofMilliseconds {ms : Nat} (hms : ms < 2 ^ 63) :
    milliseconds 64 (Timeval.ofMilliseconds ms) = ms := by
  have hsum : ((ms / 1000 : Nat) : Int) * 1000 + ((ms % 1000 * 1000 / 1000 : Nat) : Int) =
      ms := by omega
  simp only [milliseconds, Timeval.ofMilliseconds]
  rw [hsum, Int.bmod_eq_of_le (by omega) (by omega), toUInt64_natCast (by omega)]

/-- The value `t` of `totp`: the time step of a clock value, moved by an
offset. -/
def timeStep (longBits : Nat) (tv : Timeval) (offset : Int) : Nat :=
  toUInt64 ((milliseconds longBits tv / totpStep : Nat) + offset)

/-- One lower-case hexadecimal digit. -/
def hexDigit (digit : Nat) : UInt8 :=
  UInt8.ofNat (if digit < 10 then 48 + digit else 87 + digit)

/-- `sprintf(s, "%016llx", t)`. -/
def stepText (t : Nat) : List UInt8 :=
  (List.range 16).map fun i => hexDigit (t / 16 ^ (15 - i) % 16)

/-- One iteration of the loop that reduces the digest. -/
def reduceByte (range token : Int) (d : UInt8) : Int :=
  (toInt32 (toInt32 (token * 256) + d.toNat)).tmod (toInt32 (range + 1))

/-- The token of a time step. -/
def tokenOfStep (crypto : Crypto) (range : Int) (t : Nat) : Int :=
  (crypto.hmac (stepText t)).toList.foldl (reduceByte range) 0

/-- `totp(range, offset)` on a target with a `long` of the given width. -/
def totpOn (longBits : Nat) (crypto : Crypto) (range : Int) (tv : Timeval)
    (offset : Int) : Int :=
  if range = 0 then 0 else tokenOfStep crypto range (timeStep longBits tv offset)

/-- `totp(range, offset)` at a clock value, on a 64-bit target. -/
def totp (crypto : Crypto) (range : Int) (tv : Timeval) (offset : Int) : Int :=
  totpOn 64 crypto range tv offset

/-- The largest range whose reduction stays within `int`. -/
def rangeMax : Int := 8388607

/-- One iteration keeps the token in the range. -/
theorem reduceByte_bounds {range token : Int} (hlow : 0 ≤ range) (hhigh : range ≤ rangeMax)
    (d : UInt8) (htoken : 0 ≤ token ∧ token ≤ range) :
    0 ≤ reduceByte range token d ∧ reduceByte range token d ≤ range := by
  have hd := d.toNat_lt
  simp only [rangeMax] at hhigh
  unfold reduceByte
  have hproduct : toInt32 (token * 256) = token * 256 :=
    toInt32_of_fits (by omega) (by omega)
  rw [hproduct, toInt32_of_fits (by omega) (by omega),
    toInt32_of_fits (by omega) (by omega)]
  have hnonneg := Int.tmod_nonneg (a := token * 256 + d.toNat) (range + 1) (by omega)
  have hlt := Int.tmod_lt_of_pos (token * 256 + d.toNat) (b := range + 1) (by omega)
  omega

/-- So does the whole loop. -/
theorem foldl_reduceByte_bounds {range : Int} (hlow : 0 ≤ range)
    (hhigh : range ≤ rangeMax) (digest : List UInt8) {token : Int}
    (htoken : 0 ≤ token ∧ token ≤ range) :
    0 ≤ digest.foldl (reduceByte range) token ∧
      digest.foldl (reduceByte range) token ≤ range := by
  induction digest generalizing token with
  | nil => exact htoken
  | cons d digest ih => exact ih (reduceByte_bounds hlow hhigh d htoken)

/-- A token names one of the ports of the range. -/
theorem totp_bounds (crypto : Crypto) {range : Int} (hlow : 0 ≤ range)
    (hhigh : range ≤ rangeMax) (tv : Timeval) (offset : Int) :
    0 ≤ totp crypto range tv offset ∧ totp crypto range tv offset ≤ range := by
  unfold totp totpOn
  split
  · omega
  · exact foldl_reduceByte_bounds hlow hhigh _ ⟨Int.le_refl 0, hlow⟩

/-- Readings of the same step give the same token. -/
theorem totp_congr (crypto : Crypto) (range : Int) {tv tv' : Timeval} {offset offset' : Int}
    (hstep : timeStep 64 tv offset = timeStep 64 tv' offset') :
    totp crypto range tv offset = totp crypto range tv' offset' := by
  simp only [totp, totpOn, hstep]

/-- Away from zero and from overflow, an offset moves the step by as much. -/
theorem timeStep_eq {tv : Timeval} {offset : Int}
    (hlow : 0 ≤ (milliseconds 64 tv / totpStep : Nat) + offset)
    (hhigh : offset < 2 ^ 63) :
    (timeStep 64 tv offset : Int) = (milliseconds 64 tv / totpStep : Nat) + offset := by
  have hbound : milliseconds 64 tv < 2 ^ 64 := toUInt64_lt _
  simp only [totpStep] at *
  unfold timeStep
  rw [totpStep, toUInt64_of_nonneg hlow (by omega)]
  omega

end Totp
end Muon
