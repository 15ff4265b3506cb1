import Mathlib.Data.Nat.Digits.Lemmas
import Muon.Totp

/-!
# The reduction of a digest

The loop of `totp` computes in `int`.  Its values fit as long as `range * 256 + 255`
does; whether they do for a larger range depends on the digest.  While they fit, the
token is the remainder of the digest, read as a number.
-/

namespace Muon
namespace Totp

open Foundation Packet

/-- Every value the loop computes, from a token on, fits an `int`. -/
def ReductionFits (range : Int) : (token : Int) → (digest : List UInt8) → Prop
  | _, [] => True
  | token, d :: digest =>
      FitsInt (token * 256) ∧ FitsInt (token * 256 + d.toNat) ∧
        ReductionFits range (reduceByte range token d) digest

/-- A small range keeps every value of the loop within `int`. -/
theorem reductionFits_of_le {range : Int} (hlow : 0 ≤ range) (hhigh : range ≤ rangeMax)
    (digest : List UInt8) {token : Int} (htoken : 0 ≤ token ∧ token ≤ range) :
    ReductionFits range token digest := by
  induction digest generalizing token with
  | nil => trivial
  | cons d digest ih =>
      have hd := d.toNat_lt
      have hmax : rangeMax = 8388607 := rfl
      refine ⟨?_, ?_, ih (reduceByte_bounds hlow hhigh d htoken)⟩
      · unfold FitsInt
        omega
      · unfold FitsInt
        omega

/-- While the value is below the modulus, a byte is just appended to it. -/
theorem reduceByte_append {range token : Int} {d : UInt8} (hrange : FitsInt (range + 1))
    (htoken : 0 ≤ token) (hvalue : token * 256 + d.toNat ≤ range) :
    reduceByte range token d = token * 256 + d.toNat := by
  obtain ⟨hlow, hhigh⟩ := hrange
  have hd := d.toNat_lt
  have hproduct : toInt32 (token * 256) = token * 256 :=
    toInt32_of_fits (by omega) (by omega)
  unfold reduceByte
  rw [hproduct, toInt32_of_fits (by omega) (by omega), toInt32_of_fits hlow hhigh]
  exact Int.tmod_eq_of_lt (by omega) (by omega)

/-- A digest whose first 14 bytes are zero and whose last two spell a number. -/
def shortDigest (number : Nat) : Vector UInt8 16 :=
  ⟨#[0, 0, 0, 0, 0, 0, 0, 0, 0, 0, 0, 0, 0, 0,
    UInt8.ofNat (number / 256), UInt8.ofNat (number % 256)], rfl⟩

/-- Such a digest is its number, when the number is in the range. -/
theorem foldl_shortDigest {range : Int} {number : Nat} (hrange : FitsInt (range + 1))
    (hnumber : number < 65536) (hle : (number : Int) ≤ range) :
    (shortDigest number).toList.foldl (reduceByte range) 0 = number := by
  have hzero : reduceByte range 0 0 = 0 := reduceByte_append hrange (Int.le_refl 0) (by
    have hbyte : (0 : UInt8).toNat = 0 := rfl
    omega)
  have hhigh : (UInt8.ofNat (number / 256)).toNat = number / 256 :=
    UInt8.toNat_ofNat_of_lt' (by show number / 256 < 256; omega)
  have hlow : (UInt8.ofNat (number % 256)).toNat = number % 256 :=
    UInt8.toNat_ofNat_of_lt' (by show number % 256 < 256; omega)
  have hdigits : (shortDigest number).toList = List.replicate 14 0 ++
      [UInt8.ofNat (number / 256), UInt8.ofNat (number % 256)] := rfl
  have hleading : (List.replicate 14 0).foldl (reduceByte range) 0 = 0 := by
    simp only [List.replicate, List.foldl_cons, List.foldl_nil, hzero]
  rw [hdigits, List.foldl_append, hleading, List.foldl_cons, List.foldl_cons, List.foldl_nil,
    reduceByte_append hrange (Int.le_refl 0) (by omega), hhigh,
    reduceByte_append hrange (by omega) (by omega), hlow]
  omega

/-! ## The remainder of a digest -/

/-- The values the loop computes, in their order, when the token so far is an `int`. -/
def loopValues (range : Int) : (token : Int) → (digest : List UInt8) → List Int
  | _, [] => []
  | token, d :: digest =>
      (token * 256) :: (token * 256 + d.toNat) :: reduceByte range token d ::
        loopValues range (reduceByte range token d) digest

/-- A digest as a big-endian number. -/
def bigEndian (digest : List UInt8) : Nat :=
  Nat.ofDigits 256 (digest.map UInt8.toNat).reverse

/-- A byte in front counts for the place it has. -/
theorem bigEndian_cons (d : UInt8) (digest : List UInt8) :
    bigEndian (d :: digest) = bigEndian digest + 256 ^ digest.length * d.toNat := by
  unfold bigEndian
  rw [List.map_cons, List.reverse_cons, Nat.ofDigits_append, List.length_reverse,
    List.length_map, Nat.ofDigits_singleton]

/-- A small range keeps every value of the loop an `int`, and none is negative. -/
theorem loopValues_fit {range : Int} (hlow : 0 ≤ range) (hhigh : range ≤ rangeMax)
    (digest : List UInt8) {token : Int} (htoken : 0 ≤ token ∧ token ≤ range) :
    ∀ value ∈ loopValues range token digest, 0 ≤ value ∧ FitsInt value := by
  induction digest generalizing token with
  | nil => exact nofun
  | cons d digest ih =>
      have hd := d.toNat_lt
      have hmax : rangeMax = 8388607 := rfl
      have hnext := reduceByte_bounds hlow hhigh d htoken
      rw [loopValues, List.forall_mem_cons, List.forall_mem_cons, List.forall_mem_cons]
      refine ⟨?_, ?_, ?_, ih hnext⟩
      all_goals
        unfold FitsInt
        omega

/-- One iteration is exact: nothing wraps, and `%` has no negative operand. -/
theorem reduceByte_eq {range token : Int} (hlow : 0 ≤ range) (hhigh : range ≤ rangeMax)
    (d : UInt8) (htoken : 0 ≤ token ∧ token ≤ range) :
    reduceByte range token d = (token * 256 + d.toNat) % (range + 1) := by
  have hd := d.toNat_lt
  have hmax : rangeMax = 8388607 := rfl
  have hproduct : toInt32 (token * 256) = token * 256 :=
    toInt32_of_fits (by omega) (by omega)
  unfold reduceByte
  rw [hproduct, toInt32_of_fits (by omega) (by omega), toInt32_of_fits (by omega) (by omega)]
  exact Int.tmod_eq_emod_of_nonneg (by omega)

/-- The loop keeps the remainder of the part of the digest it has read: from a token on,
it leaves the remainder of the token followed by the rest. -/
theorem foldl_reduceByte_eq {range : Int} (hlow : 0 ≤ range) (hhigh : range ≤ rangeMax)
    (digest : List UInt8) {token : Int} (htoken : 0 ≤ token ∧ token ≤ range) :
    digest.foldl (reduceByte range) token =
      (token * 256 ^ digest.length + bigEndian digest) % (range + 1) := by
  induction digest generalizing token with
  | nil =>
      have hempty : bigEndian [] = 0 := rfl
      rw [List.foldl_nil, List.length_nil, hempty, Int.pow_zero, Int.mul_one, Int.natCast_zero,
        Int.add_zero]
      exact (Int.emod_eq_of_lt htoken.1 (by omega)).symm
  | cons d digest ih =>
      have hnext := reduceByte_bounds hlow hhigh d htoken
      calc (d :: digest).foldl (reduceByte range) token
          = (reduceByte range token d * 256 ^ digest.length + bigEndian digest) %
              (range + 1) := ih hnext
        _ = ((token * 256 + d.toNat) % (range + 1) * 256 ^ digest.length + bigEndian digest) %
              (range + 1) := by rw [reduceByte_eq hlow hhigh d htoken]
        _ = ((token * 256 + d.toNat) * 256 ^ digest.length + bigEndian digest) %
              (range + 1) := by
            rw [Int.add_emod, Int.mul_emod, Int.emod_emod, ← Int.mul_emod, ← Int.add_emod]
        _ = (token * 256 ^ (d :: digest).length + bigEndian (d :: digest)) % (range + 1) := by
            congr 1
            rw [bigEndian_cons, List.length_cons, Int.pow_succ]
            push_cast
            ring

/-- What `totp` makes of a digest: the loop stays within `int`, and leaves the remainder,
which is what a call with this digest returns. -/
structure DigestReduced (range : Int) (digest : Vector UInt8 16) : Prop where
  modulus_fits : FitsInt (range + 1)
  values_fit : ∀ value ∈ loopValues range 0 digest.toList, 0 ≤ value ∧ FitsInt value
  remainder : digest.toList.foldl (reduceByte range) 0 =
    bigEndian digest.toList % (range + 1)
  in_range : 0 ≤ digest.toList.foldl (reduceByte range) 0 ∧
    digest.toList.foldl (reduceByte range) 0 ≤ range
  returned : ∀ (longBits : Nat) (crypto : Crypto) (tv : Timeval) (offset : Int),
    crypto.hmac (stepText (timeStep longBits tv offset)) = digest →
      totpOn longBits crypto range tv offset = digest.toList.foldl (reduceByte range) 0

/-- A digest whose last three bytes spell a number. -/
def spelledDigest (number : Nat) : Vector UInt8 16 :=
  ⟨#[0, 0, 0, 0, 0, 0, 0, 0, 0, 0, 0, 0, 0, UInt8.ofNat (number / 65536),
    UInt8.ofNat (number / 256 % 256), UInt8.ofNat (number % 256)], rfl⟩

theorem bigEndian_spelledDigest {number : Nat} (hnumber : number < 16777216) :
    bigEndian (spelledDigest number).toList = number := by
  have hbyte : ∀ value < 256, (UInt8.ofNat value).toNat = value := fun value hvalue =>
    UInt8.toNat_ofNat_of_lt' hvalue
  have hzero : (0 : UInt8).toNat = 0 := rfl
  have hbytes : (spelledDigest number).toList = List.replicate 13 0 ++
      [UInt8.ofNat (number / 65536), UInt8.ofNat (number / 256 % 256),
        UInt8.ofNat (number % 256)] := rfl
  rw [hbytes]
  simp only [List.replicate, List.cons_append, List.nil_append, bigEndian_cons, List.length_cons,
    List.length_nil, hzero, hbyte _ (by omega : number / 65536 < 256),
    hbyte _ (by omega : number / 256 % 256 < 256), hbyte _ (by omega : number % 256 < 256)]
  have hempty : bigEndian [] = 0 := rfl
  rw [hempty]
  omega

/-- **The token is the remainder of the digest.**  For every range whose products fit an
`int`, on every digest: no value of the loop is negative or leaves `int`, the token is
the digest modulo `range + 1`, and every token of the range is that of some digest. -/
theorem digestReduced (range : Int) (hlow : 1 ≤ range) (hhigh : range ≤ rangeMax) :
    (∀ digest, DigestReduced range digest) ∧
      ∀ token : Int, 0 ≤ token → token ≤ range →
        ∃ digest : Vector UInt8 16, digest.toList.foldl (reduceByte range) 0 = token := by
  have hmax : rangeMax = 8388607 := rfl
  have hzero : (0 : Int) ≤ 0 ∧ 0 ≤ range := by omega
  have hremainder : ∀ digest : Vector UInt8 16, digest.toList.foldl (reduceByte range) 0 =
      bigEndian digest.toList % (range + 1) := by
    intro digest
    have hreduced := foldl_reduceByte_eq hzero.2 hhigh digest.toList hzero
    rwa [Int.zero_mul, Int.zero_add] at hreduced
  constructor
  · intro digest
    constructor
    case modulus_fits =>
      unfold FitsInt
      omega
    case values_fit => exact loopValues_fit hzero.2 hhigh digest.toList hzero
    case remainder => exact hremainder digest
    case in_range => exact foldl_reduceByte_bounds hzero.2 hhigh digest.toList hzero
    case returned =>
      intro longBits crypto tv offset hdigest
      unfold totpOn tokenOfStep
      rw [if_neg (by omega), hdigest]
  · intro token htoken hle
    refine ⟨spelledDigest token.toNat, ?_⟩
    rw [hremainder, bigEndian_spelledDigest (by omega), Int.toNat_of_nonneg htoken]
    exact Int.emod_eq_of_lt htoken (by omega)

/-- The largest such range, on a digest of ones. -/
theorem digestReduced_rangeMax :
    DigestReduced 8388607 (Vector.replicate 16 255) ∧
      (Vector.replicate 16 (255 : UInt8)).toList.foldl (reduceByte 8388607) 0 = 8388607 := by
  have hreduced : DigestReduced 8388607 (Vector.replicate 16 255) :=
    (digestReduced 8388607 (by decide) (by decide)).1 _
  exact ⟨hreduced, hreduced.remainder.trans (by decide)⟩

end Totp
end Muon
