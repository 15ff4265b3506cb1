import Mathlib.Data.List.TakeWhile
import Muon.Foundation.MachineInteger

/-!
# C strings in arrays

What `conf.c` uses of the C library: `isspace`, `strlen`, `strcmp` and `strchr` on
strings that end at their first NUL, `atoi`, and the truncating `_strncpy` into an
array of a fixed size.  A string is the list of its bytes, without the NUL.
-/

namespace Muon
namespace Conf

open Foundation

/-- `'='`, `'#'`, `'-'` and `'\n'`. -/
def equalsSign : UInt8 := 61

@[inherit_doc equalsSign] def numberSign : UInt8 := 35

@[inherit_doc equalsSign] def hyphen : UInt8 := 45

@[inherit_doc equalsSign] def newline : UInt8 := 10

/-- `isspace` in the C locale, which the program never leaves. -/
def isspace (b : UInt8) : Bool := b == 32 || (9 ≤ b && b ≤ 13)

/-- `isdigit`. -/
def isdigit (b : UInt8) : Bool := 48 ≤ b && b ≤ 57

/-- The bytes of a string literal. -/
def ascii (literal : String) : List UInt8 := literal.toList.map fun c => UInt8.ofNat c.toNat

/-- The string that starts at a byte of a buffer: everything before the first NUL. -/
def cString (buf : List UInt8) : List UInt8 := buf.takeWhile (· ≠ 0)

theorem cString_of_not_mem {buf : List UInt8} (hnul : 0 ∉ buf) : cString buf = buf := by
  unfold cString
  rw [List.takeWhile_eq_self_iff]
  intro b hb
  exact decide_eq_true fun hzero => hnul (hzero ▸ hb)

theorem zero_not_mem_cString (buf : List UInt8) : 0 ∉ cString buf := by
  intro hmem
  have htrue := List.mem_takeWhile_imp hmem
  simp at htrue

/-! ## Numbers -/

/-- The value of a run of digits, continued from `value`. -/
def digitsValue (value : Int) (digits : List UInt8) : Int :=
  digits.foldl (fun value b => value * 10 + (b.toNat - 48 : Nat)) value

/-- The number `strtol` reads in base 10, without a width: white space, a sign, digits. -/
def decimal (text : List UInt8) : Int :=
  match text.dropWhile isspace with
  | 43 :: rest => digitsValue 0 (rest.takeWhile isdigit)
  | 45 :: rest => -digitsValue 0 (rest.takeWhile isdigit)
  | rest => digitsValue 0 (rest.takeWhile isdigit)

/-- `atoi`: `strtol` stops at the ends of `long`, and the result is cast to `int`. -/
def atoi (text : List UInt8) : Int :=
  toInt32 (max (-(2 ^ 63)) (min (2 ^ 63 - 1) (decimal text)))

theorem atoi_of_fits {text : List UInt8} (hfits : FitsInt (decimal text)) :
    atoi text = decimal text := by
  obtain ⟨hlow, hhigh⟩ := hfits
  unfold atoi
  have hclamped : max (-(2 ^ 63)) (min (2 ^ 63 - 1) (decimal text)) = decimal text := by
    omega
  rw [hclamped]
  exact toInt32_of_fits hlow hhigh

theorem digitsValue_nonneg {value : Int} (hvalue : 0 ≤ value) (digits : List UInt8) :
    0 ≤ digitsValue value digits := by
  induction digits generalizing value with
  | nil => exact hvalue
  | cons b digits ih =>
      have hnext : 0 ≤ value * 10 + ((b.toNat - 48 : Nat) : Int) := by omega
      exact ih hnext

/-- Without a minus sign the number is not negative. -/
theorem decimal_nonneg {text : List UInt8} (hsign : hyphen ∉ text) : 0 ≤ decimal text := by
  have hdropped : hyphen ∉ text.dropWhile isspace := fun hmem =>
    hsign ((List.dropWhile_sublist isspace).subset hmem)
  unfold decimal
  split
  · exact digitsValue_nonneg (Int.le_refl 0) _
  · next rest heq =>
      rw [heq] at hdropped
      exact absurd List.mem_cons_self hdropped
  · exact digitsValue_nonneg (Int.le_refl 0) _

/-! ## Arrays -/

/-- An array `char field[size]`. -/
structure CharArray (size : Nat) where
  bytes : List UInt8
  length_bytes : bytes.length = size

namespace CharArray

variable {size : Nat}

/-- An array of zero bytes. -/
def zero (size : Nat) : CharArray size where
  bytes := List.replicate size 0
  length_bytes := List.length_replicate

/-- The string in the array. -/
def text (field : CharArray size) : List UInt8 := cString field.bytes

end CharArray

/-- The loop of `_strncpy`: `dest` is what is left of the array. -/
def copyLoop : (dest src : List UInt8) → List UInt8
  | [], _ => []
  | _ :: dest, [] => 0 :: dest
  | _ :: dest, b :: src => if b = 0 then 0 :: dest else b :: copyLoop dest src

theorem length_copyLoop (dest src : List UInt8) : (copyLoop dest src).length = dest.length := by
  induction dest generalizing src with
  | nil => rfl
  | cons d dest ih =>
      cases src with
      | nil => rfl
      | cons b src =>
          unfold copyLoop
          split
          · rfl
          · rw [List.length_cons, List.length_cons, ih]

/-- `_strncpy(dest, src, sizeof(dest))`. -/
def strncpy {size : Nat} (dest : CharArray size) (src : List UInt8) : CharArray size where
  bytes := (copyLoop dest.bytes src).set (size - 1) 0
  length_bytes := by rw [List.length_set, length_copyLoop, dest.length_bytes]

/-- `strcpy(dest, src)`, for a string that fits. -/
def strcpy {size : Nat} (dest : CharArray size) (src : List UInt8) : CharArray size where
  bytes := copyLoop dest.bytes src
  length_bytes := by rw [length_copyLoop, dest.length_bytes]

/-- The string a copy leaves, for any rest of the array. -/
theorem cString_copyLoop (dest : List UInt8) {src : List UInt8} (hnul : 0 ∉ src) :
    cString ((copyLoop dest src).set (dest.length - 1) 0) = src.take (dest.length - 1) := by
  induction dest generalizing src with
  | nil => rfl
  | cons d dest ih =>
      cases src with
      | nil => cases dest <;> rfl
      | cons b src =>
          have hb : b ≠ 0 := fun hzero => hnul (hzero ▸ List.mem_cons_self)
          have hsrc : 0 ∉ src := fun hmem => hnul (List.mem_cons_of_mem b hmem)
          cases dest with
          | nil => simp [copyLoop, hb, cString]
          | cons d' dest =>
              -- the last byte of the array is still ahead
              have hrest := ih hsrc
              simp only [List.length_cons, Nat.add_sub_cancel] at hrest ⊢
              rw [copyLoop, if_neg hb, List.set_cons_succ, cString,
                List.takeWhile_cons_of_pos (by simpa using hb), List.take_succ_cons]
              exact congrArg (b :: ·) hrest

/-- `_strncpy` keeps as much of the string as leaves room for the NUL. -/
theorem text_strncpy {size : Nat} (dest : CharArray size) {src : List UInt8} (hnul : 0 ∉ src) :
    (strncpy dest src).text = src.take (size - 1) := by
  have hcopy := cString_copyLoop dest.bytes hnul
  rw [dest.length_bytes] at hcopy
  exact hcopy

/-- A string that fits is copied with its NUL. -/
theorem cString_copyLoop_of_fits {dest src : List UInt8} (hroom : src.length < dest.length)
    (hnul : 0 ∉ src) : cString (copyLoop dest src) = src := by
  induction dest generalizing src with
  | nil => exact absurd hroom (Nat.not_lt_zero _)
  | cons d dest ih =>
      cases src with
      | nil => rfl
      | cons b src =>
          have hb : b ≠ 0 := fun hzero => hnul (hzero ▸ List.mem_cons_self)
          have hsrc : 0 ∉ src := fun hmem => hnul (List.mem_cons_of_mem b hmem)
          rw [copyLoop, if_neg hb, cString, List.takeWhile_cons_of_pos (by simpa using hb)]
          exact congrArg (b :: ·) (ih (Nat.lt_of_succ_lt_succ hroom) hsrc)

theorem text_strcpy {size : Nat} (dest : CharArray size) {src : List UInt8}
    (hroom : src.length < size) (hnul : 0 ∉ src) : (strcpy dest src).text = src := by
  apply cString_copyLoop_of_fits
  · rwa [dest.length_bytes]
  · exact hnul

/-- `memcpy(dest, src, len); dest[len] = 0` with `len` cut to fit. -/
def memcpyTerminated {size : Nat} (dest : CharArray size) (src : List UInt8)
    (hroom : src.length < size) : CharArray size where
  bytes := src ++ 0 :: dest.bytes.drop (src.length + 1)
  length_bytes := by
    rw [List.length_append, List.length_cons, List.length_drop, dest.length_bytes]
    omega

theorem text_memcpyTerminated {size : Nat} (dest : CharArray size) {src : List UInt8}
    (hroom : src.length < size) (hnul : 0 ∉ src) :
    (memcpyTerminated dest src hroom).text = src := by
  show cString (src ++ 0 :: dest.bytes.drop (src.length + 1)) = src
  have hsrc := cString_of_not_mem hnul
  unfold cString at hsrc ⊢
  rw [List.takeWhile_append, hsrc, if_pos rfl, List.takeWhile_cons_of_neg (by decide),
    List.append_nil]

/-! ## Terminated arrays -/

/-- A string that is shorter than its array ends at a NUL in the array. -/
theorem zero_mem_of_length_text {size : Nat} {field : CharArray size}
    (hlength : field.text.length < size) : 0 ∈ field.bytes := by
  by_contra hnul
  have hwhole : field.text = field.bytes := cString_of_not_mem hnul
  rw [hwhole, field.length_bytes] at hlength
  exact absurd hlength (Nat.lt_irrefl size)

/-- `_strncpy` always stores the last NUL. -/
theorem zero_mem_strncpy {size : Nat} (hsize : 0 < size) (dest : CharArray size)
    (src : List UInt8) : 0 ∈ (strncpy dest src).bytes := by
  show 0 ∈ (copyLoop dest.bytes src).set (size - 1) 0
  apply List.mem_set
  rw [length_copyLoop, dest.length_bytes]
  omega

end Conf
end Muon
