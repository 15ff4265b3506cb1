import Mathlib.Algebra.Group.Int.Defs
import Mathlib.Algebra.Group.Nat.Defs
import Mathlib.Data.List.Defs
import Mathlib.Tactic.Common

/-!
# LZ4 blocks

An executable decoder of LZ4 blocks with the end-of-block rules of
`LZ4_decompress_safe`, stricter than it about offset 0, and an encoder.  LZ4 encodes an
input below 13 bytes, or one in which no four bytes occur twice, as one run of literals,
and copies of one byte as a match with the byte before.  The encoder does the first for
every input but 13 to 24 copies of one byte and the second for these, so it agrees with
`LZ4_compress_default` on inputs of the three kinds.
`decode_encode` is the round trip and `length_decode_le` the capacity bound.
-/

namespace Muon
namespace Reference
namespace Lz4

/-- Read the extension bytes of a length field: every `255` is followed by one
more byte. -/
def extendLength : List UInt8 → Nat → Option (Nat × List UInt8)
  | [], _ => none
  | byte :: input, length =>
      if byte.toNat = 255 then extendLength input (length + 255)
      else some (length + byte.toNat, input)

/-- A length field of a token with its extension bytes. -/
def readLength (field : Nat) (input : List UInt8) : Option (Nat × List UInt8) :=
  if field = 15 then extendLength input 15 else some (field, input)

/-- Copy `length` bytes from `offset` bytes back; the output is held in reverse. -/
def copyMatch (offset : Nat) : Nat → List UInt8 → List UInt8
  | 0, output => output
  | length + 1, output => copyMatch offset length (output.getD (offset - 1) 0 :: output)

/-- The sequences of a block.  A sequence whose literals end near the end of the
input or of the output must be the last one. -/
def sequences (capacity : Nat) : Nat → List UInt8 → List UInt8 → Option (List UInt8)
  | 0, _, _ => none
  | _ + 1, [], _ => none
  | fuel + 1, token :: input, output => do
      let (literals, input) ← readLength (token.toNat / 16) input
      if capacity < output.length + literals + 12 ∨ input.length < literals + 8 then
        if input.length = literals ∧ output.length + literals ≤ capacity then
          some (input.reverse ++ output)
        else
          none
      else
        let output := (input.take literals).reverse ++ output
        match input.drop literals with
        | low :: high :: input =>
            let offset := low.toNat + 256 * high.toNat
            let (length, input) ← readLength (token.toNat % 16) input
            if offset = 0 ∨ output.length < offset ∨
                capacity < output.length + (length + 4) + 5 then
              none
            else
              sequences capacity fuel input (copyMatch offset (length + 4) output)
        | _ => none

/-- `LZ4_decompress_safe`, on the blocks of the format.  A match with offset 0, which the
format does not allow, is an error here; liblz4 1.9.4 lets it pass. -/
def decode (input : List UInt8) (capacity : Nat) : Option (List UInt8) :=
  if capacity = 0 then
    if input = [0] then some [] else none
  else
    (sequences capacity input.length input []).map List.reverse

/-- What a length field of 15 leaves to the extension bytes. -/
def extension (length : Nat) : List UInt8 :=
  List.replicate (length / 255) 255 ++ [UInt8.ofNat (length % 255)]

/-- A run of literals as a block of its own. -/
def literalBlock (input : List UInt8) : List UInt8 :=
  if input.length < 15 then
    UInt8.ofNat (16 * input.length) :: input
  else
    240 :: (extension (input.length - 15) ++ input)

/-- Copies of a byte: one literal, a match with the byte before, and five literals. -/
def runBlock (count : Nat) (byte : UInt8) : List UInt8 :=
  [UInt8.ofNat (16 + (count - 10)), byte, 1, 0, 80, byte, byte, byte, byte, byte]

/-- The input is a run that one token without extension bytes covers. -/
def ShortRun (input : List UInt8) : Prop :=
  13 ≤ input.length ∧ input.length < 25 ∧ input = List.replicate input.length (input.headD 0)

instance (input : List UInt8) : Decidable (ShortRun input) :=
  inferInstanceAs (Decidable (_ ∧ _))

/-- The block of an input. -/
def block (input : List UInt8) : List UInt8 :=
  if ShortRun input then runBlock input.length (input.headD 0) else literalBlock input

/-- `LZ4_compress_default` on inputs below 13 bytes, inputs in which no four bytes occur
twice, and 13 to 24 copies of one byte. -/
def encode (input : List UInt8) (capacity : Nat) : List UInt8 :=
  if (block input).length ≤ capacity then block input else []

/-- A block never decodes to more than the capacity. -/
theorem length_decode_le {input output : List UInt8} {capacity : Nat}
    (hdecode : decode input capacity = some output) : output.length ≤ capacity := by
  have hsequences : ∀ (fuel : Nat) (input held result : List UInt8),
      sequences capacity fuel input held = some result → result.length ≤ capacity := by
    intro fuel
    induction fuel with
    | zero => intro input held result hresult; cases hresult
    | succ fuel ih =>
        intro input held result hresult
        cases input with
        | nil => cases hresult
        | cons token input =>
            simp only [sequences, Option.bind_eq_bind, Option.bind_eq_some_iff] at hresult
            obtain ⟨⟨literals, rest⟩, -, hresult⟩ := hresult
            dsimp only at hresult
            split at hresult
            · split at hresult
              · next hlast =>
                  obtain ⟨hexact, hroom⟩ := hlast
                  cases hresult
                  simp only [List.length_append, List.length_reverse]
                  omega
              · cases hresult
            · split at hresult
              · simp only [Option.bind_eq_some_iff] at hresult
                obtain ⟨⟨length, rest'⟩, -, hresult⟩ := hresult
                dsimp only at hresult
                split at hresult
                · cases hresult
                · exact ih _ _ _ hresult
              · cases hresult
  unfold decode at hdecode
  split at hdecode
  · split at hdecode
    · cases hdecode
      simp
    · cases hdecode
  · obtain ⟨reversed, hreversed, rfl⟩ := Option.map_eq_some_iff.mp hdecode
    simpa using hsequences _ _ _ _ hreversed

theorem extendLength_extension (length field : Nat) (input : List UInt8) :
    extendLength (extension length ++ input) field = some (field + length, input) := by
  have hreplicate : ∀ (count field : Nat) (input : List UInt8),
      extendLength (List.replicate count 255 ++ input) field =
        extendLength input (field + 255 * count) := by
    intro count
    induction count with
    | zero => intro field input; rfl
    | succ count ih =>
        intro field input
        rw [List.replicate_succ, List.cons_append, extendLength, if_pos (by decide), ih]
        congr 1
        omega
  have hbyte : (UInt8.ofNat (length % 255)).toNat = length % 255 := by
    rw [UInt8.toNat_ofNat']
    omega
  rw [extension, List.append_assoc, hreplicate, List.singleton_append, extendLength, hbyte,
    if_neg (by omega)]
  congr 2
  omega

/-- The last sequence of a block appends its literals. -/
theorem sequences_last {capacity fuel literals : Nat} {token : UInt8}
    {input rest output : List UInt8}
    (hread : readLength (token.toNat / 16) input = some (literals, rest))
    (hexact : rest.length = literals) (hroom : output.length + literals ≤ capacity) :
    sequences capacity (fuel + 1) (token :: input) output = some (rest.reverse ++ output) := by
  rw [sequences, hread]
  simp only [Option.bind_eq_bind, Option.bind_some]
  rw [if_pos (Or.inr (by omega)), if_pos ⟨hexact, hroom⟩]

/-- Any other sequence appends its literals and its match. -/
theorem sequences_match {capacity fuel literals length offset : Nat} {token low high : UInt8}
    {input body tail rest output : List UInt8}
    (hread : readLength (token.toNat / 16) input = some (literals, body))
    (hmore : ¬ (capacity < output.length + literals + 12 ∨ body.length < literals + 8))
    (hdrop : body.drop literals = low :: high :: tail)
    (hoffset : low.toNat + 256 * high.toNat = offset)
    (hmatch : readLength (token.toNat % 16) tail = some (length, rest))
    (hinside : ¬ (offset = 0 ∨ ((body.take literals).reverse ++ output).length < offset ∨
      capacity < ((body.take literals).reverse ++ output).length + (length + 4) + 5)) :
    sequences capacity (fuel + 1) (token :: input) output =
      sequences capacity fuel rest
        (copyMatch offset (length + 4) ((body.take literals).reverse ++ output)) := by
  rw [sequences, hread]
  simp only [Option.bind_eq_bind, Option.bind_some]
  rw [if_neg hmore, hdrop]
  simp only [hoffset]
  rw [hmatch, Option.bind_some, if_neg hinside]

theorem decode_literalBlock {input : List UInt8} {capacity : Nat}
    (hroom : input.length ≤ capacity) : decode (literalBlock input) capacity = some input := by
  by_cases hzero : capacity = 0
  · have hempty : input = [] := List.length_eq_zero_iff.mp (by omega)
    simp [decode, literalBlock, hzero, hempty]
  · have hlast : ∀ {token : UInt8} {body : List UInt8},
        readLength (token.toNat / 16) body = some (input.length, input) →
          decode (token :: body) capacity = some input := by
      intro token body hread
      have hroom' : ([] : List UInt8).length + input.length ≤ capacity := by
        rw [List.length_nil]
        omega
      rw [decode, if_neg hzero, List.length_cons, sequences_last hread rfl hroom',
        Option.map_some, List.append_nil, List.reverse_reverse]
    unfold literalBlock
    by_cases hshort : input.length < 15
    · rw [if_pos hshort]
      apply hlast
      have htoken : (UInt8.ofNat (16 * input.length)).toNat / 16 = input.length := by
        rw [UInt8.toNat_ofNat']
        omega
      rw [htoken, readLength, if_neg (by omega)]
    · rw [if_neg hshort]
      apply hlast
      rw [readLength, if_pos (by decide), extendLength_extension]
      congr 2
      omega

/-- A match with the byte before repeats it. -/
theorem copyMatch_one (length : Nat) (byte : UInt8) (output : List UInt8) :
    copyMatch 1 length (byte :: output) = List.replicate length byte ++ byte :: output := by
  induction length generalizing output with
  | zero => rfl
  | succ length ih =>
      show copyMatch 1 length (byte :: byte :: output) = _
      rw [ih, List.replicate_succ', List.append_assoc, List.singleton_append]

theorem decode_runBlock {count capacity : Nat} {byte : UInt8} (hlow : 13 ≤ count)
    (hhigh : count < 25) (hroom : count ≤ capacity) :
    decode (runBlock count byte) capacity = some (List.replicate count byte) := by
  have htoken : (UInt8.ofNat (16 + (count - 10))).toNat = 16 + (count - 10) := by
    rw [UInt8.toNat_ofNat']
    omega
  have hliterals : readLength ((UInt8.ofNat (16 + (count - 10))).toNat / 16)
      [byte, 1, 0, 80, byte, byte, byte, byte, byte] =
        some (1, [byte, 1, 0, 80, byte, byte, byte, byte, byte]) := by
    rw [htoken, readLength, if_neg (by omega)]
    congr 2
    omega
  have hmatch : readLength ((UInt8.ofNat (16 + (count - 10))).toNat % 16)
      [80, byte, byte, byte, byte, byte] =
        some (count - 10, [80, byte, byte, byte, byte, byte]) := by
    rw [htoken, readLength, if_neg (by omega)]
    congr 2
    omega
  have hfirst : sequences capacity 10 (runBlock count byte) [] =
      sequences capacity 9 [80, byte, byte, byte, byte, byte]
        (List.replicate (count - 10 + 4) byte ++ [byte]) := by
    rw [← copyMatch_one]
    refine sequences_match hliterals ?more rfl rfl hmatch ?inside
    case more =>
      simp only [List.length_nil, List.length_cons]
      omega
    case inside =>
      show ¬ (1 = 0 ∨ 1 < 1 ∨ capacity < 1 + (count - 10 + 4) + 5)
      omega
  have hlast : sequences capacity 9 [80, byte, byte, byte, byte, byte]
      (List.replicate (count - 10 + 4) byte ++ [byte]) =
        some ([byte, byte, byte, byte, byte].reverse ++
          (List.replicate (count - 10 + 4) byte ++ [byte])) := by
    have hread : readLength ((80 : UInt8).toNat / 16) [byte, byte, byte, byte, byte] =
        some (5, [byte, byte, byte, byte, byte]) := rfl
    apply sequences_last hread rfl
    rw [List.length_append, List.length_replicate, List.length_singleton]
    omega
  have hall : [byte, byte, byte, byte, byte].reverse ++
      (List.replicate (count - 10 + 4) byte ++ [byte]) = List.replicate count byte := by
    show List.replicate 5 byte ++ (List.replicate (count - 10 + 4) byte ++
      List.replicate 1 byte) = _
    rw [List.replicate_append_replicate, List.replicate_append_replicate]
    congr 1
    omega
  rw [decode, if_neg (by omega)]
  show (sequences capacity 10 (runBlock count byte) []).map List.reverse = _
  rw [hfirst, hlast, hall, Option.map_some, List.reverse_replicate]

/-- Every output of the encoder decodes to its input. -/
theorem decode_encode {input : List UInt8} {capacity capacity' : Nat}
    (hencode : encode input capacity ≠ []) (hroom : input.length ≤ capacity') :
    decode (encode input capacity) capacity' = some input := by
  unfold encode at hencode ⊢
  split at hencode
  · next hfits =>
      rw [if_pos hfits, block]
      by_cases hrun : ShortRun input
      · obtain ⟨hlow, hhigh, hcopies⟩ := hrun
        rw [if_pos ⟨hlow, hhigh, hcopies⟩, decode_runBlock hlow hhigh hroom, ← hcopies]
      · rw [if_neg hrun]
        exact decode_literalBlock hroom
  · exact absurd rfl hencode

/-- Twenty-four copies of a byte take ten bytes. -/
example : encode (List.replicate 24 0x45) 2048 =
    [0x1e, 0x45, 1, 0, 0x50, 0x45, 0x45, 0x45, 0x45, 0x45] := by
  decide

/-- A literal run that the input does not hold is an error. -/
example : decode [0x45] 2048 = none := by decide

end Lz4
end Reference
end Muon
