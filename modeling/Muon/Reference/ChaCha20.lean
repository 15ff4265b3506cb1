import Muon.Reference.WordMatrix

/-!
# ChaCha20

An executable ChaCha20 with a 64-bit nonce and a 64-bit block counter that
starts at zero, on 32-bit words held as natural numbers.  It is the stream
behind `crypto_stream_chacha20_xor`.
-/

namespace Muon
namespace Reference
namespace ChaCha20

/-- The number of 32-bit words. -/
def radix : Nat := 0x100000000

/-- Rotation of a 32-bit word to the left. -/
def rotateLeft (word count : Nat) : Nat :=
  (word <<< count ||| word >>> (32 - count)) % radix

/-- The quarter round on one column. -/
def quarterRound (s : Column) : Column :=
  let a := (s.a + s.b) % radix
  let d := rotateLeft (s.d ^^^ a) 16
  let c := (s.c + d) % radix
  let b := rotateLeft (s.b ^^^ c) 12
  let a := (a + b) % radix
  let d := rotateLeft (d ^^^ a) 8
  let c := (c + d) % radix
  ⟨a, rotateLeft (b ^^^ c) 7, c, d⟩

/-- The quarter round on the four columns. -/
def columnRound (s : WordMatrix) : WordMatrix where
  first := quarterRound s.first
  second := quarterRound s.second
  third := quarterRound s.third
  fourth := quarterRound s.fourth

/-- One column round and one diagonal round. -/
def doubleRound (s : WordMatrix) : WordMatrix :=
  (columnRound (columnRound s).diagonals).columns

/-- Apply `f` the given number of times. -/
def repeated {α : Type} (f : α → α) : Nat → α → α
  | 0, value => value
  | count + 1, value => repeated f count (f value)

/-- The 32-bit little-endian word at position `index` of a run of bytes. -/
def wordAt (bytes : List UInt8) (index : Nat) : Nat :=
  (bytes.getD (4 * index) 0).toNat + 0x100 * (bytes.getD (4 * index + 1) 0).toNat +
    0x10000 * (bytes.getD (4 * index + 2) 0).toNat +
    0x1000000 * (bytes.getD (4 * index + 3) 0).toNat

/-- The input of one block: constants, key, counter, nonce. -/
def initial (key nonce : List UInt8) (counter : Nat) : WordMatrix where
  first := ⟨0x61707865, wordAt key 0, wordAt key 4, counter % radix⟩
  second := ⟨0x3320646e, wordAt key 1, wordAt key 5, counter / radix % radix⟩
  third := ⟨0x79622d32, wordAt key 2, wordAt key 6, wordAt nonce 0⟩
  fourth := ⟨0x6b206574, wordAt key 3, wordAt key 7, wordAt nonce 1⟩

/-- The words of one block of the stream. -/
def block (key nonce : List UInt8) (counter : Nat) : List Nat :=
  List.zipWith (fun left right => (left + right) % radix)
    (repeated doubleRound 10 (initial key nonce counter)).words
    (initial key nonce counter).words

/-- The blocks of the stream.  The split on the counter makes all positions of
the first block refer to one and the same term, which is evaluated once. -/
def blocks (key nonce : List UInt8) : Nat → List Nat
  | 0 => block key nonce 0
  | counter + 1 => block key nonce (counter + 1)

/-- Byte `position` of the stream. -/
def stream (key nonce : List UInt8) (position : Nat) : UInt8 :=
  let word := (blocks key nonce (position / 64)).getD (position % 64 / 4) 0
  UInt8.ofNat (word >>> (8 * (position % 4)))

/-- The first bytes of the stream under the zero key and nonce. -/
example : (List.range 4).map
    (stream (List.replicate 32 0) (List.replicate 8 0)) = [0x76, 0xb8, 0xe0, 0xad] := by
  decide +kernel

end ChaCha20
end Reference
end Muon
