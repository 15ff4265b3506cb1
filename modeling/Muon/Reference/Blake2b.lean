import Muon.Reference.WordMatrix

/-!
# BLAKE2b

An executable BLAKE2b with key and digest length, on 64-bit words held as
natural numbers.  It is the function behind `crypto_generichash_blake2b`, so
that concrete runs of the model compute the digests the program computes.
-/

namespace Muon
namespace Reference
namespace Blake2b

/-- The number of 64-bit words. -/
def radix : Nat := 0x10000000000000000

/-- Rotation of a 64-bit word to the right. -/
def rotateRight (word count : Nat) : Nat :=
  (word >>> count ||| word <<< (64 - count)) % radix

/-- The initialisation vector. -/
def iv : List Nat :=
  [0x6a09e667f3bcc908, 0xbb67ae8584caa73b, 0x3c6ef372fe94f82b, 0xa54ff53a5f1d36f1,
    0x510e527fade682d1, 0x9b05688c2b3e6c1f, 0x1f83d9abfb41bd6b, 0x5be0cd19137e2179]

/-- The message schedule, one permutation of the 16 words for each round. -/
def sigma : List (List Nat) :=
  [[0, 1, 2, 3, 4, 5, 6, 7, 8, 9, 10, 11, 12, 13, 14, 15],
    [14, 10, 4, 8, 9, 15, 13, 6, 1, 12, 0, 2, 11, 7, 5, 3],
    [11, 8, 12, 0, 5, 2, 15, 13, 10, 14, 3, 6, 7, 1, 9, 4],
    [7, 9, 3, 1, 13, 12, 11, 14, 2, 6, 5, 10, 4, 0, 15, 8],
    [9, 0, 5, 7, 2, 4, 10, 15, 14, 1, 11, 12, 6, 8, 3, 13],
    [2, 12, 6, 10, 0, 11, 8, 3, 4, 13, 7, 5, 15, 14, 1, 9],
    [12, 5, 1, 15, 14, 13, 4, 10, 0, 7, 6, 3, 9, 2, 8, 11],
    [13, 11, 7, 14, 12, 1, 3, 9, 5, 0, 15, 4, 8, 6, 2, 10],
    [6, 15, 14, 9, 11, 3, 0, 8, 12, 2, 13, 7, 1, 4, 10, 5],
    [10, 2, 8, 4, 7, 6, 1, 5, 15, 11, 9, 14, 3, 12, 13, 0],
    [0, 1, 2, 3, 4, 5, 6, 7, 8, 9, 10, 11, 12, 13, 14, 15],
    [14, 10, 4, 8, 9, 15, 13, 6, 1, 12, 0, 2, 11, 7, 5, 3]]

/-- The mixing function `G` on one column, with two message words. -/
def mix (v : Column) (x y : Nat) : Column :=
  let a := (v.a + v.b + x) % radix
  let d := rotateRight (v.d ^^^ a) 32
  let c := (v.c + d) % radix
  let b := rotateRight (v.b ^^^ c) 24
  let a := (a + b + y) % radix
  let d := rotateRight (d ^^^ a) 16
  let c := (c + d) % radix
  ⟨a, rotateRight (b ^^^ c) 63, c, d⟩

/-- `G` on the four columns, with eight message words from `start` on. -/
def mixColumns (v : WordMatrix) (word : Nat → Nat) (start : Nat) : WordMatrix where
  first := mix v.first (word start) (word (start + 1))
  second := mix v.second (word (start + 2)) (word (start + 3))
  third := mix v.third (word (start + 4)) (word (start + 5))
  fourth := mix v.fourth (word (start + 6)) (word (start + 7))

/-- One round: four columns, then four diagonals. -/
def round (message : List Nat) (v : WordMatrix) (schedule : List Nat) : WordMatrix :=
  let word (i : Nat) := message.getD (schedule.getD i 0) 0
  (mixColumns (mixColumns v word 0).diagonals word 8).columns

/-- The work vector: chaining value above initialisation vector, the last row
combined with the bytes hashed so far and the mark of the last block. -/
def workVector (h : List Nat) (count : Nat) (last : Bool) : WordMatrix :=
  let hw (i : Nat) := h.getD i 0
  let ivw (i : Nat) := iv.getD i 0
  { first := ⟨hw 0, hw 4, ivw 0, ivw 4 ^^^ count % radix⟩
    second := ⟨hw 1, hw 5, ivw 1, ivw 5 ^^^ count / radix⟩
    third := ⟨hw 2, hw 6, ivw 2, if last then ivw 6 ^^^ (radix - 1) else ivw 6⟩
    fourth := ⟨hw 3, hw 7, ivw 3, ivw 7⟩ }

/-- The compression function `F`: chaining value, message block, bytes hashed so
far, and whether the block is the last one. -/
def compress (h message : List Nat) (count : Nat) (last : Bool) : List Nat :=
  let v := (sigma.foldl (round message) (workVector h count last)).words
  (List.range 8).map fun i => h.getD i 0 ^^^ v.getD i 0 ^^^ v.getD (i + 8) 0

/-- The little-endian value of a run of bytes. -/
def wordOf (bytes : List UInt8) : Nat :=
  bytes.foldr (fun byte value => byte.toNat + 256 * value) 0

/-- The first `count` groups of `size` bytes. -/
def groups (size : Nat) : Nat → List UInt8 → List (List UInt8)
  | 0, _ => []
  | count + 1, bytes => bytes.take size :: groups size count (bytes.drop size)

/-- A block padded with zeroes, as 16 words. -/
def blockWords (block : List UInt8) : List Nat :=
  (groups 8 16 (block ++ List.replicate (128 - block.length) 0)).map wordOf

/-- Hash the blocks in order. -/
def absorb (h : List Nat) (count : Nat) : List (List UInt8) → List Nat
  | [] => h
  | [block] => compress h (blockWords block) (count + block.length) true
  | block :: blocks =>
      absorb (compress h (blockWords block) (count + 128) false) (count + 128) blocks

/-- The digest of `input` under `key`, `outlen` bytes long. -/
def hash (outlen : Nat) (input key : List UInt8) : List UInt8 :=
  let keyBlock :=
    if key.isEmpty then [] else key ++ List.replicate (128 - key.length) 0
  let data := keyBlock ++ input
  let blocks := if data.isEmpty then [[]] else groups 128 ((data.length + 127) / 128) data
  let h := iv.set 0 (iv.getD 0 0 ^^^ 0x01010000 ^^^ key.length <<< 8 ^^^ outlen)
  let words := absorb h 0 blocks
  (List.range outlen).map fun i =>
    UInt8.ofNat (words.getD (i / 8) 0 >>> (8 * (i % 8)))

/-- The digest of `abc`. -/
example : (hash 64 [0x61, 0x62, 0x63] []).take 4 = [0xba, 0x80, 0xa5, 0x3f] := by
  decide +kernel

end Blake2b
end Reference
end Muon
