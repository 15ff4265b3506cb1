import Mathlib.Algebra.Group.Int.Defs
import Mathlib.Algebra.Group.Nat.Defs
import Mathlib.Data.List.GetD
import Mathlib.Tactic.Common

/-!
# Byte-addressed memory

A C program that casts, overlays and overruns its records is modelled on the
bytes themselves.  `ByteMemory` gives the contents of every address counted
from a base, with no end: a write past the end of one object lands on whatever
the layout puts there.

The operations are the ones a packet buffer needs: reading and writing a run of
bytes, combining a run with a byte stream, and little-endian words.  Every
lemma below is a frame fact (what an operation leaves alone), a read-back fact
(what it leaves behind), or a congruence (which addresses an observation
depends on).
-/

namespace Muon
namespace Foundation

/-- The contents of every address, counted from a base. -/
abbrev ByteMemory := Nat → UInt8

namespace ByteMemory

/-- The `count` bytes from `start` on. -/
def read (memory : ByteMemory) (start count : Nat) : List UInt8 :=
  (List.range count).map fun offset => memory (start + offset)

/-- Store `bytes` from `start` on. -/
def write (memory : ByteMemory) (start : Nat) (bytes : List UInt8) : ByteMemory :=
  fun address =>
    if start ≤ address then bytes.getD (address - start) (memory address)
    else memory address

/-- Combine the addresses `start, ..., stop - 1` with a byte stream. -/
def xorRange (memory : ByteMemory) (start stop : Nat) (stream : Nat → UInt8) :
    ByteMemory :=
  fun address =>
    if start ≤ address ∧ address < stop then
      memory address ^^^ stream (address - start)
    else memory address

/-- Two memories hold the same first `count` bytes. -/
def AgreeBelow (count : Nat) (left right : ByteMemory) : Prop :=
  ∀ address, address < count → left address = right address

/-! ## Runs of bytes -/

@[simp] theorem length_read (memory : ByteMemory) (start count : Nat) :
    (memory.read start count).length = count := by
  simp [read]

@[simp] theorem read_zero (memory : ByteMemory) (start : Nat) :
    memory.read start 0 = [] := rfl

theorem getElem_read (memory : ByteMemory) {start count index : Nat}
    (hindex : index < (memory.read start count).length) :
    (memory.read start count)[index] = memory (start + index) := by
  simp [read]

/-- A run depends only on the addresses it covers. -/
theorem read_congr {left right : ByteMemory} {start count : Nat}
    (hsame : ∀ address, start ≤ address → address < start + count →
      left address = right address) :
    left.read start count = right.read start count := by
  refine List.map_congr_left fun offset hoffset => ?_
  have hoffset : offset < count := List.mem_range.mp hoffset
  exact hsame (start + offset) (by omega) (by omega)

/-- Equal runs agree address by address. -/
theorem eq_of_read_eq {left right : ByteMemory} {start count address : Nat}
    (hread : left.read start count = right.read start count)
    (hlow : start ≤ address) (hhigh : address < start + count) :
    left address = right address := by
  have hget : (left.read start count)[address - start]? =
      (right.read start count)[address - start]? := by rw [hread]
  have hindex : address - start < count := by omega
  simpa [read, hindex, Nat.add_sub_cancel' hlow] using hget

/-- A run splits at any point. -/
theorem read_add (memory : ByteMemory) (start first second : Nat) :
    memory.read start (first + second) =
      memory.read start first ++ memory.read (start + first) second := by
  simp [read, List.range_add, Nat.add_assoc]

theorem write_of_lt (memory : ByteMemory) {start address : Nat}
    (bytes : List UInt8) (hbefore : address < start) :
    memory.write start bytes address = memory address := by
  simp [write, Nat.not_le.mpr hbefore]

theorem write_of_ge (memory : ByteMemory) {start address : Nat}
    {bytes : List UInt8} (hafter : start + bytes.length ≤ address) :
    memory.write start bytes address = memory address := by
  have hlow : start ≤ address := by omega
  have hindex : bytes.length ≤ address - start := by omega
  simp [write, hlow, List.getElem?_eq_none hindex]

theorem write_of_mem (memory : ByteMemory) {start address : Nat}
    {bytes : List UInt8} (hlow : start ≤ address)
    (hhigh : address - start < bytes.length) :
    memory.write start bytes address = bytes[address - start] := by
  simp [write, hlow, List.getElem?_eq_getElem hhigh]

/-- Reading back exactly what was stored. -/
@[simp] theorem read_write_same (memory : ByteMemory) (start : Nat)
    (bytes : List UInt8) :
    (memory.write start bytes).read start bytes.length = bytes := by
  refine List.ext_getElem (by simp) fun index hleft hright => ?_
  rw [getElem_read, write_of_mem memory (by omega) (by simpa using hright)]
  simp

/-! ## Streams -/

theorem xorRange_of_lt (memory : ByteMemory) {start stop address : Nat}
    (stream : Nat → UInt8) (hbefore : address < start) :
    memory.xorRange start stop stream address = memory address := by
  simp [xorRange, Nat.not_le.mpr hbefore]

theorem xorRange_of_mem (memory : ByteMemory) {start stop address : Nat}
    (stream : Nat → UInt8) (hlow : start ≤ address) (hhigh : address < stop) :
    memory.xorRange start stop stream address =
      memory address ^^^ stream (address - start) := by
  simp [xorRange, hlow, hhigh]

theorem xorRange_of_ge (memory : ByteMemory) {start stop address : Nat}
    (stream : Nat → UInt8) (hafter : stop ≤ address) :
    memory.xorRange start stop stream address = memory address := by
  simp [xorRange, Nat.not_lt.mpr hafter]

/-- Combining with the same stream twice undoes it on the common range. -/
theorem xorRange_xorRange_of_mem (memory : ByteMemory)
    {start stop stop' address : Nat} (stream : Nat → UInt8)
    (hlow : start ≤ address) (hhigh : address < stop) (hhigh' : address < stop') :
    (memory.xorRange start stop stream).xorRange start stop' stream address =
      memory address := by
  rw [xorRange_of_mem _ stream hlow hhigh', xorRange_of_mem _ stream hlow hhigh,
    UInt8.xor_assoc, UInt8.xor_self, UInt8.xor_zero]

/-- The stream acts address by address. -/
theorem xorRange_congr {left right : ByteMemory} {start stop address : Nat}
    (stream : Nat → UInt8) (hsame : left address = right address) :
    left.xorRange start stop stream address =
      right.xorRange start stop stream address := by
  simp [xorRange, hsame]

/-- The stream is injective at each address. -/
theorem xorRange_eq_iff {left right : ByteMemory} {start stop address : Nat}
    (stream : Nat → UInt8) :
    left.xorRange start stop stream address =
        right.xorRange start stop stream address ↔
      left address = right address := by
  unfold xorRange
  split
  · exact UInt8.xor_left_inj _
  · exact Iff.rfl

/-! ## Agreement -/

theorem AgreeBelow.mono {short long : Nat} {left right : ByteMemory}
    (hagree : AgreeBelow long left right) (hle : short ≤ long) :
    AgreeBelow short left right :=
  fun address haddress => hagree address (by omega)

theorem AgreeBelow.symm {count : Nat} {left right : ByteMemory}
    (hagree : AgreeBelow count left right) : AgreeBelow count right left :=
  fun address haddress => (hagree address haddress).symm

/-- A memory into which a received run was stored holds that run. -/
theorem agreeBelow_write_zero (memory source : ByteMemory) (count : Nat) :
    AgreeBelow count (memory.write 0 (source.read 0 count)) source := by
  intro address haddress
  rw [write_of_mem memory (by omega) (by simpa using haddress), getElem_read]
  simp

/-! ## Little-endian words -/

/-- The 16-bit word at `start`. -/
def readWord16 (memory : ByteMemory) (start : Nat) : Nat :=
  (memory start).toNat + 256 * (memory (start + 1)).toNat

/-- Store the low 16 bits of `value` at `start`. -/
def writeWord16 (memory : ByteMemory) (start value : Nat) : ByteMemory :=
  memory.write start [UInt8.ofNat value, UInt8.ofNat (value / 256)]

/-- The signed 32-bit word at `start`. -/
def readInt32 (memory : ByteMemory) (start : Nat) : Int :=
  Int.bmod ((memory.readWord16 start : Int) +
    65536 * (memory.readWord16 (start + 2) : Int)) (2 ^ 32)

/-- Store a signed 32-bit word at `start`, in two's complement. -/
def writeInt32 (memory : ByteMemory) (start : Nat) (value : Int) : ByteMemory :=
  (memory.writeWord16 start (value % 65536).toNat).writeWord16 (start + 2)
    ((value / 65536) % 65536).toNat

theorem readWord16_lt (memory : ByteMemory) (start : Nat) :
    memory.readWord16 start < 65536 := by
  have hlow := (memory start).toNat_lt
  have hhigh := (memory (start + 1)).toNat_lt
  unfold readWord16
  omega

theorem readWord16_congr {left right : ByteMemory} {start : Nat}
    (hlow : left start = right start) (hhigh : left (start + 1) = right (start + 1)) :
    left.readWord16 start = right.readWord16 start := by
  simp [readWord16, hlow, hhigh]

/-- A 16-bit word determines its bytes. -/
theorem readWord16_inj {left right : ByteMemory} {start : Nat}
    (hword : left.readWord16 start = right.readWord16 start) :
    left start = right start ∧ left (start + 1) = right (start + 1) := by
  have hleft := (left start).toNat_lt
  have hright := (right start).toNat_lt
  unfold readWord16 at hword
  exact ⟨UInt8.toNat_inj.mp (by omega), UInt8.toNat_inj.mp (by omega)⟩

@[simp] theorem readWord16_writeWord16_same (memory : ByteMemory)
    (start value : Nat) :
    (memory.writeWord16 start value).readWord16 start = value % 65536 := by
  simp [readWord16, writeWord16, write]
  omega

/-- Where a 16-bit store leaves memory alone. -/
theorem writeWord16_of_ne (memory : ByteMemory) {start address : Nat}
    (value : Nat) (hlow : address ≠ start) (hhigh : address ≠ start + 1) :
    memory.writeWord16 start value address = memory address := by
  rcases Nat.lt_or_ge address start with hbefore | hafter
  · exact write_of_lt memory _ hbefore
  · exact write_of_ge memory (by simp; omega)

theorem readWord16_writeWord16_disjoint (memory : ByteMemory)
    {start target : Nat} (value : Nat)
    (hdisjoint : start + 2 ≤ target ∨ target + 2 ≤ start) :
    (memory.writeWord16 target value).readWord16 start =
      memory.readWord16 start :=
  readWord16_congr (writeWord16_of_ne memory value (by omega) (by omega))
    (writeWord16_of_ne memory value (by omega) (by omega))

/-- Where a 32-bit store leaves memory alone. -/
theorem writeInt32_of_disjoint (memory : ByteMemory) {start address : Nat}
    (value : Int) (hdisjoint : address < start ∨ start + 4 ≤ address) :
    memory.writeInt32 start value address = memory address := by
  unfold writeInt32
  rw [writeWord16_of_ne _ _ (by omega) (by omega),
    writeWord16_of_ne _ _ (by omega) (by omega)]

theorem readInt32_congr {left right : ByteMemory} {start : Nat}
    (hsame : ∀ address, start ≤ address → address < start + 4 →
      left address = right address) :
    left.readInt32 start = right.readInt32 start := by
  unfold readInt32
  rw [readWord16_congr (hsame start (by omega) (by omega))
      (hsame (start + 1) (by omega) (by omega)),
    readWord16_congr (hsame (start + 2) (by omega) (by omega))
      (hsame (start + 2 + 1) (by omega) (by omega))]

/-- A value of the type `int` survives the round trip through memory. -/
theorem readInt32_writeInt32_same (memory : ByteMemory) (start : Nat)
    {value : Int} (hlow : -(2 ^ 31) ≤ value) (hhigh : value < 2 ^ 31) :
    (memory.writeInt32 start value).readInt32 start = value := by
  unfold readInt32 writeInt32
  rw [readWord16_writeWord16_disjoint _ _ (by omega),
    readWord16_writeWord16_same, readWord16_writeWord16_same]
  have hsum : (((value % 65536).toNat % 65536 : Nat) : Int) +
      65536 * ((((value / 65536) % 65536).toNat % 65536 : Nat) : Int) =
        value % ((2 ^ 32 : Nat) : Int) := by omega
  rw [hsum, Int.emod_bmod, Int.bmod_eq_of_le (by omega) (by omega)]

end ByteMemory

end Foundation
end Muon
