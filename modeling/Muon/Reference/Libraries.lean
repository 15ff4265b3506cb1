import Muon.Packet.Verdict
import Muon.Reference.Blake2b
import Muon.Reference.ChaCha20
import Muon.Reference.Lz4

/-!
# The libraries on concrete inputs

`libraries` is an instance of the parameter record with executable BLAKE2b,
ChaCha20 and LZ4; concrete runs of the model use it.  `crypto` has the key of
the repository's own test, and the datagram that test ships decapsulates here to
the length the test asserts.
-/

namespace Muon
namespace Reference

open Foundation Packet

/-- BLAKE2b, ChaCha20 and LZ4 as the program links them. -/
def libraries : Libraries where
  genericHashBlake2b outlen input key :=
    let digest := Blake2b.hash outlen input key
    Vector.ofFn fun i => digest.getD i 0
  streamChacha20 := ChaCha20.stream
  lz4CompressDefault := Lz4.encode
  lz4DecompressSafe := Lz4.decode
  lz4DecompressSafe_le := fun _ _ _ hdecode => Lz4.length_decode_le hdecode

theorem libraries_lossless : libraries.Lossless :=
  fun _ _ _ hencode hroom => Lz4.decode_encode hencode hroom

/-- The ASCII bytes of a string. -/
def ascii (text : String) : List UInt8 := text.toList.map fun c => UInt8.ofNat c.toNat

/-- The state of `crypto.c` after `crypto_init` with the test key. -/
def crypto : Crypto := cryptoInit libraries (ascii "8556085d7ff5655a5e09a385c152ea2a")

/-- A buffer holding the given bytes from its start on, and zeroes behind. -/
def bufferOf (bytes : List UInt8) : Pbuf := fun address => bytes.getD address 0

/-- A buffer holding a packet, with a clear flag. -/
def packetBuffer (packet : List UInt8) : Pbuf :=
  (bufferOf []).writePayload 0 packet |>.setLen packet.length

/-- A generator that always draws zero. -/
def zeroDraws : Draws where
  nonce := Vector.replicate 8 0
  uniform := fun _ => 0
  uniform_lt := fun _ hbound => hbound
  paddingByte := fun _ => 0

/-- A generator that draws the given value wherever it is below the bound. -/
def steadyDraws (value : Nat) : Draws where
  nonce := Vector.replicate 8 0x5a
  uniform := fun upperBound => if value < upperBound then value else 0
  uniform_lt := by
    intro upperBound hbound
    by_cases hvalue : value < upperBound
    · rwa [if_pos hvalue]
    · rwa [if_neg hvalue]
  paddingByte := fun position => UInt8.ofNat position

/-- The datagram `encapsulate` makes of the packet `45 46` under token 0 with
`zeroDraws`: 20 bytes of header and the two bytes of payload. -/
def twoByteDatagram : List UInt8 :=
  [0, 0, 0, 0, 0, 0, 0, 0, 201, 195, 48, 81, 123, 254, 183, 136, 47, 111, 158, 254,
    243, 136]

/-- A receive buffer with that datagram and zeroes behind. -/
def twoByteBuffer : Pbuf := bufferOf twoByteDatagram

/-- A datagram with some bits of one byte flipped on the way. -/
def flip (datagram : List UInt8) (address : Nat) (mask : UInt8) : List UInt8 :=
  datagram.set address (datagram.getD address 0 ^^^ mask)

/-- The value `decapsulate` returns. -/
def returned (result : Except Abort (Int × Pbuf)) : Except Abort Int :=
  result.map Prod.fst

/-- The libraries with a checksum that tells lengths apart: BLAKE2b on payloads
of two bytes and for the key derivation, the length of every other payload. -/
def taggedLibraries : Libraries :=
  { libraries with
    genericHashBlake2b := fun outlen input key =>
      if outlen = 16 ∧ input.length ≠ 2 then
        Vector.ofFn fun i =>
          [UInt8.ofNat input.length, UInt8.ofNat (input.length / 256)].getD i 0
      else
        libraries.genericHashBlake2b outlen input key }

/-- `crypto` over `taggedLibraries`. -/
def taggedCrypto : Crypto :=
  cryptoInit taggedLibraries (ascii "8556085d7ff5655a5e09a385c152ea2a")

theorem mac_taggedCrypto {input : List UInt8} (hlength : input.length ≠ 2) :
    taggedCrypto.mac input =
      [UInt8.ofNat input.length, UInt8.ofNat (input.length / 256), 0, 0] := by
  simp only [taggedCrypto, cryptoInit, Crypto.mac, taggedLibraries, ne_eq, hlength,
    not_false_eq_true, and_self, if_true]
  rfl

/-- The datagram that `crypto` and `taggedCrypto` make of the packet `10 45`.  The packet
happens to be an LZ4 block, of one literal. -/
def blockDatagram : List UInt8 :=
  [0, 0, 0, 0, 0, 0, 0, 0, 75, 176, 161, 72, 123, 254, 183, 136, 47, 111, 158, 254,
    166, 139]

/-- A receive buffer with that datagram and zeroes behind. -/
def blockBuffer : Pbuf := bufferOf blockDatagram

theorem encapsulate_taggedCrypto :
    (encapsulate taggedCrypto 0 (packetBuffer [0x10, 0x45]) 1400 zeroDraws).1 = 22 ∧
      (encapsulate taggedCrypto 0 (packetBuffer [0x10, 0x45]) 1400 zeroDraws).2.read 0 22 =
        blockDatagram := by
  decide +kernel

/-- `test1` of `tests/test_encapsulate.c`: a compressed packet of 1024 bytes. -/
def testDatagram : List UInt8 :=
  [0x52, 0xe8, 0x5c, 0x32, 0xbf, 0xc6, 0xaa, 0x07, 0x1f, 0xd3, 0x66, 0xff,
    0x54, 0x09, 0xff, 0x17, 0x58, 0xc6, 0x87, 0x9c, 0x5d, 0xa7, 0x7a, 0x4c,
    0x9c, 0xfe, 0xc5, 0xae, 0xd9, 0xda, 0x7e, 0x31, 0x3f, 0x2c, 0xe4, 0x00]

example : returned (decapsulate crypto 0 (bufferOf testDatagram) 36) = .ok 1024 := by
  decide +kernel

end Reference
end Muon
