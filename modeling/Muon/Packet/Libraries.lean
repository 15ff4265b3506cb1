import Mathlib.Algebra.Group.Int.Defs
import Mathlib.Algebra.Group.Nat.Defs
import Mathlib.Data.List.Defs

/-!
# The libraries under the packet code

`crypto.c` calls libsodium and `compress.c` calls LZ4; neither is part of the
repository.  They enter the model as the record `Libraries`, one field per
function, together with the documented facts the development relies on.  What
the types already say is not assumed again: every function is a function of its
arguments, a digest has the requested length, and `LZ4_decompress_safe` stays
within the capacity it is given.

`Crypto` adds the static `key[32]` of `crypto.c`.  A draw of the random number
generator is an input of the operation that makes it; `Draws` collects the
draws of one `encapsulate` and carries the range of `randombytes_uniform`.
-/

namespace Muon
namespace Packet

/-- The functions of libsodium and LZ4 that the packet code calls. -/
structure Libraries where
  /-- `crypto_generichash_blake2b(out, outlen, in, inlen, key, keylen)`. -/
  genericHashBlake2b : (outlen : Nat) → (input key : List UInt8) → Vector UInt8 outlen
  /-- Byte `position` of the stream of `crypto_stream_chacha20_xor`. -/
  streamChacha20 : (key nonce : List UInt8) → (position : Nat) → UInt8
  /-- `LZ4_compress_default(src, dst, srcSize, dstCapacity)`: the bytes written
  to `dst`, none when it returns `0`. -/
  lz4CompressDefault : (source : List UInt8) → (capacity : Nat) → List UInt8
  /-- `LZ4_decompress_safe(src, dst, compressedSize, dstCapacity)`: the bytes
  written to `dst`, `none` when it returns a negative value. -/
  lz4DecompressSafe : (source : List UInt8) → (capacity : Nat) → Option (List UInt8)
  /-- An output that would exceed the capacity is an error. -/
  lz4DecompressSafe_le : ∀ source capacity output,
    lz4DecompressSafe source capacity = some output → output.length ≤ capacity

/-- `LZ4_decompress_safe` turns every output of `LZ4_compress_default` back into
its input when the capacity is at least the input's length. -/
def Libraries.Lossless (libraries : Libraries) : Prop :=
  ∀ (source : List UInt8) (capacity capacity' : Nat),
    libraries.lz4CompressDefault source capacity ≠ [] →
    source.length ≤ capacity' →
    libraries.lz4DecompressSafe (libraries.lz4CompressDefault source capacity)
      capacity' = some source

/-- The libraries with the static `key` of `crypto.c`. -/
structure Crypto where
  libraries : Libraries
  key : Vector UInt8 32

/-- `crypto_init`: the static key is the hash of the pre-shared key. -/
def cryptoInit (libraries : Libraries) (psk : List UInt8) : Crypto where
  libraries := libraries
  key := libraries.genericHashBlake2b 32 psk []

/-- The random draws of one call of `encapsulate`. -/
structure Draws where
  /-- `randombytes_buf(pbuf->nonce, 8)`. -/
  nonce : Vector UInt8 8
  /-- `randombytes_uniform(upperBound)`. -/
  uniform : (upperBound : Nat) → Nat
  /-- `randombytes_uniform` stays below its bound. -/
  uniform_lt : ∀ upperBound, 0 < upperBound → uniform upperBound < upperBound
  /-- The bytes of `randombytes_buf(pbuf->payload + pbuf->len, pbuf->padding)`. -/
  paddingByte : Nat → UInt8

end Packet
end Muon
