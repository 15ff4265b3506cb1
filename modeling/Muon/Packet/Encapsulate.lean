import Muon.Packet.Crypto

/-!
# Encapsulation and decapsulation

`compress.c` and `encapsulate.c`.  The sender compresses the payload in place,
pads it unless it was compressed, and encrypts; the receiver decrypts, checks
the length and the checksum, and decompresses.  A failing `assert` ends the
process and is the `error` of `Except Abort`.
-/

namespace Muon
namespace Packet

open Foundation

/-- The assertions of the program that can end it. -/
inductive Abort where
  /-- `assert(outlen > 0)` in `decompress`. -/
  | decompressOutlen
  /-- `assert(ctx.paths[path].sock != NULL)` in `udp_sender`. -/
  | udpSenderSock
  deriving DecidableEq, Repr

/-- `compress(pbuf)`. -/
def compress (crypto : Crypto) (pbuf : Pbuf) : Pbuf :=
  let out := crypto.libraries.lz4CompressDefault (pbuf.payload pbuf.len) 2048
  if 0 < out.length ∧ out.length < pbuf.len then
    let pbuf := pbuf.writePayload 0 out
    let pbuf := pbuf.setLen out.length
    pbuf.setFlag (pbuf.flag ||| flagCompress)
  else
    pbuf

/-- `decompress(pbuf)`. -/
def decompress (crypto : Crypto) (pbuf : Pbuf) : Except Abort Pbuf :=
  if pbuf.flag &&& flagCompress ≠ 0 then
    match crypto.libraries.lz4DecompressSafe (pbuf.payload pbuf.len) 2048 with
    | none => .error .decompressOutlen
    | some out =>
        if 0 < out.length then
          .ok ((pbuf.writePayload 0 out).setLen out.length)
        else
          .error .decompressOutlen
  else
    .ok pbuf

/-- The padding length `obfuscate` draws for a payload `max` bytes short of the
mtu. -/
def paddingDraw (draws : Draws) (max : Int) : Int :=
  if max > 897 then
    draws.uniform 554
  else if max > 554 then
    draws.uniform 342
  else if max > 342 then
    draws.uniform 211
  else
    let padding : Int := draws.uniform 130
    if padding > max then max else padding

/-- `obfuscate(pbuf, mtu)`.  The random bytes go to `pbuf->payload + pbuf->len`;
nothing here keeps them inside `payload`. -/
def obfuscate (pbuf : Pbuf) (mtu : Int) (draws : Draws) : Pbuf :=
  if pbuf.len < mtu then
    let pbuf := pbuf.setPadding (paddingDraw draws (mtu - pbuf.len))
    pbuf.writePayload pbuf.len
      ((List.range (toUInt64 pbuf.padding)).map draws.paddingByte)
  else
    pbuf.setPadding 0

/-- `encapsulate` up to the encryption. -/
def obfuscated (crypto : Crypto) (pbuf : Pbuf) (mtu : Int) (draws : Draws) : Pbuf :=
  let pbuf := compress crypto pbuf
  let pbuf := pbuf.setPadding 0
  if pbuf.flag &&& flagCompress = 0 then obfuscate pbuf mtu draws else pbuf

/-- `encapsulate(token, pbuf, mtu)`: the returned datagram size and the buffer. -/
def encapsulate (crypto : Crypto) (token : Int) (pbuf : Pbuf) (mtu : Int)
    (draws : Draws) : Int × Pbuf :=
  let pbuf := obfuscated crypto pbuf mtu draws
  let n : Int := payloadOffset + pbuf.len + pbuf.padding
  (n, crypto.cryptoEncrypt token draws.nonce pbuf)

/-- `decapsulate(token, pbuf, n)`: the returned value and the buffer. -/
def decapsulate (crypto : Crypto) (token : Int) (pbuf : Pbuf) (n : Int) :
    Except Abort (Int × Pbuf) :=
  let (invalid, pbuf) := crypto.cryptoDecrypt token pbuf (toUInt64 n)
  if invalid ≠ 0 then
    .ok (-1, pbuf)
  else if pbuf.len = 0 then
    .ok (0, pbuf)
  else if pbuf.len > sizeofPayload then
    .ok (-1, pbuf)
  else
    match decompress crypto pbuf with
    | .error abort => .error abort
    | .ok pbuf =>
        if pbuf.flag &&& 0x0002 ≠ 0 then .ok (0, pbuf) else .ok (pbuf.len, pbuf)

end Packet
end Muon
