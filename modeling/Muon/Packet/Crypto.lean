import Muon.Foundation.MachineInteger
import Muon.Packet.Libraries
import Muon.Packet.Pbuf

/-!
# Checksum and encryption

`crypto.c`: the keyed hash over the payload, the one-time key derived from a
token, and the in-place encryption of everything behind the nonce.  The stream
covers `chksum`, `ack`, `flag`, `len`, the payload and the padding; the
checksum covers the payload only.

`cryptoEncrypt` is cut at the call of `crypto_stream_chacha20_xor`:
`cryptoPlain` is the buffer that call finds.  `opened` is the buffer the same
call leaves behind on the receiving side, and the wire readers give its fields
in network byte order.
-/

namespace Muon
namespace Packet

open Foundation

/-- `htons` on a little-endian host. -/
def htons (value : Nat) : Nat := value % 256 * 256 + value / 256 % 256

/-- `ntohs` on a little-endian host. -/
def ntohs (value : Nat) : Nat := htons value

theorem htons_lt (value : Nat) : htons value < 65536 := by
  unfold htons
  omega

theorem ntohs_htons {value : Nat} (hvalue : value < 65536) :
    ntohs (htons value) = value := by
  have hhigh : (value % 256 * 256 + value / 256 % 256) / 256 = value % 256 := by omega
  have hlow : (value % 256 * 256 + value / 256 % 256) % 256 = value / 256 % 256 := by
    omega
  unfold ntohs htons
  rw [hhigh, hlow]
  omega

namespace Crypto

/-- The first four bytes of the keyed hash of `input`, as `crypto_hmac` copies
them to `chksum`. -/
def mac (crypto : Crypto) (input : List UInt8) : List UInt8 :=
  (crypto.libraries.genericHashBlake2b 16 input crypto.key.toList).toList.take 4

/-- `hmac(out, in, inlen)`: the 16-byte keyed hash. -/
def hmac (crypto : Crypto) (input : List UInt8) : Vector UInt8 16 :=
  crypto.libraries.genericHashBlake2b 16 input crypto.key.toList

/-- The local `onetimekey` of `crypto_encrypt` and `crypto_decrypt`. -/
def onetimekey (crypto : Crypto) (token : Int) : List UInt8 :=
  let factor := [UInt8.ofNat (token % 256).toNat, UInt8.ofNat (token / 256 % 256).toNat]
  (crypto.libraries.genericHashBlake2b 32 crypto.key.toList factor).toList

/-- The key stream of one datagram. -/
def stream (crypto : Crypto) (token : Int) (nonce : List UInt8) : Nat → UInt8 :=
  crypto.libraries.streamChacha20 (crypto.onetimekey token) nonce

/-- `crypto_hmac(pbuf)`. -/
def cryptoHmac (crypto : Crypto) (pbuf : Pbuf) : Pbuf :=
  pbuf.write chksumOffset (crypto.mac (pbuf.payload pbuf.len))

/-- `crypto_encrypt` up to the call of the stream cipher: the nonce, the
checksum, and the swapped `flag` and `len`. -/
def cryptoPlain (crypto : Crypto) (nonce : Vector UInt8 8) (pbuf : Pbuf) : Pbuf :=
  let pbuf := pbuf.write 0 nonce.toList
  let pbuf := crypto.cryptoHmac pbuf
  let pbuf := pbuf.setFlag (htons pbuf.flag)
  pbuf.setLen (htons pbuf.len)

/-- `crypto_encrypt(token, pbuf)`.  The length given to the stream cipher is
`CRYPTO_LEN` before `len` is swapped; neither the nonce nor the checksum
changes it. -/
def cryptoEncrypt (crypto : Crypto) (token : Int) (nonce : Vector UInt8 8)
    (pbuf : Pbuf) : Pbuf :=
  let len := toInt32 pbuf.cryptoLen
  let pbuf := crypto.cryptoPlain nonce pbuf
  pbuf.xorRange cryptoStart (cryptoStart + toUInt64 len) (crypto.stream token pbuf.nonce)

/-- The buffer after `crypto_decrypt` has applied the stream cipher to a
datagram of `len` bytes. -/
def opened (crypto : Crypto) (token : Int) (pbuf : Pbuf) (len : Nat) : Pbuf :=
  pbuf.xorRange cryptoStart (cryptoStart + toUInt64 ((len : Int) - cryptoNonceLen))
    (crypto.stream token pbuf.nonce)

/-- `crypto_decrypt` swaps `flag` and `len` back. -/
def hostOrder (pbuf : Pbuf) : Pbuf :=
  let pbuf := pbuf.setFlag (ntohs pbuf.flag)
  pbuf.setLen (ntohs pbuf.len)

/-- `crypto_decrypt(token, pbuf, len)`: the returned status and the buffer. -/
def cryptoDecrypt (crypto : Crypto) (token : Int) (pbuf : Pbuf) (len : Nat) :
    Int × Pbuf :=
  let pbuf := hostOrder (crypto.opened token pbuf len)
  if pbuf.len > sizeofPayload then
    (-1, pbuf)
  else
    let chksum := pbuf.chksum
    let pbuf := crypto.cryptoHmac pbuf
    (if chksum = pbuf.chksum then 0 else -1, pbuf)

@[simp] theorem length_mac (crypto : Crypto) (input : List UInt8) :
    (crypto.mac input).length = 4 := by
  simp [mac]

/-! ## The checksum step -/

theorem cryptoHmac_of_disjoint (crypto : Crypto) (pbuf : Pbuf) {address : Nat}
    (hdisjoint : address < 8 ∨ 12 ≤ address) :
    crypto.cryptoHmac pbuf address = pbuf address := by
  rcases hdisjoint with hbefore | hafter
  · exact ByteMemory.write_of_lt pbuf _ hbefore
  · exact ByteMemory.write_of_ge pbuf (by simpa [chksumOffset] using hafter)

@[simp] theorem chksum_cryptoHmac (crypto : Crypto) (pbuf : Pbuf) :
    (crypto.cryptoHmac pbuf).chksum = crypto.mac (pbuf.payload pbuf.len) := by
  have hread := ByteMemory.read_write_same pbuf chksumOffset
    (crypto.mac (pbuf.payload pbuf.len))
  rwa [length_mac] at hread

@[simp] theorem flag_cryptoHmac (crypto : Crypto) (pbuf : Pbuf) :
    (crypto.cryptoHmac pbuf).flag = pbuf.flag :=
  Pbuf.flag_congr (cryptoHmac_of_disjoint _ _ (by omega))
    (cryptoHmac_of_disjoint _ _ (by omega))

@[simp] theorem len_cryptoHmac (crypto : Crypto) (pbuf : Pbuf) :
    (crypto.cryptoHmac pbuf).len = pbuf.len :=
  Pbuf.len_congr (cryptoHmac_of_disjoint _ _ (by omega))
    (cryptoHmac_of_disjoint _ _ (by omega))

@[simp] theorem payload_cryptoHmac (crypto : Crypto) (pbuf : Pbuf) (count : Nat) :
    (crypto.cryptoHmac pbuf).payload count = pbuf.payload count :=
  Pbuf.payload_congr fun _ _ _ => cryptoHmac_of_disjoint _ _ (by omega)

/-! ## The buffer the sender encrypts -/

private theorem write_nonce_of_ge (pbuf : Pbuf) (nonce : Vector UInt8 8)
    {address : Nat} (hafter : 8 ≤ address) :
    pbuf.write 0 nonce.toList address = pbuf address :=
  ByteMemory.write_of_ge pbuf (by simpa using hafter)

private theorem flag_write_nonce (pbuf : Pbuf) (nonce : Vector UInt8 8) :
    Pbuf.flag (pbuf.write 0 nonce.toList) = pbuf.flag :=
  Pbuf.flag_congr (write_nonce_of_ge _ _ (by omega)) (write_nonce_of_ge _ _ (by omega))

private theorem len_write_nonce (pbuf : Pbuf) (nonce : Vector UInt8 8) :
    Pbuf.len (pbuf.write 0 nonce.toList) = pbuf.len :=
  Pbuf.len_congr (write_nonce_of_ge _ _ (by omega)) (write_nonce_of_ge _ _ (by omega))

private theorem payload_write_nonce (pbuf : Pbuf) (nonce : Vector UInt8 8)
    (count : Nat) :
    Pbuf.payload (pbuf.write 0 nonce.toList) count = pbuf.payload count :=
  Pbuf.payload_congr fun _ _ _ => write_nonce_of_ge _ _ (by omega)

/-- Behind the swapped fields the sender's buffer is the caller's. -/
theorem cryptoPlain_of_ge (crypto : Crypto) (nonce : Vector UInt8 8) (pbuf : Pbuf)
    {address : Nat} (hafter : 20 ≤ address) :
    crypto.cryptoPlain nonce pbuf address = pbuf address := by
  unfold cryptoPlain
  rw [Pbuf.setLen_of_ne _ _ (by omega) (by omega),
    Pbuf.setFlag_of_ne _ _ (by omega) (by omega),
    cryptoHmac_of_disjoint _ _ (by omega), write_nonce_of_ge _ _ (by omega)]

/-- The nonce is sent as drawn. -/
theorem nonce_cryptoPlain (crypto : Crypto) (nonce : Vector UInt8 8) (pbuf : Pbuf) :
    (crypto.cryptoPlain nonce pbuf).nonce = nonce.toList := by
  have hframe : (crypto.cryptoPlain nonce pbuf).nonce =
      Pbuf.nonce (pbuf.write 0 nonce.toList) := by
    refine Pbuf.nonce_congr fun address haddress => ?_
    unfold cryptoPlain
    rw [Pbuf.setLen_of_ne _ _ (by omega) (by omega),
      Pbuf.setFlag_of_ne _ _ (by omega) (by omega),
      cryptoHmac_of_disjoint _ _ (by omega)]
  have hread := ByteMemory.read_write_same pbuf 0 nonce.toList
  rw [Vector.length_toList] at hread
  exact hframe.trans hread

theorem payload_cryptoPlain (crypto : Crypto) (nonce : Vector UInt8 8)
    (pbuf : Pbuf) (count : Nat) :
    (crypto.cryptoPlain nonce pbuf).payload count = pbuf.payload count :=
  Pbuf.payload_congr fun _ hlow _ => cryptoPlain_of_ge _ _ _ (by omega)

theorem flag_cryptoPlain (crypto : Crypto) (nonce : Vector UInt8 8) (pbuf : Pbuf) :
    (crypto.cryptoPlain nonce pbuf).flag = htons pbuf.flag := by
  simp [cryptoPlain, flag_write_nonce, Nat.mod_eq_of_lt (htons_lt _)]

theorem len_cryptoPlain (crypto : Crypto) (nonce : Vector UInt8 8) (pbuf : Pbuf) :
    (crypto.cryptoPlain nonce pbuf).len = htons pbuf.len := by
  simp [cryptoPlain, len_write_nonce, Nat.mod_eq_of_lt (htons_lt _)]

theorem chksum_cryptoPlain (crypto : Crypto) (nonce : Vector UInt8 8) (pbuf : Pbuf) :
    (crypto.cryptoPlain nonce pbuf).chksum = crypto.mac (pbuf.payload pbuf.len) := by
  have hframe : (crypto.cryptoPlain nonce pbuf).chksum =
      (crypto.cryptoHmac (pbuf.write 0 nonce.toList)).chksum := by
    refine Pbuf.chksum_congr fun address hlow hhigh => ?_
    unfold cryptoPlain
    rw [Pbuf.setLen_of_ne _ _ (by omega) (by omega),
      Pbuf.setFlag_of_ne _ _ (by omega) (by omega)]
  rw [hframe, chksum_cryptoHmac, len_write_nonce, payload_write_nonce]

/-! ## The buffer the receiver decrypts -/

/-- The stream cipher of `crypto_decrypt` covers the bytes `8, ..., len - 1`. -/
theorem opened_eq (crypto : Crypto) (token : Int) (pbuf : Pbuf) {len : Nat}
    (hlow : 8 ≤ len) (hhigh : len < 2 ^ 63) :
    crypto.opened token pbuf len =
      pbuf.xorRange 8 len (crypto.stream token pbuf.nonce) := by
  have hspan : toUInt64 ((len : Int) - cryptoNonceLen) = len - 8 := by
    unfold toUInt64 cryptoNonceLen chksumOffset
    omega
  unfold opened
  rw [hspan]
  simp [cryptoStart, chksumOffset, hlow]

/-- Buffers holding the same datagram open to the same bytes. -/
theorem opened_agreeBelow (crypto : Crypto) (token : Int) {left right : Pbuf}
    {len : Nat} (hlow : 8 ≤ len) (hhigh : len < 2 ^ 63)
    (hagree : ByteMemory.AgreeBelow len left right) :
    ByteMemory.AgreeBelow len (crypto.opened token left len)
      (crypto.opened token right len) := by
  have hnonce : left.nonce = right.nonce :=
    Pbuf.nonce_congr fun address haddress => hagree address (by omega)
  intro address haddress
  rw [opened_eq crypto token left hlow hhigh, opened_eq crypto token right hlow hhigh,
    hnonce]
  exact ByteMemory.xorRange_congr _ (hagree address haddress)

/-- Behind the datagram the receiver's buffer keeps what it held. -/
theorem opened_of_ge (crypto : Crypto) (token : Int) (pbuf : Pbuf)
    {len address : Nat} (hlow : 8 ≤ len) (hhigh : len < 2 ^ 63)
    (hafter : len ≤ address) :
    crypto.opened token pbuf len address = pbuf address := by
  rw [opened_eq crypto token pbuf hlow hhigh]
  exact ByteMemory.xorRange_of_ge _ _ hafter

/-- Every byte that arrives as the sender's stream left it opens to what lies under
the stream; for the key stream to be the same, the nonce has to arrive. -/
theorem opened_of_stream (crypto : Crypto) (token : Int)
    {plain datagram received : Pbuf} {size len address : Nat}
    (hdatagram : datagram = plain.xorRange 8 size (crypto.stream token plain.nonce))
    (hlen : 8 ≤ len) (hsize : len ≤ size) (hsmall : len < 2 ^ 63)
    (hnonce : ByteMemory.AgreeBelow 8 received datagram)
    (hlow : 8 ≤ address) (hhigh : address < len)
    (hsame : received address = datagram address) :
    crypto.opened token received len address = plain address := by
  have hnonceEq : received.nonce = plain.nonce := by
    refine Pbuf.nonce_congr fun address haddress => ?_
    rw [hnonce address haddress, hdatagram, ByteMemory.xorRange_of_lt _ _ haddress]
  rw [opened_eq crypto token received hlen hsmall, hnonceEq,
    ByteMemory.xorRange_congr _ hsame, hdatagram]
  exact ByteMemory.xorRange_xorRange_of_mem plain _ hlow (by omega) hhigh

end Crypto

namespace Pbuf

/-- `flag` of a buffer whose header is still in network byte order. -/
def wireFlag (pbuf : Pbuf) : Nat := ntohs pbuf.flag

/-- `len` of a buffer whose header is still in network byte order. -/
def wireLen (pbuf : Pbuf) : Nat := ntohs pbuf.len

/-- The payload announced by the header. -/
def body (pbuf : Pbuf) : List UInt8 := pbuf.payload pbuf.wireLen

theorem wireFlag_lt (pbuf : Pbuf) : pbuf.wireFlag < 65536 := htons_lt _

theorem wireLen_lt (pbuf : Pbuf) : pbuf.wireLen < 65536 := htons_lt _

@[simp] theorem length_body (pbuf : Pbuf) : pbuf.body.length = pbuf.wireLen :=
  length_payload _ _

theorem wireFlag_congr {left right : Pbuf} (hlow : left 16 = right 16)
    (hhigh : left 17 = right 17) : left.wireFlag = right.wireFlag :=
  congrArg ntohs (flag_congr hlow hhigh)

theorem wireLen_congr {left right : Pbuf} (hlow : left 18 = right 18)
    (hhigh : left 19 = right 19) : left.wireLen = right.wireLen :=
  congrArg ntohs (len_congr hlow hhigh)

end Pbuf

namespace Crypto

@[simp] theorem flag_hostOrder (pbuf : Pbuf) :
    (hostOrder pbuf).flag = pbuf.wireFlag := by
  simpa [hostOrder, Pbuf.wireFlag] using Nat.mod_eq_of_lt pbuf.wireFlag_lt

@[simp] theorem len_hostOrder (pbuf : Pbuf) :
    (hostOrder pbuf).len = pbuf.wireLen := by
  simpa [hostOrder, Pbuf.wireLen] using Nat.mod_eq_of_lt pbuf.wireLen_lt

@[simp] theorem payload_hostOrder (pbuf : Pbuf) (count : Nat) :
    (hostOrder pbuf).payload count = pbuf.payload count := by
  simp [hostOrder]

@[simp] theorem chksum_hostOrder (pbuf : Pbuf) :
    (hostOrder pbuf).chksum = pbuf.chksum :=
  Pbuf.chksum_congr fun _ _ _ => by
    unfold hostOrder
    rw [Pbuf.setLen_of_ne _ _ (by omega) (by omega),
      Pbuf.setFlag_of_ne _ _ (by omega) (by omega)]

end Crypto

end Packet
end Muon
