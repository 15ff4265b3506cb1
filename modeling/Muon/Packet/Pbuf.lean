import Muon.Foundation.ByteMemory

/-!
# The packet buffer

`pbuf_t` of `encapsulate.h`, byte for byte.  The supported targets are
little-endian and put no holes between the fields, so the record occupies 2072
bytes and its fields start at the offsets below.  The last field, `padding`, is
not sent; it lies directly behind `payload`, and `sizeof(pbuf_t)` counts it.

Each field has a reader and, where the source assigns it, a writer.  A reader
depends only on the bytes of its field, which is what the frame lemmas state.
-/

namespace Muon
namespace Packet

open Foundation

/-- A `pbuf_t` object and the memory behind it. -/
abbrev Pbuf := ByteMemory

/-! ## Layout -/

/-- `offsetof(pbuf_t, chksum)`. -/
def chksumOffset : Nat := 8

/-- `offsetof(pbuf_t, ack)`. -/
def ackOffset : Nat := 12

/-- `offsetof(pbuf_t, flag)`. -/
def flagOffset : Nat := 16

/-- `offsetof(pbuf_t, len)`. -/
def lenOffset : Nat := 18

/-- `PAYLOAD_OFFSET`, that is `offsetof(pbuf_t, payload)`. -/
def payloadOffset : Nat := 20

/-- `sizeof(pbuf->payload)`. -/
def sizeofPayload : Nat := 2048

/-- `offsetof(pbuf_t, padding)`. -/
def paddingOffset : Nat := payloadOffset + sizeofPayload

/-- `sizeof(pbuf_t)`. -/
def sizeofPbuf : Nat := paddingOffset + 4

/-- `PAYLOAD_MAX`: the size of the record less the offset of the payload. -/
def payloadMax : Nat := sizeofPbuf - payloadOffset

/-- `CRYPTO_START(pbuf)`, as an offset. -/
def cryptoStart : Nat := chksumOffset

/-- `CRYPTO_NONCE_LEN`. -/
def cryptoNonceLen : Nat := chksumOffset

/-- `FLAG_COMPRESS`. -/
def flagCompress : Nat := 0x01

namespace Pbuf

/-! ## Fields -/

/-- `pbuf->nonce`. -/
def nonce (pbuf : Pbuf) : List UInt8 := pbuf.read 0 cryptoNonceLen

/-- The four bytes of `pbuf->chksum`. -/
def chksum (pbuf : Pbuf) : List UInt8 := pbuf.read chksumOffset 4

/-- The four bytes of `pbuf->ack`. -/
def ack (pbuf : Pbuf) : List UInt8 := pbuf.read ackOffset 4

/-- `pbuf->flag`. -/
def flag (pbuf : Pbuf) : Nat := pbuf.readWord16 flagOffset

/-- `pbuf->len`. -/
def len (pbuf : Pbuf) : Nat := pbuf.readWord16 lenOffset

/-- The first `count` bytes of `pbuf->payload`. -/
def payload (pbuf : Pbuf) (count : Nat) : List UInt8 := pbuf.read payloadOffset count

/-- `pbuf->padding`. -/
def padding (pbuf : Pbuf) : Int := pbuf.readInt32 paddingOffset

/-- `pbuf->flag = value`. -/
def setFlag (pbuf : Pbuf) (value : Nat) : Pbuf := pbuf.writeWord16 flagOffset value

/-- `pbuf->len = value`. -/
def setLen (pbuf : Pbuf) (value : Nat) : Pbuf := pbuf.writeWord16 lenOffset value

/-- `pbuf->padding = value`. -/
def setPadding (pbuf : Pbuf) (value : Int) : Pbuf := pbuf.writeInt32 paddingOffset value

/-- Copy `bytes` to `pbuf->payload + offset`. -/
def writePayload (pbuf : Pbuf) (offset : Nat) (bytes : List UInt8) : Pbuf :=
  pbuf.write (payloadOffset + offset) bytes

/-- `CRYPTO_LEN(pbuf)`, computed in `size_t`. -/
def cryptoLen (pbuf : Pbuf) : Int :=
  (payloadOffset : Int) - chksumOffset + pbuf.len + pbuf.padding

/-! ## What the writers leave alone -/

theorem setFlag_of_ne (pbuf : Pbuf) {address : Nat} (value : Nat)
    (hlow : address ≠ 16) (hhigh : address ≠ 17) :
    pbuf.setFlag value address = pbuf address :=
  ByteMemory.writeWord16_of_ne pbuf value hlow hhigh

theorem setLen_of_ne (pbuf : Pbuf) {address : Nat} (value : Nat)
    (hlow : address ≠ 18) (hhigh : address ≠ 19) :
    pbuf.setLen value address = pbuf address :=
  ByteMemory.writeWord16_of_ne pbuf value hlow hhigh

theorem setPadding_of_disjoint (pbuf : Pbuf) {address : Nat} (value : Int)
    (hdisjoint : address < 2068 ∨ 2072 ≤ address) :
    pbuf.setPadding value address = pbuf address :=
  ByteMemory.writeInt32_of_disjoint pbuf value hdisjoint

theorem writePayload_of_lt (pbuf : Pbuf) {address offset : Nat}
    (bytes : List UInt8) (hbefore : address < 20 + offset) :
    pbuf.writePayload offset bytes address = pbuf address :=
  ByteMemory.write_of_lt pbuf bytes hbefore

theorem writePayload_of_ge (pbuf : Pbuf) {address offset : Nat}
    {bytes : List UInt8} (hafter : 20 + offset + bytes.length ≤ address) :
    pbuf.writePayload offset bytes address = pbuf address :=
  ByteMemory.write_of_ge pbuf hafter

/-! ## What the readers depend on -/

theorem flag_congr {left right : Pbuf} (hlow : left 16 = right 16)
    (hhigh : left 17 = right 17) : left.flag = right.flag :=
  ByteMemory.readWord16_congr hlow hhigh

theorem len_congr {left right : Pbuf} (hlow : left 18 = right 18)
    (hhigh : left 19 = right 19) : left.len = right.len :=
  ByteMemory.readWord16_congr hlow hhigh

theorem padding_congr {left right : Pbuf}
    (hsame : ∀ address, 2068 ≤ address → address < 2072 →
      left address = right address) : left.padding = right.padding :=
  ByteMemory.readInt32_congr hsame

theorem payload_congr {left right : Pbuf} {count : Nat}
    (hsame : ∀ address, 20 ≤ address → address < 20 + count →
      left address = right address) : left.payload count = right.payload count :=
  ByteMemory.read_congr hsame

theorem chksum_congr {left right : Pbuf}
    (hsame : ∀ address, 8 ≤ address → address < 12 →
      left address = right address) : left.chksum = right.chksum :=
  ByteMemory.read_congr hsame

theorem nonce_congr {left right : Pbuf}
    (hsame : ∀ address, address < 8 → left address = right address) :
    left.nonce = right.nonce :=
  ByteMemory.read_congr fun address _ hhigh => hsame address (by
    simpa [cryptoNonceLen, chksumOffset] using hhigh)

theorem len_lt (pbuf : Pbuf) : pbuf.len < 65536 := ByteMemory.readWord16_lt _ _

@[simp] theorem length_payload (pbuf : Pbuf) (count : Nat) :
    (pbuf.payload count).length = count := ByteMemory.length_read _ _ _

/-! ## Reading back an assignment -/

@[simp] theorem flag_setFlag (pbuf : Pbuf) (value : Nat) :
    (pbuf.setFlag value).flag = value % 65536 :=
  ByteMemory.readWord16_writeWord16_same _ _ _

@[simp] theorem len_setLen (pbuf : Pbuf) (value : Nat) :
    (pbuf.setLen value).len = value % 65536 :=
  ByteMemory.readWord16_writeWord16_same _ _ _

theorem padding_setPadding (pbuf : Pbuf) {value : Int}
    (hlow : -(2 ^ 31) ≤ value) (hhigh : value < 2 ^ 31) :
    (pbuf.setPadding value).padding = value :=
  ByteMemory.readInt32_writeInt32_same _ _ hlow hhigh

@[simp] theorem payload_writePayload_same (pbuf : Pbuf) (bytes : List UInt8) :
    (pbuf.writePayload 0 bytes).payload bytes.length = bytes :=
  ByteMemory.read_write_same _ _ _

/-! ## Assignments to other fields -/

@[simp] theorem len_setFlag (pbuf : Pbuf) (value : Nat) :
    (pbuf.setFlag value).len = pbuf.len :=
  len_congr (setFlag_of_ne _ _ (by omega) (by omega))
    (setFlag_of_ne _ _ (by omega) (by omega))

@[simp] theorem flag_setLen (pbuf : Pbuf) (value : Nat) :
    (pbuf.setLen value).flag = pbuf.flag :=
  flag_congr (setLen_of_ne _ _ (by omega) (by omega))
    (setLen_of_ne _ _ (by omega) (by omega))

@[simp] theorem payload_setFlag (pbuf : Pbuf) (value count : Nat) :
    (pbuf.setFlag value).payload count = pbuf.payload count :=
  payload_congr fun _ _ _ => setFlag_of_ne _ _ (by omega) (by omega)

@[simp] theorem payload_setLen (pbuf : Pbuf) (value count : Nat) :
    (pbuf.setLen value).payload count = pbuf.payload count :=
  payload_congr fun _ _ _ => setLen_of_ne _ _ (by omega) (by omega)

@[simp] theorem padding_setFlag (pbuf : Pbuf) (value : Nat) :
    (pbuf.setFlag value).padding = pbuf.padding :=
  padding_congr fun _ _ _ => setFlag_of_ne _ _ (by omega) (by omega)

@[simp] theorem padding_setLen (pbuf : Pbuf) (value : Nat) :
    (pbuf.setLen value).padding = pbuf.padding :=
  padding_congr fun _ _ _ => setLen_of_ne _ _ (by omega) (by omega)

@[simp] theorem flag_setPadding (pbuf : Pbuf) (value : Int) :
    (pbuf.setPadding value).flag = pbuf.flag :=
  flag_congr (setPadding_of_disjoint _ _ (by omega))
    (setPadding_of_disjoint _ _ (by omega))

@[simp] theorem len_setPadding (pbuf : Pbuf) (value : Int) :
    (pbuf.setPadding value).len = pbuf.len :=
  len_congr (setPadding_of_disjoint _ _ (by omega))
    (setPadding_of_disjoint _ _ (by omega))

theorem payload_setPadding (pbuf : Pbuf) (value : Int) {count : Nat}
    (hcount : count ≤ sizeofPayload) :
    (pbuf.setPadding value).payload count = pbuf.payload count :=
  payload_congr fun _ _ _ => setPadding_of_disjoint _ _ (by
    simp only [sizeofPayload] at hcount; omega)

@[simp] theorem flag_writePayload (pbuf : Pbuf) (offset : Nat)
    (bytes : List UInt8) : (pbuf.writePayload offset bytes).flag = pbuf.flag :=
  flag_congr (writePayload_of_lt _ _ (by omega)) (writePayload_of_lt _ _ (by omega))

@[simp] theorem len_writePayload (pbuf : Pbuf) (offset : Nat)
    (bytes : List UInt8) : (pbuf.writePayload offset bytes).len = pbuf.len :=
  len_congr (writePayload_of_lt _ _ (by omega)) (writePayload_of_lt _ _ (by omega))

/-- Bytes copied behind the first `count` payload bytes leave those alone. -/
theorem payload_writePayload_of_le (pbuf : Pbuf) {offset count : Nat}
    (bytes : List UInt8) (hcount : count ≤ offset) :
    (pbuf.writePayload offset bytes).payload count = pbuf.payload count :=
  payload_congr fun _ _ _ => writePayload_of_lt _ _ (by omega)

theorem padding_writePayload (pbuf : Pbuf) {offset : Nat} {bytes : List UInt8}
    (hfits : offset + bytes.length ≤ sizeofPayload) :
    (pbuf.writePayload offset bytes).padding = pbuf.padding :=
  padding_congr fun _ _ _ => writePayload_of_ge _ (by
    simp only [sizeofPayload] at hfits; omega)

end Pbuf

end Packet
end Muon
