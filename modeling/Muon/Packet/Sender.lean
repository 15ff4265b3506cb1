import Muon.Packet.Encapsulate

/-!
# What the sender emits

`encapsulate` works in place as well.  This module says what it leaves in the
buffer in terms of the packet it was given: `wireBody` is the payload after
compression, `wireFlag` the flag, `paddingLength` the number of random bytes.

`Loaded` is the precondition of `encapsulate`.  Its flag clause allows the flag
of an earlier trip of the same packet, since neither `decapsulate` nor the
callers clear it.  `Sealed` is the postcondition, stated on the bytes of the
datagram; it is all that the receiver's side has to know.
-/

namespace Muon
namespace Packet

open Foundation

/-- The packet is compressed: LZ4 produced something shorter. -/
def Shrinks (crypto : Crypto) (packet : List UInt8) : Prop :=
  0 < (crypto.libraries.lz4CompressDefault packet 2048).length ∧
    (crypto.libraries.lz4CompressDefault packet 2048).length < packet.length

instance (crypto : Crypto) (packet : List UInt8) : Decidable (Shrinks crypto packet) :=
  inferInstanceAs (Decidable (_ ∧ _))

/-- The payload as sent. -/
def wireBody (crypto : Crypto) (packet : List UInt8) : List UInt8 :=
  if Shrinks crypto packet then crypto.libraries.lz4CompressDefault packet 2048
  else packet

/-- The flag as sent. -/
def wireFlag (crypto : Crypto) (packet : List UInt8) : Nat :=
  if Shrinks crypto packet then flagCompress else 0

/-- The number of padding bytes behind an uncompressed payload. -/
def paddingLength (draws : Draws) (mtu : Int) (len : Nat) : Int :=
  if len < mtu then paddingDraw draws (mtu - len) else 0

/-- The number of padding bytes behind the payload of a packet. -/
def wirePadding (crypto : Crypto) (draws : Draws) (mtu : Int) (packet : List UInt8) :
    Int :=
  if Shrinks crypto packet then 0 else paddingLength draws mtu packet.length

/-- The buffer holds `packet`, with a clear flag or the flag of an earlier trip. -/
structure Loaded (crypto : Crypto) (packet : List UInt8) (pbuf : Pbuf) : Prop where
  len_eq : pbuf.len = packet.length
  payload_eq : pbuf.payload packet.length = packet
  flag_eq : pbuf.flag = 0 ∨ pbuf.flag = wireFlag crypto packet

/-- What `tun_worker` passes to `udp_sender`: the bytes `tun_read` stored in the
payload, their number, and a clear flag. -/
def tunWorkerLoad (pbuf : Pbuf) (packet : List UInt8) : Pbuf :=
  let pbuf := pbuf.writePayload 0 packet
  let pbuf := pbuf.setLen packet.length
  pbuf.setFlag 0x0000

/-- What `heartbeat` passes to `encapsulate`. -/
def heartbeatLoad (pbuf : Pbuf) : Pbuf := (pbuf.setLen 0).setFlag 0

theorem tunWorkerLoad_loaded (crypto : Crypto) (pbuf : Pbuf) {packet : List UInt8}
    (hpacket : packet.length < 65536) :
    Loaded crypto packet (tunWorkerLoad pbuf packet) where
  len_eq := by simp [tunWorkerLoad, Nat.mod_eq_of_lt hpacket]
  payload_eq := by simp [tunWorkerLoad]
  flag_eq := Or.inl (by simp [tunWorkerLoad])

theorem heartbeatLoad_loaded (crypto : Crypto) (pbuf : Pbuf) :
    Loaded crypto [] (heartbeatLoad pbuf) where
  len_eq := by simp [heartbeatLoad]
  payload_eq := by simp [Pbuf.payload]
  flag_eq := Or.inl (by simp [heartbeatLoad])

theorem length_wireBody_le (crypto : Crypto) (packet : List UInt8) :
    (wireBody crypto packet).length ≤ packet.length := by
  unfold wireBody
  split
  · next hshrinks => exact Nat.le_of_lt hshrinks.2
  · exact Nat.le_refl _

theorem wireBody_eq_nil_iff (crypto : Crypto) (packet : List UInt8) :
    wireBody crypto packet = [] ↔ packet = [] := by
  unfold wireBody
  split
  · next hshrinks =>
      have hout := List.length_pos_iff.mp hshrinks.1
      have hpacket : packet ≠ [] :=
        List.length_pos_iff.mp (Nat.zero_lt_of_lt hshrinks.2)
      simp [hout, hpacket]
  · exact Iff.rfl

/-! ## Padding -/

/-- Every branch of `obfuscate` stays within the room below the mtu. -/
theorem paddingDraw_bounds (draws : Draws) {max : Int} (hmax : 0 < max) :
    0 ≤ paddingDraw draws max ∧ paddingDraw draws max ≤ max ∧
      paddingDraw draws max < 554 := by
  have h554 := draws.uniform_lt 554 (by omega)
  have h342 := draws.uniform_lt 342 (by omega)
  have h211 := draws.uniform_lt 211 (by omega)
  have h130 := draws.uniform_lt 130 (by omega)
  unfold paddingDraw
  split
  · omega
  · split
    · omega
    · split
      · omega
      · dsimp only
        split <;> omega

theorem paddingLength_bounds (draws : Draws) (mtu : Int) (len : Nat) :
    0 ≤ paddingLength draws mtu len ∧ paddingLength draws mtu len < 554 ∧
      (len ≤ mtu → len + paddingLength draws mtu len ≤ mtu) := by
  unfold paddingLength
  split
  · next hroom =>
      obtain ⟨hlow, hmax, hhigh⟩ := paddingDraw_bounds draws
        (show 0 < mtu - len by omega)
      exact ⟨hlow, hhigh, fun _ => by omega⟩
  · exact ⟨by omega, by omega, fun hle => by omega⟩

theorem wirePadding_bounds (crypto : Crypto) (draws : Draws) (mtu : Int)
    (packet : List UInt8) :
    0 ≤ wirePadding crypto draws mtu packet ∧
      wirePadding crypto draws mtu packet < 554 ∧
      (packet.length ≤ mtu →
        (wireBody crypto packet).length + wirePadding crypto draws mtu packet ≤ mtu) := by
  have hbody := length_wireBody_le crypto packet
  obtain ⟨hlow, hhigh, hmtu⟩ := paddingLength_bounds draws mtu packet.length
  unfold wirePadding wireBody at *
  split
  · next hshrinks =>
      rw [if_pos hshrinks] at hbody
      exact ⟨by omega, by omega, fun hle => by omega⟩
  · exact ⟨hlow, hhigh, hmtu⟩

/-- A payload and an mtu that fit keep the padding inside the payload. -/
theorem wireBody_add_wirePadding_le (crypto : Crypto) (draws : Draws) {mtu : Int}
    {packet : List UInt8} (hpacket : packet.length ≤ sizeofPayload)
    (hmtu : mtu ≤ sizeofPayload) :
    (wireBody crypto packet).length + wirePadding crypto draws mtu packet ≤
      sizeofPayload := by
  have hbody := length_wireBody_le crypto packet
  by_cases hroom : (packet.length : Int) ≤ mtu
  · exact Int.le_trans ((wirePadding_bounds crypto draws mtu packet).2.2 hroom) hmtu
  · have hnone : ¬ (packet.length : Int) < mtu := by omega
    have hzero : wirePadding crypto draws mtu packet = 0 := by
      simp [wirePadding, paddingLength, hnone]
    omega

/-! ## Compression and padding in the buffer -/

/-- What `compress` does to a buffer holding a packet. -/
theorem compress_spec {crypto : Crypto} {packet : List UInt8} {pbuf : Pbuf}
    (hloaded : Loaded crypto packet pbuf) :
    (compress crypto pbuf).len = (wireBody crypto packet).length ∧
      (compress crypto pbuf).payload (wireBody crypto packet).length =
        wireBody crypto packet ∧
      (compress crypto pbuf).flag = wireFlag crypto packet := by
  obtain ⟨hlen, hpayload, hflag⟩ := hloaded
  have hbound := pbuf.len_lt
  unfold compress wireBody wireFlag at *
  rw [hlen, hpayload]
  by_cases hshrinks : Shrinks crypto packet
  · have hshorter := hshrinks.2
    have hcond : 0 < (crypto.libraries.lz4CompressDefault packet 2048).length ∧
        (crypto.libraries.lz4CompressDefault packet 2048).length < packet.length :=
      hshrinks
    simp only [if_pos hshrinks, if_pos hcond] at hflag ⊢
    refine ⟨?_, ?_, ?_⟩
    · rw [Pbuf.len_setFlag, Pbuf.len_setLen]
      exact Nat.mod_eq_of_lt (by omega)
    · simp
    · rw [Pbuf.flag_setFlag, Pbuf.flag_setLen, Pbuf.flag_writePayload]
      rcases hflag with hflag | hflag <;> rw [hflag] <;> rfl
  · have hcond : ¬ (0 < (crypto.libraries.lz4CompressDefault packet 2048).length ∧
        (crypto.libraries.lz4CompressDefault packet 2048).length < packet.length) :=
      hshrinks
    simp only [if_neg hshrinks, if_neg hcond, or_self] at hflag ⊢
    exact ⟨hlen, hpayload, hflag⟩

/-- What `obfuscate` does to a buffer holding `body`, when the padding ends inside
the payload. -/
theorem obfuscate_spec {body : List UInt8} {pbuf : Pbuf} {mtu : Int} (draws : Draws)
    (hlen : pbuf.len = body.length) (hpayload : pbuf.payload body.length = body)
    (hfits : body.length + paddingLength draws mtu body.length ≤ sizeofPayload) :
    let padded := obfuscate pbuf mtu draws
    padded.len = body.length ∧ padded.payload body.length = body ∧
      padded.flag = pbuf.flag ∧ padded.padding = paddingLength draws mtu body.length := by
  obtain ⟨hpadLow, hpadHigh, -⟩ := paddingLength_bounds draws mtu body.length
  have hbody : body.length ≤ sizeofPayload := by omega
  intro padded
  simp only [padded, obfuscate, hlen]
  by_cases hroom : (body.length : Int) < mtu
  · have hdraw : paddingDraw draws (mtu - body.length) =
        paddingLength draws mtu body.length := (if_pos hroom).symm
    have hcount : toUInt64 (paddingLength draws mtu body.length) =
        (paddingLength draws mtu body.length).toNat :=
      toUInt64_of_nonneg hpadLow (by omega)
    -- The random bytes end in front of the `padding` field, so it keeps its value.
    have hroomFits : body.length + ((List.range (toUInt64
        (paddingLength draws mtu body.length))).map draws.paddingByte).length ≤
          sizeofPayload := by
      simp only [List.length_map, List.length_range, hcount]
      simp only [sizeofPayload] at hfits ⊢
      omega
    have hpadding := Pbuf.padding_setPadding pbuf
      (show -(2 ^ 31) ≤ paddingLength draws mtu body.length by omega) (by omega)
    simp only [if_pos hroom, hdraw, hpadding, Pbuf.len_setPadding, hlen,
      Pbuf.len_writePayload, Pbuf.flag_writePayload, Pbuf.flag_setPadding]
    refine ⟨trivial, ?_, trivial, ?_⟩
    · rw [Pbuf.payload_writePayload_of_le _ _ (Nat.le_refl _),
        Pbuf.payload_setPadding _ _ hbody, hpayload]
    · rw [Pbuf.padding_writePayload _ hroomFits, hpadding]
  · have hzero : paddingLength draws mtu body.length = 0 := if_neg hroom
    rw [if_neg hroom, hzero]
    refine ⟨by simp [hlen], ?_, by simp, ?_⟩
    · rw [Pbuf.payload_setPadding _ _ hbody, hpayload]
    · exact Pbuf.padding_setPadding _ (by omega) (by omega)

/-- The buffer `encapsulate` encrypts, when the padding ends inside the
payload. -/
theorem obfuscated_spec {crypto : Crypto} {packet : List UInt8} {pbuf : Pbuf}
    {mtu : Int} {draws : Draws} (hloaded : Loaded crypto packet pbuf)
    (hfits : (wireBody crypto packet).length + wirePadding crypto draws mtu packet ≤
      sizeofPayload) :
    let sent := obfuscated crypto pbuf mtu draws
    sent.len = (wireBody crypto packet).length ∧
      sent.payload (wireBody crypto packet).length = wireBody crypto packet ∧
      sent.flag = wireFlag crypto packet ∧
      sent.padding = wirePadding crypto draws mtu packet := by
  obtain ⟨hlen, hpayload, hflag⟩ := compress_spec hloaded
  obtain ⟨hpadLow, -, -⟩ := wirePadding_bounds crypto draws mtu packet
  have hbody : (wireBody crypto packet).length ≤ sizeofPayload := by omega
  have hcleared : ((compress crypto pbuf).setPadding 0).payload
      (wireBody crypto packet).length = wireBody crypto packet := by
    rw [Pbuf.payload_setPadding _ _ hbody, hpayload]
  intro sent
  simp only [sent, obfuscated]
  by_cases hshrinks : Shrinks crypto packet
  · -- A compressed packet is not padded.
    have hcompressed : ¬ wireFlag crypto packet &&& flagCompress = 0 := by
      simp [wireFlag, hshrinks, flagCompress]
    rw [Pbuf.flag_setPadding, hflag, if_neg hcompressed]
    refine ⟨by simp [hlen], hcleared, by simp [hflag], ?_⟩
    rw [Pbuf.padding_setPadding _ (by omega) (by omega)]
    simp [wirePadding, hshrinks]
  · have hplain : wireFlag crypto packet &&& flagCompress = 0 := by
      simp [wireFlag, hshrinks]
    have hbodyEq : wireBody crypto packet = packet := if_neg hshrinks
    have hpadEq : wirePadding crypto draws mtu packet =
        paddingLength draws mtu packet.length := if_neg hshrinks
    rw [hbodyEq] at hlen hcleared hfits ⊢
    rw [hpadEq] at hfits ⊢
    rw [Pbuf.flag_setPadding, hflag, if_pos hplain]
    obtain ⟨hsentLen, hsentPayload, hsentFlag, hsentPadding⟩ :=
      obfuscate_spec draws (by rw [Pbuf.len_setPadding, hlen]) hcleared hfits
    rw [Pbuf.flag_setPadding, hflag] at hsentFlag
    exact ⟨hsentLen, hsentPayload, hsentFlag, hsentPadding⟩

/-! ## The datagram -/

/-- The size of the datagram of a packet. -/
def datagramSize (crypto : Crypto) (draws : Draws) (mtu : Int) (packet : List UInt8) :
    Nat :=
  payloadOffset + (wireBody crypto packet).length +
    (wirePadding crypto draws mtu packet).toNat

/-- `datagram` holds in its first `size` bytes an encryption of `packet`: the
stream covers exactly the bytes `8, ..., size - 1`, and under it lie the
checksum of the payload, the flag, the length and the payload. -/
structure Sealed (crypto : Crypto) (token : Int) (packet : List UInt8) (size : Nat)
    (datagram : ByteMemory) : Prop where
  size_ge : payloadOffset + (wireBody crypto packet).length ≤ size
  plain : ∃ plain : Pbuf,
    datagram = plain.xorRange 8 size (crypto.stream token plain.nonce) ∧
      plain.chksum = crypto.mac (wireBody crypto packet) ∧
      plain.wireFlag = wireFlag crypto packet ∧
      plain.wireLen = (wireBody crypto packet).length ∧
      plain.body = wireBody crypto packet

theorem wireFlag_lt (crypto : Crypto) (packet : List UInt8) :
    wireFlag crypto packet < 65536 := by
  unfold wireFlag flagCompress
  split <;> omega

/-- The size `encapsulate` returns, when the padding ends inside the payload. -/
theorem encapsulate_size {crypto : Crypto} {packet : List UInt8} {pbuf : Pbuf}
    (token : Int) {mtu : Int} {draws : Draws} (hloaded : Loaded crypto packet pbuf)
    (hfits : (wireBody crypto packet).length + wirePadding crypto draws mtu packet ≤
      sizeofPayload) :
    (encapsulate crypto token pbuf mtu draws).1 =
      datagramSize crypto draws mtu packet := by
  obtain ⟨hlen, -, -, hpadding⟩ := obfuscated_spec hloaded hfits
  obtain ⟨hpadLow, -, -⟩ := wirePadding_bounds crypto draws mtu packet
  simp only [encapsulate, datagramSize, hlen, hpadding]
  omega

/-- The stream covers exactly the datagram behind the nonce. -/
theorem encapsulate_eq_xorRange {crypto : Crypto} {packet : List UInt8} {pbuf : Pbuf}
    (token : Int) {mtu : Int} {draws : Draws} (hloaded : Loaded crypto packet pbuf)
    (hfits : (wireBody crypto packet).length + wirePadding crypto draws mtu packet ≤
      sizeofPayload) :
    let plain := crypto.cryptoPlain draws.nonce (obfuscated crypto pbuf mtu draws)
    (encapsulate crypto token pbuf mtu draws).2 =
      plain.xorRange 8 (datagramSize crypto draws mtu packet)
        (crypto.stream token plain.nonce) := by
  obtain ⟨hlen, -, -, hpadding⟩ := obfuscated_spec hloaded hfits
  obtain ⟨hpadLow, hpadHigh, -⟩ := wirePadding_bounds crypto draws mtu packet
  have hbodyLt := Pbuf.len_lt (obfuscated crypto pbuf mtu draws)
  have hspan : cryptoStart + toUInt64
      (toInt32 (obfuscated crypto pbuf mtu draws).cryptoLen) =
        datagramSize crypto draws mtu packet := by
    unfold Pbuf.cryptoLen datagramSize
    rw [hlen] at hbodyLt
    rw [hlen, hpadding]
    simp only [payloadOffset, chksumOffset, cryptoStart]
    rw [toInt32_of_fits (by omega) (by omega), toUInt64_of_nonneg (by omega) (by omega)]
    omega
  simp only [encapsulate, Crypto.cryptoEncrypt, hspan]
  rfl

/-- **`encapsulate` emits a sealed datagram**, whenever the padding ends inside
the payload. -/
theorem encapsulate_sealed {crypto : Crypto} {packet : List UInt8} {pbuf : Pbuf}
    (token : Int) {mtu : Int} {draws : Draws} (hloaded : Loaded crypto packet pbuf)
    (hfits : (wireBody crypto packet).length + wirePadding crypto draws mtu packet ≤
      sizeofPayload) :
    (encapsulate crypto token pbuf mtu draws).1 =
        datagramSize crypto draws mtu packet ∧
      Sealed crypto token packet (datagramSize crypto draws mtu packet)
        (encapsulate crypto token pbuf mtu draws).2 := by
  obtain ⟨hlen, hpayload, hflag, -⟩ := obfuscated_spec hloaded hfits
  have hbodyLt : (wireBody crypto packet).length < 65536 := by
    rw [← hlen]
    exact Pbuf.len_lt _
  refine ⟨encapsulate_size token hloaded hfits, ?_,
    crypto.cryptoPlain draws.nonce (obfuscated crypto pbuf mtu draws),
    encapsulate_eq_xorRange token hloaded hfits, ?_, ?_, ?_, ?_⟩
  · unfold datagramSize
    omega
  · rw [Crypto.chksum_cryptoPlain, hlen, hpayload]
  · rw [Pbuf.wireFlag, Crypto.flag_cryptoPlain, hflag, ntohs_htons (wireFlag_lt _ _)]
  · rw [Pbuf.wireLen, Crypto.len_cryptoPlain, hlen, ntohs_htons hbodyLt]
  · rw [Pbuf.body, Pbuf.wireLen, Crypto.len_cryptoPlain, hlen, ntohs_htons hbodyLt,
      Crypto.payload_cryptoPlain, hpayload]

/-- The size of a datagram is bounded by the mtu. -/
theorem datagramSize_le (crypto : Crypto) (draws : Draws) {mtu : Int}
    {packet : List UInt8} (hmtu : packet.length ≤ mtu) :
    (datagramSize crypto draws mtu packet : Int) ≤ mtu + payloadOffset := by
  obtain ⟨hpadLow, -, hroom⟩ := wirePadding_bounds crypto draws mtu packet
  have hroom := hroom hmtu
  unfold datagramSize
  omega

end Packet
end Muon
