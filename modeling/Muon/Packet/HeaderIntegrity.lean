import Muon.Packet.Receiver

/-!
# Tampering with the encrypted header

The cipher is a stream, so anyone on the way can flip chosen bits of `ack`,
`flag` and `len` without the key.  The checksum covers the payload bytes that
`len` announces and nothing else.  A changed length is therefore caught as far
as checksums of different prefixes differ; a changed flag is not, and the two
flag bits that `decompress` and `decapsulate` test act on the verified payload:
a flipped ack bit drops the packet, a flipped compress bit makes another one of it.
-/

namespace Muon
namespace Packet

open Foundation

/-- `tampered` is `datagram` with other `ack`, `flag` and `len` bytes. -/
def HeaderTampered (n : Nat) (datagram tampered : Pbuf) : Prop :=
  ∀ address, address < n → address < ackOffset ∨ payloadOffset ≤ address →
    tampered address = datagram address

/-- The checksum tells prefixes of the payload of different lengths apart. -/
def PrefixChecksumsDiffer (crypto : Crypto) (image : Pbuf) : Prop :=
  ∀ short long, short ≤ sizeofPayload → long ≤ sizeofPayload → short ≠ long →
    crypto.mac (image.payload short) ≠ crypto.mac (image.payload long)

/-- The checksum and the payload are those of the sender. -/
theorem Sealed.opened_tampered {crypto : Crypto} {token : Int} {packet : List UInt8}
    {n : Nat} {datagram tampered : Pbuf}
    (hsealed : Sealed crypto token packet n datagram) (hsmall : n < 2 ^ 63)
    (htampered : HeaderTampered n datagram tampered) :
    (crypto.opened token tampered n).chksum = crypto.mac (wireBody crypto packet) ∧
      (crypto.opened token tampered n).payload (wireBody crypto packet).length =
        wireBody crypto packet := by
  obtain ⟨hsize, plain, hdatagram, hchksum, -, hlen, hbody⟩ := hsealed
  simp only [HeaderTampered, ackOffset, payloadOffset] at hsize htampered
  have hnonce : ByteMemory.AgreeBelow 8 tampered datagram := fun address haddress =>
    htampered address (by omega) (by omega)
  have hplain : ∀ address, 8 ≤ address → address < n → address < 12 ∨ 20 ≤ address →
      crypto.opened token tampered n address = plain address :=
    fun address hlow hhigh houtside =>
      crypto.opened_of_stream token hdatagram (by omega) (Nat.le_refl n) hsmall hnonce
        hlow hhigh (htampered address hhigh houtside)
  constructor
  · rw [← hchksum]
    exact Pbuf.chksum_congr fun address _ _ =>
      hplain address (by omega) (by omega) (by omega)
  · calc (crypto.opened token tampered n).payload (wireBody crypto packet).length
        = plain.payload (wireBody crypto packet).length :=
          Pbuf.payload_congr fun address _ _ =>
            hplain address (by omega) (by omega) (by omega)
      _ = wireBody crypto packet := by rw [← hlen, ← Pbuf.body, hbody]

/-- A changed length is rejected, and under an unchanged one the payload is
judged by the flag that arrives. -/
theorem Sealed.verdict_tampered {crypto : Crypto} {token : Int} {packet : List UInt8}
    {n : Nat} {datagram tampered : Pbuf}
    (hsealed : Sealed crypto token packet n datagram) (hsmall : n < 2 ^ 63)
    (hpacket : packet.length ≤ sizeofPayload)
    (htampered : HeaderTampered n datagram tampered)
    (hlengths : PrefixChecksumsDiffer crypto (crypto.opened token tampered n)) :
    let image := crypto.opened token tampered n
    verdict crypto token tampered n =
      if image.wireLen = (wireBody crypto packet).length then
        judge crypto (crypto.mac (wireBody crypto packet)) image.wireFlag
          (wireBody crypto packet)
      else .reject := by
  intro image
  obtain ⟨hchksum, hpayload⟩ := hsealed.opened_tampered hsmall htampered
  have hbodyLe := length_wireBody_le crypto packet
  split
  · next hsame =>
      have hbody : image.body = wireBody crypto packet := by
        rw [Pbuf.body, hsame, hpayload]
      simp only [verdict]
      rw [hchksum, show (crypto.opened token tampered n).body = _ from hbody]
  · next hdiffer =>
      simp only [verdict]
      rw [judge_eq_reject_iff, hchksum, Pbuf.length_body]
      by_cases hlarge : sizeofPayload < image.wireLen
      · exact Or.inl hlarge
      · refine Or.inr fun heq => ?_
        rw [← hpayload] at heq
        exact hlengths _ _ (by omega) (by omega) (Ne.symm hdiffer) heq

/-- A verified payload that decodes under the flag is an ack or a packet. -/
theorem judge_of_decodeBody {crypto : Crypto} {flag : Nat} {body packet : List UInt8}
    (hsize : body.length ≤ sizeofPayload) (hcons : body ≠ [])
    (hdecode : decodeBody crypto flag body = some packet) :
    judge crypto (crypto.mac body) flag body =
      if flag &&& 0x0002 ≠ 0 then .ack else .deliver packet := by
  rcases judge_cases crypto (crypto.mac body) flag body with
    ⟨hlarge | hne, -⟩ | ⟨-, ⟨hnil, -⟩ | ⟨-, hnone, -⟩ | ⟨-, decoded, hsome, hjudge⟩⟩
  · exact absurd hsize (Nat.not_le.mpr hlarge)
  · exact absurd rfl hne
  · exact absurd hnil hcons
  · rw [hnone] at hdecode
    cases hdecode
  · rw [hsome] at hdecode
    cases hdecode
    exact hjudge

/-- Only the compress bit and the ack bit of the flag are ever looked at. -/
theorem judge_congr_flag (crypto : Crypto) (chksum body : List UInt8) {flag flag' : Nat}
    (hbits : flag &&& 3 = flag' &&& 3) :
    judge crypto chksum flag body = judge crypto chksum flag' body := by
  have hcompress : flag &&& flagCompress = flag' &&& flagCompress := calc
    flag &&& 1 = flag &&& 3 &&& 1 := (Nat.and_assoc flag 3 1).symm
    _ = flag' &&& 3 &&& 1 := by rw [hbits]
    _ = flag' &&& 1 := Nat.and_assoc flag' 3 1
  have hack : flag &&& 0x0002 = flag' &&& 0x0002 := calc
    flag &&& 2 = flag &&& 3 &&& 2 := (Nat.and_assoc flag 3 2).symm
    _ = flag' &&& 3 &&& 2 := by rw [hbits]
    _ = flag' &&& 2 := Nat.and_assoc flag' 3 2
  simp only [judge, decodeBody, hcompress, hack]

/-- The flag of an empty payload is not looked at. -/
theorem judge_nil (crypto : Crypto) (chksum : List UInt8) (flag flag' : Nat) :
    judge crypto chksum flag [] = judge crypto chksum flag' [] := by
  simp [judge]

/-- Nothing is delivered from a payload with the ack bit. -/
theorem delivery_judge_ack {crypto : Crypto} {chksum body : List UInt8} {flag : Nat}
    (hack : flag &&& 0x0002 ≠ 0) {value : Int} {packet : List UInt8}
    (hresult : (judge crypto chksum flag body).delivery = .ok (value, packet)) :
    (value = -1 ∨ value = 0) ∧ packet = [] := by
  rcases judge_cases crypto chksum flag body with
    ⟨-, hjudge⟩ | ⟨-, ⟨-, hjudge⟩ | ⟨-, -, hjudge⟩ | ⟨-, decoded, -, hjudge⟩⟩
  all_goals rw [hjudge] at hresult
  · cases hresult
    exact ⟨Or.inl rfl, rfl⟩
  · cases hresult
    exact ⟨Or.inr rfl, rfl⟩
  · cases hresult
  · rw [if_pos hack] at hresult
    cases hresult
    exact ⟨Or.inr rfl, rfl⟩

/-- **What a change of the encrypted header can do.**  Take the datagram of any
payload and change its `ack`, `flag` and `len` bytes.  A changed length is
rejected.  Under the same length the payload is taken for what it decodes to under
the flag that arrives: if the ack bit is set it is dropped, else that packet is
delivered.  So with the two bits unchanged, or with an empty payload, the datagram
is rejected or has the outcome of the original; with the ack bit set nothing is
delivered; and with the compress bit changed another packet can be. -/
theorem decapsulate_headerTampered (crypto : Crypto) (token : Int) (pbuf : Pbuf)
    (hflag : pbuf.flag = 0) (hlen : pbuf.len ≤ sizeofPayload) (mtu : Int)
    (hmtu : mtu ≤ sizeofPayload) (draws : Draws) (received tampered : Pbuf) :
    let sent := encapsulate crypto token pbuf mtu draws
    let n := sent.1.toNat
    let original := crypto.opened token received n
    let image := crypto.opened token tampered n
    let outcome := delivery (decapsulate crypto token tampered sent.1)
    ByteMemory.AgreeBelow n received sent.2 → HeaderTampered n sent.2 tampered →
    PrefixChecksumsDiffer crypto image →
      (image.wireLen ≠ original.wireLen → outcome = .ok (-1, [])) ∧
      (image.wireLen = original.wireLen →
        (original.body = [] → outcome = .ok (0, [])) ∧
        ∀ packet, original.body ≠ [] →
          decodeBody crypto image.wireFlag original.body = some packet →
          outcome = .ok (if image.wireFlag &&& 0x0002 ≠ 0 then (0, [])
            else ((packet.length : Int), packet))) ∧
      (image.wireFlag &&& 3 = original.wireFlag &&& 3 ∨ pbuf.len = 0 →
        outcome = .ok (-1, []) ∨
          outcome = delivery (decapsulate crypto token received sent.1)) ∧
      (image.wireFlag &&& 0x0002 ≠ 0 → ∀ value packet, outcome = .ok (value, packet) →
        (value = -1 ∨ value = 0) ∧ packet = []) := by
  intro sent n original image outcome hreceived htampered hlengths
  have hloaded : Loaded crypto (pbuf.payload pbuf.len) pbuf :=
    ⟨by simp, by simp, Or.inl hflag⟩
  have hpacket : (pbuf.payload pbuf.len).length ≤ sizeofPayload := by simpa using hlen
  have hfits := wireBody_add_wirePadding_le crypto draws hpacket hmtu
  obtain ⟨hsize, hsealed⟩ := encapsulate_sealed token hloaded hfits
  have hn : n = datagramSize crypto draws mtu (pbuf.payload pbuf.len) := by
    simp only [n, sent, hsize, Int.toNat_natCast]
  have hsent : sent.1 = (n : Int) := by simp only [sent, hsize, hn]
  have hsmall : n < 2 ^ 63 := by
    have hpadLow := (wirePadding_bounds crypto draws mtu (pbuf.payload pbuf.len)).1
    simp only [hn, datagramSize, payloadOffset, sizeofPayload] at hfits ⊢
    omega
  rw [← hn] at hsealed
  obtain ⟨hchksum, hflagEq, hbody⟩ := hsealed.opened_eq hsealed.size_ge
    (Nat.le_refl n) hsmall hreceived
  have hwireLen : original.wireLen = (wireBody crypto (pbuf.payload pbuf.len)).length := by
    rw [← Pbuf.length_body, hbody]
  have hverdict := hsealed.verdict_tampered hsmall hpacket htampered hlengths
  have houtcome : outcome = (verdict crypto token tampered n).delivery := by
    simp only [outcome, hsent, delivery_decapsulate crypto token tampered hsmall]
  have horiginal : delivery (decapsulate crypto token received sent.1) =
      (judge crypto (crypto.mac (wireBody crypto (pbuf.payload pbuf.len)))
        original.wireFlag (wireBody crypto (pbuf.payload pbuf.len))).delivery := by
    rw [hsent, delivery_decapsulate crypto token received hsmall]
    simp only [verdict, hchksum, hbody, original]
  rw [houtcome, hverdict, hwireLen, horiginal,
    show original.body = wireBody crypto (pbuf.payload pbuf.len) from hbody]
  refine ⟨?_, fun hsame => ⟨?_, ?_⟩, ?_, ?_⟩
  · intro hdiffer
    rw [if_neg hdiffer]
    rfl
  · intro hempty
    rw [if_pos hsame, hempty]
    simp [judge, Verdict.delivery]
  · intro packet hcons hdecode
    rw [if_pos hsame,
      judge_of_decodeBody (Nat.le_trans (length_wireBody_le _ _) hpacket) hcons hdecode]
    split
    · rfl
    · rfl
  · intro hbits
    split
    · right
      rcases hbits with hbits | hempty
      · rw [judge_congr_flag crypto _ _ hbits]
      · have hnil : wireBody crypto (pbuf.payload pbuf.len) = [] := by
          rw [wireBody_eq_nil_iff, ← List.length_eq_zero_iff, Pbuf.length_payload, hempty]
        rw [hnil, judge_nil]
    · exact Or.inl rfl
  · intro hack value packet hresult
    split at hresult
    · exact delivery_judge_ack hack hresult
    · cases hresult
      exact ⟨Or.inl rfl, rfl⟩

/-! ## A packet that is an LZ4 block -/

/-- Checksums of prefixes of different lengths differ when those of other
lengths than two are the lengths. -/
theorem prefixChecksumsDiffer_taggedCrypto {image : Pbuf}
    (hpayload : image.payload 2 = [0x10, 0x45]) :
    PrefixChecksumsDiffer Reference.taggedCrypto image := by
  have htwo : Reference.taggedCrypto.mac (image.payload 2) = [129, 200, 98, 90] := by
    rw [hpayload]
    decide +kernel
  have htag : ∀ length, length ≠ 2 → Reference.taggedCrypto.mac (image.payload length) =
      [UInt8.ofNat length, UInt8.ofNat (length / 256), 0, 0] := by
    intro length hlength
    rw [Reference.mac_taggedCrypto (by simpa using hlength), Pbuf.length_payload]
  intro short long hshort hlong hdiffer heq
  by_cases hshortTwo : short = 2
  · subst hshortTwo
    rw [htwo, htag long (Ne.symm hdiffer)] at heq
    simp at heq
  · by_cases hlongTwo : long = 2
    · subst hlongTwo
      rw [htwo, htag short hdiffer] at heq
      simp at heq
    · rw [htag short hshortTwo, htag long hlongTwo] at heq
      simp only [List.cons.injEq, and_true] at heq
      have hlow := congrArg UInt8.toNat heq.1
      have hhigh := congrArg UInt8.toNat heq.2
      simp only [UInt8.toNat_ofNat', sizeofPayload] at hlow hhigh hshort hlong
      omega

/-- The receive buffer holds the datagram the sender made. -/
theorem blockBuffer_agreeBelow :
    ByteMemory.AgreeBelow 22 Reference.blockBuffer
      (encapsulate Reference.taggedCrypto 0 (Reference.packetBuffer [0x10, 0x45]) 1400
        Reference.zeroDraws).2 := by
  have hread : Reference.blockBuffer.read 0 22 = Reference.blockDatagram := by decide
  intro address haddress
  exact ByteMemory.eq_of_read_eq
    (hread.trans Reference.encapsulate_taggedCrypto.2.symm) (Nat.zero_le _) (by omega)

/-- The datagram with some bits of one byte flipped. -/
def flippedBlock (address : Nat) (mask : UInt8) : Pbuf :=
  Reference.bufferOf (Reference.flip Reference.blockDatagram address mask)

/-- Flipping bits of one header byte behind the checksum is such a change. -/
theorem headerTampered_flippedBlock {address : Nat} (mask : UInt8) (hlow : ackOffset ≤ address)
    (hhigh : address < payloadOffset) :
    HeaderTampered 22
      (encapsulate Reference.taggedCrypto 0 (Reference.packetBuffer [0x10, 0x45]) 1400
        Reference.zeroDraws).2
      (flippedBlock address mask) := by
  intro other hother houtside
  have hne : address ≠ other := by omega
  rw [← blockBuffer_agreeBelow other hother]
  simp [flippedBlock, Reference.bufferOf, Reference.flip, Reference.blockBuffer, hne]

/-- One bit of the length flipped on the wire: rejected.  The compress bit flipped: the
payload decodes to its one literal. -/
theorem decapsulate_headerTampered_block :
    delivery (decapsulate Reference.taggedCrypto 0 (flippedBlock 19 1) 22) = .ok (-1, []) ∧
      delivery (decapsulate Reference.taggedCrypto 0 (flippedBlock 17 1) 22) =
        .ok (1, [0x45]) := by
  obtain ⟨hsize, -⟩ := Reference.encapsulate_taggedCrypto
  have hoptions := fun address mask => decapsulate_headerTampered Reference.taggedCrypto 0
    (Reference.packetBuffer [0x10, 0x45]) (by decide) (by decide) 1400 (by decide)
    Reference.zeroDraws Reference.blockBuffer (flippedBlock address mask)
  simp only [hsize, show (22 : Int).toNat = 22 from rfl] at hoptions
  constructor
  · exact (hoptions 19 1 blockBuffer_agreeBelow
      (headerTampered_flippedBlock 1 (by decide) (by decide))
      (prefixChecksumsDiffer_taggedCrypto (by decide +kernel))).1 (by decide +kernel)
  · obtain ⟨-, hsame, -⟩ := hoptions 17 1 blockBuffer_agreeBelow
      (headerTampered_flippedBlock 1 (by decide) (by decide))
      (prefixChecksumsDiffer_taggedCrypto (by decide +kernel))
    have hdelivers := (hsame (by decide +kernel)).2 [0x45] (by decide +kernel) (by decide +kernel)
    rwa [if_neg (by decide +kernel)] at hdelivers

/-- The ack bit flipped on the wire: the packet is neither rejected nor delivered.  The
compress bit flipped: another packet is delivered. -/
theorem exists_decapsulate_headerTampered :
    ∃ (crypto : Crypto) (token : Int) (pbuf : Pbuf) (mtu : Int) (draws : Draws)
        (received acked altered : Pbuf),
      let sent := encapsulate crypto token pbuf mtu draws
      let outcome := fun buffer => delivery (decapsulate crypto token buffer sent.1)
      pbuf.flag = 0 ∧ pbuf.len ≤ sizeofPayload ∧ mtu ≤ sizeofPayload ∧
      ByteMemory.AgreeBelow sent.1.toNat received sent.2 ∧
      (∀ tampered ∈ [acked, altered], HeaderTampered sent.1.toNat sent.2 tampered ∧
        PrefixChecksumsDiffer crypto (crypto.opened token tampered sent.1.toNat)) ∧
      outcome received = .ok (2, [0x10, 0x45]) ∧
      outcome acked = .ok (0, []) ∧
      outcome altered = .ok (1, [0x45]) := by
  obtain ⟨hsize, -⟩ := Reference.encapsulate_taggedCrypto
  refine ⟨Reference.taggedCrypto, 0, Reference.packetBuffer [0x10, 0x45], 1400,
    Reference.zeroDraws, Reference.blockBuffer, flippedBlock 17 2, flippedBlock 17 1, ?_⟩
  simp only [hsize, show (22 : Int).toNat = 22 from rfl]
  refine ⟨by decide, by decide, by decide, blockBuffer_agreeBelow, ?_, by decide +kernel,
    by decide +kernel, by decide +kernel⟩
  intro tampered hmem
  simp only [List.mem_cons, List.not_mem_nil, or_false] at hmem
  rcases hmem with rfl | rfl
  · exact ⟨headerTampered_flippedBlock 2 (by decide) (by decide),
      prefixChecksumsDiffer_taggedCrypto (by decide +kernel)⟩
  · exact ⟨headerTampered_flippedBlock 1 (by decide) (by decide),
      prefixChecksumsDiffer_taggedCrypto (by decide +kernel)⟩

end Packet
end Muon
