import Muon.Packet.Sender
import Muon.Reference.Libraries

/-!
# The packet round trip

The sender's postcondition `Sealed` implies the receiver's verdict: every
received prefix that covers the compressed payload opens to the packet, whatever
the receive buffer holds behind it.  A packet that passes through one buffer
again and again therefore arrives unchanged every time, and `RoundTrips` states
this for any number of trips with their own tokens, mtus and random draws.
-/

namespace Muon
namespace Packet

open Foundation

/-- The receiver's decision about what the sender put on the wire. -/
theorem judge_wire {crypto : Crypto} (hlossless : crypto.libraries.Lossless)
    {packet : List UInt8} (hpacket : packet.length ≤ sizeofPayload) :
    judge crypto (crypto.mac (wireBody crypto packet)) (wireFlag crypto packet)
        (wireBody crypto packet) =
      if packet = [] then .heartbeat else .deliver packet := by
  have hbody := length_wireBody_le crypto packet
  have haccept : ¬ (sizeofPayload < (wireBody crypto packet).length ∨
      crypto.mac (wireBody crypto packet) ≠ crypto.mac (wireBody crypto packet)) := by
    simp only [ne_eq, not_true_eq_false, or_false]
    omega
  have hack : wireFlag crypto packet &&& 0x0002 = 0 := by
    unfold wireFlag
    split <;> rfl
  have hdecode : packet ≠ [] →
      decodeBody crypto (wireFlag crypto packet) (wireBody crypto packet) =
        some packet := by
    intro hnonempty
    unfold decodeBody wireFlag wireBody
    by_cases hshrinks : Shrinks crypto packet
    · have hout := hlossless packet 2048 2048 (List.length_pos_iff.mp hshrinks.1) hpacket
      simp [hshrinks, hout, flagCompress, Option.filter, List.length_pos_iff, hnonempty]
    · simp [hshrinks]
  unfold judge
  rw [if_neg haccept]
  by_cases hempty : packet = []
  · have hnil : (wireBody crypto packet).isEmpty = true := by
      rw [List.isEmpty_iff, wireBody_eq_nil_iff]
      exact hempty
    rw [if_pos hempty, if_pos hnil]
  · have hcons : (wireBody crypto packet).isEmpty = false := by
      rw [List.isEmpty_eq_false_iff, ne_eq, wireBody_eq_nil_iff]
      exact hempty
    rw [if_neg hempty, hdecode hempty]
    simp [hcons, hack]

/-- Under the stream lies what the sender sealed. -/
theorem Sealed.opened_eq {crypto : Crypto} {token : Int} {packet : List UInt8}
    {size m : Nat} {datagram received : Pbuf}
    (hsealed : Sealed crypto token packet size datagram)
    (hlow : payloadOffset + (wireBody crypto packet).length ≤ m) (hhigh : m ≤ size)
    (hsmall : m < 2 ^ 63) (hagree : ByteMemory.AgreeBelow m received datagram) :
    (crypto.opened token received m).chksum = crypto.mac (wireBody crypto packet) ∧
      (crypto.opened token received m).wireFlag = wireFlag crypto packet ∧
      (crypto.opened token received m).body = wireBody crypto packet := by
  obtain ⟨-, plain, hdatagram, hchksum, hflag, hlen, hbody⟩ := hsealed
  simp only [payloadOffset] at hlow
  have hplain : ∀ address, 8 ≤ address → address < m →
      crypto.opened token received m address = plain address :=
    fun address haddress haddress' =>
      crypto.opened_of_stream token hdatagram (by omega) hhigh hsmall
        (hagree.mono (by omega)) haddress haddress' (hagree address haddress')
  have hwireLen : (crypto.opened token received m).wireLen = plain.wireLen :=
    Pbuf.wireLen_congr (hplain 18 (by omega) (by omega)) (hplain 19 (by omega) (by omega))
  refine ⟨?_, ?_, ?_⟩
  · rw [← hchksum]
    exact Pbuf.chksum_congr fun address _ _ => hplain address (by omega) (by omega)
  · rw [← hflag]
    exact Pbuf.wireFlag_congr (hplain 16 (by omega) (by omega))
      (hplain 17 (by omega) (by omega))
  · rw [← hbody, Pbuf.body, Pbuf.body, hwireLen]
    exact Pbuf.payload_congr fun address _ _ => hplain address (by omega) (by omega)

/-- **A sealed datagram opens to its packet.** -/
theorem Sealed.verdict_eq {crypto : Crypto} {token : Int} {packet : List UInt8}
    {size m : Nat} {datagram received : Pbuf}
    (hsealed : Sealed crypto token packet size datagram)
    (hlossless : crypto.libraries.Lossless) (hpacket : packet.length ≤ sizeofPayload)
    (hlow : payloadOffset + (wireBody crypto packet).length ≤ m) (hhigh : m ≤ size)
    (hsmall : m < 2 ^ 63) (hagree : ByteMemory.AgreeBelow m received datagram) :
    verdict crypto token received m =
      if packet = [] then .heartbeat else .deliver packet := by
  obtain ⟨hchksum, hflag, hbody⟩ := hsealed.opened_eq hlow hhigh hsmall hagree
  simp only [verdict, hchksum, hflag, hbody]
  exact judge_wire hlossless hpacket

/-- The receiver's buffer is ready for the next trip of the same packet. -/
theorem Sealed.decapsulate_loaded {crypto : Crypto} {token : Int}
    {packet : List UInt8} {size m : Nat} {datagram received : Pbuf}
    (hsealed : Sealed crypto token packet size datagram)
    (hlossless : crypto.libraries.Lossless) (hpacket : packet.length ≤ sizeofPayload)
    (hlow : payloadOffset + (wireBody crypto packet).length ≤ m) (hhigh : m ≤ size)
    (hsmall : m < 2 ^ 63) (hagree : ByteMemory.AgreeBelow m received datagram) :
    ∃ after, decapsulate crypto token received m = .ok ((packet.length : Int), after) ∧
      Loaded crypto packet after := by
  obtain ⟨-, hflag, -⟩ := hsealed.opened_eq hlow hhigh hsmall hagree
  have hreport := decapsulate_reports crypto token received hsmall
  rw [hsealed.verdict_eq hlossless hpacket hlow hhigh hsmall hagree, hflag] at hreport
  by_cases hempty : packet = []
  · rw [if_pos hempty] at hreport
    obtain ⟨after, hafter, hafterFlag, hafterLen⟩ := hreport
    subst hempty
    exact ⟨after, hafter, hafterLen, rfl, Or.inr hafterFlag⟩
  · rw [if_neg hempty] at hreport
    obtain ⟨after, hafter, hafterFlag, hafterLen, hafterPayload⟩ := hreport
    exact ⟨after, hafter, hafterLen, hafterPayload, Or.inr hafterFlag⟩

/-! ## Any number of trips -/

/-- The parameters of one trip: the token both sides use, the sender's mtu and
its random draws. -/
structure Trip where
  token : Int
  mtu : Int
  draws : Draws

/-- The stream call of `crypto_encrypt` changes exactly the bytes `8, ..., n - 1`
of the buffer it finds, `n` being the size `encapsulate` returns. -/
def EncryptsExactly (crypto : Crypto) (trip : Trip) (pbuf : Pbuf) : Prop :=
  let sent := encapsulate crypto trip.token pbuf trip.mtu trip.draws
  let plain := crypto.cryptoPlain trip.draws.nonce
    (obfuscated crypto pbuf trip.mtu trip.draws)
  sent.2 = plain.xorRange 8 sent.1.toNat (crypto.stream trip.token plain.nonce)

/-- The buffer passes through every trip of the list.  On each one
`encapsulate` stays within the mtu and encrypts all of the datagram behind the
nonce, and every prefix of it that covers the compressed payload, received into
a buffer with any contents behind it, decapsulates to the packet.  The next trip
starts from the buffer the receiver leaves. -/
def RoundTrips (crypto : Crypto) (packet : List UInt8) : Pbuf → List Trip → Prop
  | _, [] => True
  | pbuf, trip :: trips =>
      let sent := encapsulate crypto trip.token pbuf trip.mtu trip.draws
      sent.1 ≤ trip.mtu + payloadOffset ∧
        EncryptsExactly crypto trip pbuf ∧
        ∀ (received : Pbuf) (m : Nat),
          payloadOffset + (compress crypto pbuf).len ≤ m → (m : Int) ≤ sent.1 →
          ByteMemory.AgreeBelow m received sent.2 →
          ∃ after, decapsulate crypto trip.token received m =
              .ok ((packet.length : Int), after) ∧
            after.len = packet.length ∧ after.payload packet.length = packet ∧
            RoundTrips crypto packet after trips

/-- One trip of a loaded buffer, and what it leaves for the next. -/
theorem roundTrips_of_loaded {crypto : Crypto} (hlossless : crypto.libraries.Lossless)
    {packet : List UInt8} {pbuf : Pbuf} (hloaded : Loaded crypto packet pbuf)
    (trips : List Trip)
    (hmtu : ∀ trip ∈ trips, packet.length ≤ trip.mtu ∧ trip.mtu ≤ sizeofPayload) :
    RoundTrips crypto packet pbuf trips := by
  -- The flag clause of `Loaded` is what survives from one trip to the next.
  induction trips generalizing pbuf with
  | nil => trivial
  | cons trip trips ih =>
      obtain ⟨hlow, hhigh⟩ := hmtu trip List.mem_cons_self
      have hpacket : packet.length ≤ sizeofPayload := by omega
      have hfits : (wireBody crypto packet).length +
          wirePadding crypto trip.draws trip.mtu packet ≤ sizeofPayload :=
        wireBody_add_wirePadding_le crypto trip.draws hpacket hhigh
      obtain ⟨hsize, hsealed⟩ := encapsulate_sealed trip.token hloaded hfits
      have hspan : EncryptsExactly crypto trip pbuf := by
        simp only [EncryptsExactly, hsize, Int.toNat_natCast]
        exact encapsulate_eq_xorRange trip.token hloaded hfits
      refine ⟨?_, hspan, ?_⟩
      · rw [hsize]
        exact datagramSize_le crypto trip.draws hlow
      · intro received m hm hn hagree
        rw [(compress_spec hloaded).1] at hm
        rw [hsize] at hn
        have hsmall : datagramSize crypto trip.draws trip.mtu packet < 2 ^ 63 := by
          have := datagramSize_le crypto trip.draws hlow
          simp only [sizeofPayload, payloadOffset] at *
          omega
        obtain ⟨after, hafter, hnext⟩ := hsealed.decapsulate_loaded hlossless hpacket
          hm (by omega) (by omega) hagree
        exact ⟨after, hafter, hnext.len_eq, hnext.payload_eq,
          ih hnext fun trip htrip => hmtu trip (List.mem_cons_of_mem _ htrip)⟩

/-- **The packet round trip.**  A buffer with a clear flag that passes any number
of times through `encapsulate` and `decapsulate`, the flag not being reset in
between, delivers its packet on every trip. -/
theorem encapsulate_decapsulate_roundTrips (crypto : Crypto)
    (hlossless : crypto.libraries.Lossless) (pbuf : Pbuf) (hflag : pbuf.flag = 0)
    (trips : List Trip)
    (hmtu : ∀ trip ∈ trips, pbuf.len ≤ trip.mtu ∧ trip.mtu ≤ sizeofPayload) :
    RoundTrips crypto (pbuf.payload pbuf.len) pbuf trips := by
  have hloaded : Loaded crypto (pbuf.payload pbuf.len) pbuf :=
    ⟨by simp, by simp, Or.inl hflag⟩
  exact roundTrips_of_loaded hlossless hloaded trips (by simpa using hmtu)

/-- Two trips with different tokens and mtus.  A packet that is sent as it is gets 58 bytes of
padding, then as many as the mtu leaves room for. -/
def paddedTrips : List Trip :=
  [⟨7, 1400, Reference.steadyDraws 58⟩, ⟨300, 24, Reference.steadyDraws 129⟩]

/-- Two bytes, padded on both trips, and 24 equal bytes, compressed on both. -/
theorem encapsulate_decapsulate_roundTrips_twice :
    RoundTrips Reference.crypto [0x45, 0x46] (Reference.packetBuffer [0x45, 0x46]) paddedTrips ∧
      RoundTrips Reference.crypto (List.replicate 24 0x45)
        (Reference.packetBuffer (List.replicate 24 0x45)) paddedTrips := by
  have hmtu : ∀ packet : List UInt8, packet.length ≤ 24 →
      (Reference.packetBuffer packet).len = packet.length →
      ∀ trip ∈ paddedTrips,
        (Reference.packetBuffer packet).len ≤ trip.mtu ∧ trip.mtu ≤ sizeofPayload := by
    intro packet hshort hlen trip htrip
    rw [hlen, sizeofPayload]
    simp only [paddedTrips, List.mem_cons, List.not_mem_nil, or_false] at htrip
    rcases htrip with rfl | rfl
    · exact ⟨by dsimp only; omega, by decide⟩
    · exact ⟨by dsimp only; omega, by decide⟩
  have hpair := encapsulate_decapsulate_roundTrips Reference.crypto
    Reference.libraries_lossless (Reference.packetBuffer [0x45, 0x46]) (by decide) paddedTrips
    (hmtu _ (by decide) (by decide))
  have hrun := encapsulate_decapsulate_roundTrips Reference.crypto
    Reference.libraries_lossless (Reference.packetBuffer (List.replicate 24 0x45))
    (by decide +kernel) paddedTrips (hmtu _ (by decide) (by decide +kernel))
  have hpairPayload : (Reference.packetBuffer [0x45, 0x46]).payload
      (Reference.packetBuffer [0x45, 0x46]).len = [0x45, 0x46] := by decide
  have hrunPayload : (Reference.packetBuffer (List.replicate 24 0x45)).payload
      (Reference.packetBuffer (List.replicate 24 0x45)).len = List.replicate 24 0x45 := by
    decide +kernel
  rw [hpairPayload] at hpair
  rw [hrunPayload] at hrun
  exact ⟨hpair, hrun⟩

end Packet
end Muon
