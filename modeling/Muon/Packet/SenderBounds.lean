import Muon.Conf
import Muon.Packet.Sender
import Muon.Reference.Libraries

/-!
# The sender at the top of the mtu range

`tun_worker` reads up to `mtu` bytes into a payload of 2048, and `obfuscate` pads
up to `mtu` behind them.  `read_conf` takes its upper bound from the size of the
record, which counts the `padding` field behind the payload, so the four largest
accepted mtus are larger than the payload.  `StaysInside` is what the sender has
to guarantee for one packet, and the theorem says for which packets and draws it
does.
-/

namespace Muon
namespace Packet

open Foundation Conf

/-- The packets `tun_read` can return for an mtu. -/
def TunReadable (mtu : Int) (packet : List UInt8) : Prop :=
  1 ≤ packet.length ∧ packet.length ≤ mtu

/-- One packet read by `tun_worker` and passed through `encapsulate` stays inside
`payload`: the bytes read, the padding bytes behind what `compress` leaves, the
`padding` field behind them, and the datagram within the mtu. -/
structure StaysInside (crypto : Crypto) (token mtu : Int) (pbuf : Pbuf)
    (packet : List UInt8) (draws : Draws) : Prop where
  read_le : packet.length ≤ sizeofPayload
  padding_le : (compress crypto (tunWorkerLoad pbuf packet)).len +
    wirePadding crypto draws mtu packet ≤ sizeofPayload
  padding_kept : (obfuscated crypto (tunWorkerLoad pbuf packet) mtu draws).padding =
    wirePadding crypto draws mtu packet
  size_eq : (encapsulate crypto token (tunWorkerLoad pbuf packet) mtu draws).1 =
    payloadOffset + (compress crypto (tunWorkerLoad pbuf packet)).len +
      wirePadding crypto draws mtu packet
  size_le : (encapsulate crypto token (tunWorkerLoad pbuf packet) mtu draws).1 ≤
    mtu + payloadOffset

/-- Only the last branch of `obfuscate` can pad to the mtu. -/
theorem paddingDraw_le_iff (draws : Draws) {max room : Int} (hmax : 0 < max)
    (hroom : max - 4 ≤ room) :
    paddingDraw draws max ≤ room ↔
      max ≤ room ∨ 342 < max ∨ draws.uniform 130 ≤ room := by
  have h554 := draws.uniform_lt 554 (by omega)
  have h342 := draws.uniform_lt 342 (by omega)
  have h211 := draws.uniform_lt 211 (by omega)
  unfold paddingDraw
  split
  · exact iff_of_true (by omega) (by omega)
  · split
    · exact iff_of_true (by omega) (by omega)
    · split
      · exact iff_of_true (by omega) (by omega)
      · dsimp only
        split <;> constructor <;> intro <;> omega

/-- When the padding behind a packet that fits ends inside the payload. -/
theorem wirePadding_fits_iff (crypto : Crypto) (draws : Draws) {mtu : Int}
    {packet : List UInt8} (hmtu : mtu ≤ 2052) (hlen : packet.length ≤ mtu)
    (hfits : packet.length ≤ sizeofPayload) :
    (wireBody crypto packet).length + wirePadding crypto draws mtu packet ≤
        sizeofPayload ↔
      Shrinks crypto packet ∨ mtu ≤ sizeofPayload ∨ 342 < mtu - packet.length ∨
        (draws.uniform 130 : Int) ≤ sizeofPayload - packet.length := by
  have hbody := length_wireBody_le crypto packet
  simp only [sizeofPayload] at hfits ⊢
  by_cases hshrinks : Shrinks crypto packet
  · have hzero : wirePadding crypto draws mtu packet = 0 := if_pos hshrinks
    exact iff_of_true (by omega) (Or.inl hshrinks)
  · have hplain : wireBody crypto packet = packet := if_neg hshrinks
    have hpadding : wirePadding crypto draws mtu packet =
        paddingLength draws mtu packet.length := if_neg hshrinks
    rw [hplain, hpadding, paddingLength]
    by_cases hroom : (packet.length : Int) < mtu
    · have hdraw := paddingDraw_le_iff draws
        (show 0 < mtu - packet.length by omega)
        (show mtu - packet.length - 4 ≤ 2048 - (packet.length : Int) by omega)
      rw [if_pos hroom]
      constructor
      · intro hle
        have := hdraw.mp (by omega)
        omega
      · intro hcondition
        have := hdraw.mpr (by
          rcases hcondition with hcompressed | hother
          · exact absurd hcompressed hshrinks
          · omega)
        omega
    · rw [if_neg hroom]
      exact iff_of_true (by omega) (by omega)

/-- **When the sender stays inside its buffer.**  For an accepted mtu and a
packet `tun_worker` can read: exactly when the packet fits the payload, and it is
compressed, or the mtu fits the payload, or the packet is more than 342 bytes
short of the mtu, or the draw for the last branch of `obfuscate` fits. -/
theorem encapsulate_staysInside_iff (crypto : Crypto) (token mtu : Int)
    (hmtu : MtuAccepted mtu) (pbuf : Pbuf) (packet : List UInt8)
    (hread : TunReadable mtu packet) (draws : Draws) :
    StaysInside crypto token mtu pbuf packet draws ↔
      packet.length ≤ sizeofPayload ∧
        (Shrinks crypto packet ∨ mtu ≤ sizeofPayload ∨ 342 < mtu - packet.length ∨
          (draws.uniform 130 : Int) ≤ sizeofPayload - packet.length) := by
  obtain ⟨-, hmax⟩ := (mtuAccepted_iff mtu).mp hmtu
  obtain ⟨-, hlen⟩ := hread
  have hloaded := tunWorkerLoad_loaded crypto pbuf (show packet.length < 65536 by omega)
  have hbody := (compress_spec hloaded).1
  constructor
  · intro hinside
    have hpadding := hinside.padding_le
    rw [hbody] at hpadding
    exact ⟨hinside.read_le,
      (wirePadding_fits_iff crypto draws hmax hlen hinside.read_le).mp hpadding⟩
  · rintro ⟨hfits, hcondition⟩
    have hpadding := (wirePadding_fits_iff crypto draws hmax hlen hfits).mpr hcondition
    have hsize := encapsulate_size token hloaded hpadding
    have hnonneg := (wirePadding_bounds crypto draws mtu packet).1
    refine ⟨hfits, by rw [hbody]; exact hpadding,
      (obfuscated_spec hloaded hpadding).2.2.2, ?_, ?_⟩
    · rw [hsize, hbody, datagramSize]
      omega
    · rw [hsize]
      exact datagramSize_le crypto draws hlen

/-- The big-endian numbers below 995.  No four bytes occur twice in it, so LZ4 does not
shrink it. -/
def countingPacket : List UInt8 :=
  (List.range 995).flatMap fun number => [UInt8.ofNat (number / 256), UInt8.ofNat number]

theorem length_countingPacket : countingPacket.length = 1990 := by
  have hpairs : ∀ numbers : List Nat, (numbers.flatMap fun number =>
      [UInt8.ofNat (number / 256), UInt8.ofNat number]).length = 2 * numbers.length := by
    intro numbers
    induction numbers with
    | nil => rfl
    | cons number numbers ih =>
        rw [List.flatMap_cons, List.length_append, ih, List.length_cons, List.length_cons,
          List.length_cons, List.length_nil]
        omega
  rw [countingPacket, hpairs, List.length_range]

/-- Under the largest accepted mtu, a packet of 1990 bytes with the longest padding that
still fits behind it. -/
theorem encapsulate_staysInside_corner :
    StaysInside Reference.crypto 300 2052 (Reference.bufferOf []) countingPacket
      (Reference.steadyDraws 58) := by
  have hread : TunReadable 2052 countingPacket := by
    rw [TunReadable, length_countingPacket]
    omega
  apply (encapsulate_staysInside_iff Reference.crypto 300 2052
    ((mtuAccepted_iff 2052).mpr (by omega)) (Reference.bufferOf []) countingPacket hread
    (Reference.steadyDraws 58)).mpr
  rw [length_countingPacket, sizeofPayload]
  exact ⟨by omega, Or.inr (Or.inr (Or.inr (by decide)))⟩

/-- A packet of 2052 bytes under the largest accepted mtu overruns the payload
when it is read. -/
theorem exists_not_staysInside :
    ¬ ∀ (crypto : Crypto) (token mtu : Int), MtuAccepted mtu →
        ∀ (pbuf : Pbuf) (packet : List UInt8), TunReadable mtu packet →
        ∀ draws : Draws, StaysInside crypto token mtu pbuf packet draws := by
  intro hall
  have hread : TunReadable 2052 (List.replicate 2052 (0 : UInt8)) := by
    rw [TunReadable, List.length_replicate]
    omega
  have hinside := hall Reference.crypto 0 2052 ((mtuAccepted_iff 2052).mpr (by omega))
    (Reference.bufferOf []) (List.replicate 2052 0) hread Reference.zeroDraws
  have hfits := hinside.read_le
  rw [List.length_replicate, sizeofPayload] at hfits
  omega

end Packet
end Muon
