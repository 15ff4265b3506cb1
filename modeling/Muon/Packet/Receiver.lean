import Muon.Conf
import Muon.Packet.RoundTrip

/-!
# What any datagram can do to the receiver

The receive buffer of `udp_worker` is filled by anyone who can send to the port,
and it still holds what earlier datagrams left behind.  Two questions about
`decapsulate` on such a buffer are settled here for every datagram.

* When does it return at all?  The checksum covers neither the flag nor the
  decompressed form, so a verified payload with the compress bit reaches LZ4,
  and the assertion in `decompress` fails when LZ4 has no output for it.
* When does its result depend on the datagram alone?  The announced length is
  compared with the size of the payload but not with the number of bytes
  received, so the checksum may run over left-over bytes.
-/

namespace Muon
namespace Packet

open Foundation Conf

/-! ## Observations -/

/-- What `udp_worker` does with a result: the value, and the payload it writes
to the TUN device when the value is positive. -/
def delivery (result : Except Abort (Int × Pbuf)) : Except Abort (Int × List UInt8) :=
  result.map fun (value, after) =>
    (value, if 0 < value then after.payload after.len else [])

/-- The observation of a verdict. -/
def Verdict.delivery : Verdict → Except Abort (Int × List UInt8)
  | .reject => .ok (-1, [])
  | .heartbeat => .ok (0, [])
  | .ack => .ok (0, [])
  | .abort => .error .decompressOutlen
  | .deliver packet => .ok (packet.length, packet)

theorem Reports.delivery_eq {flag : Nat} {result : Except Abort (Int × Pbuf)}
    {decision : Verdict} (hreports : Reports flag result decision) :
    delivery result = decision.delivery := by
  cases decision with
  | reject =>
      obtain ⟨after, rfl⟩ := hreports
      rfl
  | heartbeat =>
      obtain ⟨after, rfl, -, -⟩ := hreports
      rfl
  | ack =>
      obtain ⟨after, rfl⟩ := hreports
      rfl
  | abort =>
      cases hreports
      rfl
  | deliver packet =>
      obtain ⟨after, rfl, -, hlen, hpayload⟩ := hreports
      by_cases hempty : packet = []
      · subst hempty
        rfl
      · have hpos : 0 < packet.length := List.length_pos_iff.mpr hempty
        simp [delivery, Verdict.delivery, Except.map, hpos, hlen, hpayload]

/-- The observation of `decapsulate` is that of its verdict. -/
theorem delivery_decapsulate (crypto : Crypto) (token : Int) (pbuf : Pbuf) {n : Nat}
    (hn : n < 2 ^ 63) :
    delivery (decapsulate crypto token pbuf n) =
      (verdict crypto token pbuf n).delivery :=
  (decapsulate_reports crypto token pbuf hn).delivery_eq

/-- A decision other than rejection verified the length and the checksum. -/
theorem judge_eq_reject_iff {crypto : Crypto} {chksum : List UInt8} {flag : Nat}
    {body : List UInt8} :
    judge crypto chksum flag body = .reject ↔
      sizeofPayload < body.length ∨ chksum ≠ crypto.mac body := by
  rcases judge_cases crypto chksum flag body with
    ⟨hreject, hjudge⟩ | ⟨⟨hlen, hchksum⟩, haccepted⟩
  · exact iff_of_true hjudge hreject
  · have hverified : ¬ (sizeofPayload < body.length ∨ chksum ≠ crypto.mac body) :=
      not_or.mpr ⟨Nat.not_lt.mpr hlen, not_not.mpr hchksum⟩
    refine iff_of_false ?_ hverified
    rcases haccepted with ⟨-, hjudge⟩ | ⟨-, -, hjudge⟩ | ⟨-, packet, -, hjudge⟩ <;> rw [hjudge]
    · exact Verdict.noConfusion
    · exact Verdict.noConfusion
    · split <;> exact Verdict.noConfusion

/-- Only rejection is observed as `-1`. -/
theorem Verdict.delivery_eq_reject_iff (decision : Verdict) :
    decision.delivery = Verdict.reject.delivery ↔ decision = .reject := by
  cases decision <;> simp [Verdict.delivery]

/-! ## Whether the receiver returns -/

/-- `decapsulate` returns `-1`, `0`, or the length of the packet it leaves in
the payload. -/
def Finishes (result : Except Abort (Int × Pbuf)) : Prop :=
  ∃ value after, result = .ok (value, after) ∧
    (value = -1 ∨ value = 0 ∨
      (1 ≤ value ∧ value ≤ sizeofPayload ∧ (after.len : Int) = value))

/-- The decrypted datagram has a verified payload with the compress bit, which
is what `decompress` passes to LZ4. -/
def ReachesLz4 (crypto : Crypto) (image : Pbuf) : Prop :=
  1 ≤ image.wireLen ∧ image.wireLen ≤ sizeofPayload ∧
    image.chksum = crypto.mac image.body ∧ image.wireFlag &&& flagCompress ≠ 0

instance (crypto : Crypto) (image : Pbuf) : Decidable (ReachesLz4 crypto image) :=
  inferInstanceAs (Decidable (_ ∧ _))

/-- LZ4 decodes the payload to at least one byte. -/
def Decompresses (crypto : Crypto) (body : List UInt8) : Prop :=
  ∃ out, crypto.libraries.lz4DecompressSafe body 2048 = some out ∧ 0 < out.length

instance (crypto : Crypto) (body : List UInt8) : Decidable (Decompresses crypto body) :=
  decidable_of_iff
    (((crypto.libraries.lz4DecompressSafe body 2048).any fun out => 0 < out.length) = true)
    (by simp only [Option.any_eq_true, decide_eq_true_eq, Decompresses])

theorem decodeBody_eq_none_iff {crypto : Crypto} {flag : Nat} {body : List UInt8} :
    decodeBody crypto flag body = none ↔
      flag &&& flagCompress ≠ 0 ∧ ¬ Decompresses crypto body := by
  unfold decodeBody Decompresses
  split
  · next hflag =>
      cases hout : crypto.libraries.lz4DecompressSafe body 2048 with
      | none => simp [hflag]
      | some out => simp [hflag, Option.filter, List.length_pos_iff]
  · next hflag => simp [not_not.mp hflag]

/-- The assertion fails exactly when LZ4 is reached in vain. -/
theorem verdict_eq_abort_iff (crypto : Crypto) (token : Int) (pbuf : Pbuf) (n : Nat) :
    verdict crypto token pbuf n = .abort ↔
      ReachesLz4 crypto (crypto.opened token pbuf n) ∧
        ¬ Decompresses crypto (crypto.opened token pbuf n).body := by
  simp only [verdict]
  generalize crypto.opened token pbuf n = image
  unfold ReachesLz4
  have hlen := Pbuf.length_body image
  rcases judge_cases crypto image.chksum image.wireFlag image.body with
    ⟨hreject, hjudge⟩ | ⟨⟨hfits, hchksum⟩, ⟨hempty, hjudge⟩ | ⟨hcons, hdecode, hjudge⟩ |
      ⟨hcons, packet, hdecode, hjudge⟩⟩
  · rw [hjudge]
    refine iff_of_false Verdict.noConfusion ?_
    rintro ⟨⟨-, hfits, hchksum, -⟩, -⟩
    exact hreject.elim (fun hlarge => by omega) fun hne => hne hchksum
  · rw [hjudge]
    refine iff_of_false Verdict.noConfusion ?_
    rintro ⟨⟨hpos, -⟩, -⟩
    rw [hempty, List.length_nil] at hlen
    omega
  · obtain ⟨hflag, hfails⟩ := decodeBody_eq_none_iff.mp hdecode
    have hpos := List.length_pos_iff.mpr hcons
    exact iff_of_true hjudge ⟨⟨by omega, by omega, hchksum, hflag⟩, hfails⟩
  · rw [hjudge]
    refine iff_of_false (by split <;> exact Verdict.noConfusion) ?_
    rintro ⟨⟨-, -, -, hflag⟩, hfails⟩
    have hnone := decodeBody_eq_none_iff.mpr ⟨hflag, hfails⟩
    rw [hdecode] at hnone
    cases hnone

/-- A delivered packet is not empty and fits the payload. -/
theorem length_of_verdict_eq_deliver {crypto : Crypto} {token : Int} {pbuf : Pbuf}
    {n : Nat} {packet : List UInt8}
    (hdeliver : verdict crypto token pbuf n = .deliver packet) :
    1 ≤ packet.length ∧ packet.length ≤ sizeofPayload := by
  simp only [verdict] at hdeliver
  generalize crypto.opened token pbuf n = image at hdeliver
  rcases judge_cases crypto image.chksum image.wireFlag image.body with
    ⟨-, hjudge⟩ | ⟨⟨hfits, -⟩, ⟨-, hjudge⟩ | ⟨-, -, hjudge⟩ | ⟨hcons, decoded, hdecode, hjudge⟩⟩
  all_goals rw [hjudge] at hdeliver
  · cases hdeliver
  · cases hdeliver
  · cases hdeliver
  · split at hdeliver
    · cases hdeliver
    · cases hdeliver
      exact ⟨length_decodeBody_pos hcons hdecode, length_decodeBody_le hfits hdecode⟩

/-- `decapsulate` returns exactly when the verdict is not an abort. -/
theorem finishes_iff_verdict (crypto : Crypto) (token : Int) (pbuf : Pbuf) {n : Nat}
    (hn : n < 2 ^ 63) :
    Finishes (decapsulate crypto token pbuf n) ↔
      verdict crypto token pbuf n ≠ .abort := by
  have hreports := decapsulate_reports crypto token pbuf hn
  unfold Finishes
  generalize hverdict : verdict crypto token pbuf n = decision at hreports
  cases decision with
  | reject =>
      obtain ⟨after, hresult⟩ := hreports
      exact iff_of_true ⟨-1, after, hresult, Or.inl rfl⟩ Verdict.noConfusion
  | heartbeat =>
      obtain ⟨after, hresult, -, -⟩ := hreports
      exact iff_of_true ⟨0, after, hresult, Or.inr (Or.inl rfl)⟩ Verdict.noConfusion
  | ack =>
      obtain ⟨after, hresult⟩ := hreports
      exact iff_of_true ⟨0, after, hresult, Or.inr (Or.inl rfl)⟩ Verdict.noConfusion
  | abort =>
      refine iff_of_false ?_ fun hne => hne rfl
      rintro ⟨value, after, hresult, -⟩
      rw [hreports] at hresult
      cases hresult
  | deliver packet =>
      obtain ⟨after, hresult, -, hlen, -⟩ := hreports
      obtain ⟨hpos, hfits⟩ := length_of_verdict_eq_deliver hverdict
      exact iff_of_true
        ⟨packet.length, after, hresult,
          Or.inr (Or.inr ⟨by omega, by omega, by rw [hlen]⟩)⟩
        Verdict.noConfusion

/-- **When the receiver survives a datagram.**  `decapsulate` returns exactly
when LZ4 decodes whatever payload reaches it. -/
theorem decapsulate_finishes_iff (crypto : Crypto) (token mtu : Int)
    (hmtu : MtuAccepted mtu) (pbuf : Pbuf) (n : Nat) (_hlow : payloadOffset ≤ n)
    (hhigh : (n : Int) ≤ mtu + payloadOffset) :
    Finishes (decapsulate crypto token pbuf n) ↔
      (ReachesLz4 crypto (crypto.opened token pbuf n) →
        Decompresses crypto (crypto.opened token pbuf n).body) := by
  obtain ⟨-, hmax⟩ := (mtuAccepted_iff mtu).mp hmtu
  have hn : n < 2 ^ 63 := by
    simp only [payloadOffset] at hhigh
    omega
  rw [finishes_iff_verdict crypto token pbuf hn, ne_eq, verdict_eq_abort_iff, not_and,
    not_not]

/-- A datagram of the repository's own test: it reaches LZ4 and returns. -/
theorem decapsulate_finishes_testDatagram :
    Finishes (decapsulate Reference.crypto 0
      (Reference.bufferOf Reference.testDatagram) 36) :=
  (decapsulate_finishes_iff Reference.crypto 0 1400
    ((mtuAccepted_iff 1400).mpr (by omega)) (Reference.bufferOf Reference.testDatagram)
    36 (by decide) (by decide)).mpr (by decide +kernel)

/-- Setting the compress bit of an uncompressed packet on the wire ends the
receiver. -/
theorem exists_decapsulate_not_finishes :
    ¬ ∀ (crypto : Crypto) (token mtu : Int), MtuAccepted mtu → ∀ (pbuf : Pbuf) (n : Nat),
        payloadOffset ≤ n → (n : Int) ≤ mtu + payloadOffset →
        Finishes (decapsulate crypto token pbuf n) := by
  intro hall
  obtain ⟨value, after, hresult, -⟩ := hall Reference.crypto 0 1400
    ((mtuAccepted_iff 1400).mpr (by omega))
    (Reference.bufferOf (Reference.flip Reference.twoByteDatagram 17 1)) 22 (by decide) (by decide)
  have habort : Reference.returned (decapsulate Reference.crypto 0
      (Reference.bufferOf (Reference.flip Reference.twoByteDatagram 17 1)) 22) =
        .error .decompressOutlen := by decide +kernel
  rw [show ((22 : Nat) : Int) = 22 from rfl] at hresult
  rw [hresult] at habort
  cases habort

/-! ## Left-over bytes -/

/-- The decrypted payload bytes that the datagram itself contains. -/
def arrived (image : Pbuf) (n : Nat) : List UInt8 := image.payload (n - payloadOffset)

/-- How many bytes of the announced payload were in the buffer before. -/
def leftoverLength (image : Pbuf) (n : Nat) : Nat :=
  image.wireLen - (n - payloadOffset)

/-- Whatever lies behind the datagram, `decapsulate` does the same. -/
def IgnoresLeftover (crypto : Crypto) (token : Int) (datagram : Pbuf) (n : Nat) : Prop :=
  ∀ left right : Pbuf, ByteMemory.AgreeBelow n left datagram →
    ByteMemory.AgreeBelow n right datagram →
    delivery (decapsulate crypto token left n) = delivery (decapsulate crypto token right n)

/-- The checksum of a payload completed by left-over bytes depends on these. -/
def ChecksumVaries (crypto : Crypto) (image : Pbuf) (n : Nat) : Prop :=
  0 < leftoverLength image n →
    ∃ stale stale' : List UInt8, stale.length = leftoverLength image n ∧
      stale'.length = leftoverLength image n ∧
      crypto.mac (arrived image n ++ stale) ≠ crypto.mac (arrived image n ++ stale')

/-- The verdict on a buffer with any bytes behind the datagram. -/
theorem verdict_eq_judge_append (crypto : Crypto) (token : Int)
    {datagram pbuf image : Pbuf} {n : Nat} (hlow : payloadOffset ≤ n) (hhigh : n < 2 ^ 63)
    (himage : crypto.opened token datagram n = image)
    (hagree : ByteMemory.AgreeBelow n pbuf datagram)
    (hlen : n - payloadOffset ≤ image.wireLen) :
    verdict crypto token pbuf n =
      judge crypto image.chksum image.wireFlag
        (arrived image n ++ pbuf.read n (leftoverLength image n)) := by
  subst himage
  simp only [payloadOffset] at hlow hlen
  have hbelow := crypto.opened_agreeBelow token (by omega) hhigh hagree
  have hwireLen := Pbuf.wireLen_congr (hbelow 18 (by omega)) (hbelow 19 (by omega))
  have hflag := Pbuf.wireFlag_congr (hbelow 16 (by omega)) (hbelow 17 (by omega))
  have hchksum := Pbuf.chksum_congr fun address _ _ => hbelow address (by omega)
  have harrived : (crypto.opened token pbuf n).payload (n - payloadOffset) =
      arrived (crypto.opened token datagram n) n :=
    Pbuf.payload_congr fun address _ _ => hbelow address (by
      simp only [payloadOffset] at *
      omega)
  have hstale : (crypto.opened token pbuf n).read (payloadOffset + (n - payloadOffset))
      (leftoverLength (crypto.opened token datagram n) n) =
        pbuf.read n (leftoverLength (crypto.opened token datagram n) n) := by
    rw [show payloadOffset + (n - payloadOffset) = n by simp only [payloadOffset]; omega]
    exact ByteMemory.read_congr fun address haddress _ =>
      crypto.opened_of_ge token pbuf (by omega) hhigh haddress
  have hsplit : (crypto.opened token datagram n).wireLen =
      n - payloadOffset + leftoverLength (crypto.opened token datagram n) n := by
    simp only [leftoverLength, payloadOffset]
    omega
  have hbody : (crypto.opened token pbuf n).body =
      arrived (crypto.opened token datagram n) n ++
        pbuf.read n (leftoverLength (crypto.opened token datagram n) n) := by
    rw [Pbuf.body, hwireLen, hsplit, Pbuf.payload, ByteMemory.read_add, hstale, ← harrived,
      Pbuf.payload]
  simp only [verdict, hchksum, hflag, hbody]

/-- A datagram that contains the whole announced payload is judged alone. -/
theorem verdict_congr_of_covered (crypto : Crypto) (token : Int)
    {left right : Pbuf} {n : Nat} (hlow : payloadOffset ≤ n) (hhigh : n < 2 ^ 63)
    (hagree : ByteMemory.AgreeBelow n left right)
    (hlen : (crypto.opened token right n).wireLen ≤ n - payloadOffset) :
    verdict crypto token left n = verdict crypto token right n := by
  simp only [payloadOffset] at hlow hlen
  have hbelow := crypto.opened_agreeBelow token (by omega) hhigh hagree
  have hwireLen := Pbuf.wireLen_congr (hbelow 18 (by omega)) (hbelow 19 (by omega))
  have hflag := Pbuf.wireFlag_congr (hbelow 16 (by omega)) (hbelow 17 (by omega))
  have hchksum := Pbuf.chksum_congr fun address _ _ => hbelow address (by omega)
  have hbody : (crypto.opened token left n).body = (crypto.opened token right n).body := by
    rw [Pbuf.body, Pbuf.body, hwireLen]
    exact Pbuf.payload_congr fun address _ _ => hbelow address (by omega)
  simp only [verdict, hchksum, hflag, hbody]

/-- A buffer with the datagram in front and `stale` right behind it. -/
def withLeftover (datagram : Pbuf) (n : Nat) (stale : List UInt8) : Pbuf :=
  datagram.write n stale

theorem withLeftover_agreeBelow (datagram : Pbuf) (n : Nat) (stale : List UInt8) :
    ByteMemory.AgreeBelow n (withLeftover datagram n stale) datagram :=
  fun _ haddress => ByteMemory.write_of_lt datagram stale haddress

/-- **When left-over bytes do not matter.**  For every datagram, `decapsulate`
ignores what the buffer held before exactly when the datagram contains the whole
announced payload, or announces more than a payload can hold, or no left-over
bytes complete it to a payload that verifies. -/
theorem decapsulate_ignoresLeftover_iff (crypto : Crypto) (token : Int)
    (datagram : Pbuf) (n : Nat) (hlow : payloadOffset ≤ n) (hhigh : n < 2 ^ 31)
    (hvaries : ChecksumVaries crypto (crypto.opened token datagram n) n) :
    let image := crypto.opened token datagram n
    IgnoresLeftover crypto token datagram n ↔
      image.wireLen ≤ n - payloadOffset ∨ sizeofPayload < image.wireLen ∨
        ∀ stale : List UInt8, stale.length = leftoverLength image n →
          crypto.mac (arrived image n ++ stale) ≠ image.chksum := by
  intro image
  have hsize : n < 2 ^ 63 := by omega
  have hjudge : ∀ {pbuf : Pbuf}, ByteMemory.AgreeBelow n pbuf datagram →
      n - payloadOffset ≤ image.wireLen →
      delivery (decapsulate crypto token pbuf n) =
        (judge crypto image.chksum image.wireFlag
          (arrived image n ++ pbuf.read n (leftoverLength image n))).delivery := by
    intro pbuf hagree hlen
    rw [delivery_decapsulate crypto token pbuf hsize,
      verdict_eq_judge_append crypto token hlow hsize rfl hagree hlen]
  have hlength : ∀ stale : List UInt8, stale.length = leftoverLength image n →
      n - payloadOffset ≤ image.wireLen →
      (arrived image n ++ stale).length = image.wireLen := by
    intro stale hstale hlen
    rw [List.length_append, hstale, arrived, Pbuf.length_payload]
    unfold leftoverLength
    omega
  constructor
  · intro hignores
    by_contra hnone
    simp only [not_or, Nat.not_le, Nat.not_lt, not_forall, not_not] at hnone
    obtain ⟨hlong, hfits, accepted, haccepted, hverifies⟩ := hnone
    -- One of two contents with different checksums does not verify.
    obtain ⟨stale, hstale, hrejected⟩ : ∃ stale : List UInt8,
        stale.length = leftoverLength image n ∧
          image.chksum ≠ crypto.mac (arrived image n ++ stale) := by
      obtain ⟨stale, stale', hstale, hstale', hdiffer⟩ :=
        hvaries (Nat.sub_pos_of_lt hlong)
      by_cases heq : image.chksum = crypto.mac (arrived image n ++ stale)
      · exact ⟨stale', hstale', fun heq' => hdiffer (heq.symm.trans heq')⟩
      · exact ⟨stale, hstale, heq⟩
    have hsame := hignores (withLeftover datagram n accepted)
      (withLeftover datagram n stale) (withLeftover_agreeBelow _ _ _)
      (withLeftover_agreeBelow _ _ _)
    rw [hjudge (withLeftover_agreeBelow _ _ _) (by omega),
      hjudge (withLeftover_agreeBelow _ _ _) (by omega), withLeftover, withLeftover,
      ← haccepted, ByteMemory.read_write_same, haccepted, ← hstale,
      ByteMemory.read_write_same, judge_eq_reject_iff.mpr (Or.inr hrejected),
      Verdict.delivery_eq_reject_iff, judge_eq_reject_iff,
      hlength accepted haccepted (by omega)] at hsame
    exact hsame.elim (fun hlarge => by omega) fun hne => hne hverifies.symm
  · intro hcondition left right hleft hright
    by_cases hcover : image.wireLen ≤ n - payloadOffset
    · rw [delivery_decapsulate crypto token left hsize,
        delivery_decapsulate crypto token right hsize,
        verdict_congr_of_covered crypto token hlow hsize hleft hcover,
        verdict_congr_of_covered crypto token hlow hsize hright hcover]
    · have hreject : ∀ {pbuf : Pbuf}, ByteMemory.AgreeBelow n pbuf datagram →
          delivery (decapsulate crypto token pbuf n) = Verdict.reject.delivery := by
        intro pbuf hagree
        rw [hjudge hagree (by omega), Verdict.delivery_eq_reject_iff, judge_eq_reject_iff,
          hlength _ (ByteMemory.length_read _ _ _) (by omega)]
        rcases hcondition with hshort | hlarge | hnone
        · exact absurd hshort hcover
        · exact Or.inl hlarge
        · exact Or.inr fun hchksum =>
            hnone _ (ByteMemory.length_read _ _ _) hchksum.symm
      rw [hreject hleft, hreject hright]

/-- A two-byte packet of which all but the last byte arrives: the byte left over
in the buffer decides. -/
theorem decapsulate_not_ignoresLeftover_truncated :
    ¬ IgnoresLeftover Reference.crypto 0 Reference.twoByteBuffer 21 := by
  have hvaries : ChecksumVaries Reference.crypto
      (Reference.crypto.opened 0 Reference.twoByteBuffer 21) 21 :=
    fun _ => ⟨[0x46], [0], by decide +kernel⟩
  have hwireLen : (Reference.crypto.opened 0 Reference.twoByteBuffer
      21).wireLen = 2 := by decide +kernel
  intro hignores
  have hcondition := (decapsulate_ignoresLeftover_iff Reference.crypto 0
    Reference.twoByteBuffer 21 (by decide) (by decide) hvaries).mp hignores
  rcases hcondition with hshort | hlarge | hnone
  · rw [hwireLen] at hshort
    exact absurd hshort (by decide)
  · rw [hwireLen] at hlarge
    exact absurd hlarge (by decide)
  · exact hnone [0x46] (by rw [leftoverLength, hwireLen]; rfl) (by decide +kernel)

/-- The datagram of two bytes, cut by one byte, is accepted or rejected by the
left-over byte behind it. -/
theorem exists_decapsulate_leftover :
    ¬ ∀ (crypto : Crypto) (token : Int) (n : Nat), payloadOffset ≤ n →
        ∀ left right : Pbuf, ByteMemory.AgreeBelow n left right →
        delivery (decapsulate crypto token left n) =
          delivery (decapsulate crypto token right n) := by
  intro hall
  have hsame := hall Reference.crypto 0 21 (by decide)
    (withLeftover Reference.twoByteBuffer 21 [0x46])
    (withLeftover Reference.twoByteBuffer 21 [0])
    fun address haddress => by
      rw [withLeftover_agreeBelow _ _ _ address haddress,
        withLeftover_agreeBelow _ _ _ address haddress]
  exact absurd hsame (by decide +kernel)

end Packet
end Muon
