import Muon.Packet.Encapsulate

/-!
# What the receiver decides

`decapsulate` works in place and mixes the decision about a datagram with the
buffer it leaves behind.  `judge` is the decision alone, as a function of the
decrypted checksum, flag and payload, and `verdict` reads these off the
decrypted buffer.  `decapsulate_reports` connects the two: the value returned
and the payload delivered are the verdict's.  The later results about the
receiver are about `verdict` and are carried over by this one theorem.
-/

namespace Muon
namespace Packet

open Foundation

/-- The outcomes of receiving one datagram. -/
inductive Verdict where
  /-- The datagram is invalid: `decapsulate` returns `-1`. -/
  | reject
  /-- An empty payload: `decapsulate` returns `0`. -/
  | heartbeat
  /-- A payload whose flag has the ack bit: `decapsulate` returns `0`. -/
  | ack
  /-- An assertion fails. -/
  | abort
  /-- A packet for the TUN device. -/
  | deliver (packet : List UInt8)
  deriving DecidableEq, Repr

/-- The packet a verified payload stands for, if it decodes at all. -/
def decodeBody (crypto : Crypto) (flag : Nat) (body : List UInt8) :
    Option (List UInt8) :=
  if flag &&& flagCompress ≠ 0 then
    (crypto.libraries.lz4DecompressSafe body 2048).filter fun out => 0 < out.length
  else
    some body

/-- The decision about a decrypted datagram. -/
def judge (crypto : Crypto) (chksum : List UInt8) (flag : Nat) (body : List UInt8) :
    Verdict :=
  if sizeofPayload < body.length ∨ chksum ≠ crypto.mac body then
    .reject
  else if body.isEmpty then
    .heartbeat
  else
    match decodeBody crypto flag body with
    | none => .abort
    | some packet => if flag &&& 0x0002 ≠ 0 then .ack else .deliver packet

/-- The decision about the first `n` bytes of a receive buffer. -/
def verdict (crypto : Crypto) (token : Int) (pbuf : Pbuf) (n : Nat) : Verdict :=
  let image := crypto.opened token pbuf n
  judge crypto image.chksum image.wireFlag image.body

/-- A run of `decapsulate` on a datagram with the given flag ended the way the
verdict says. -/
def Reports (flag : Nat) (result : Except Abort (Int × Pbuf)) : Verdict → Prop
  | .reject => ∃ after, result = .ok (-1, after)
  | .heartbeat => ∃ after, result = .ok (0, after) ∧ after.flag = flag ∧ after.len = 0
  | .ack => ∃ after, result = .ok (0, after)
  | .abort => result = .error .decompressOutlen
  | .deliver packet => ∃ after, result = .ok ((packet.length : Int), after) ∧
      after.flag = flag ∧ after.len = packet.length ∧
      after.payload packet.length = packet

/-! ## The verdict is what the code does -/

/-- A decoded packet fits the payload. -/
theorem length_decodeBody_le {crypto : Crypto} {flag : Nat}
    {body packet : List UInt8} (hbody : body.length ≤ sizeofPayload)
    (hdecode : decodeBody crypto flag body = some packet) :
    packet.length ≤ sizeofPayload := by
  unfold decodeBody at hdecode
  split at hdecode
  · obtain ⟨hout, -⟩ := Option.filter_eq_some_iff.mp hdecode
    exact crypto.libraries.lz4DecompressSafe_le _ _ _ hout
  · cases hdecode
    exact hbody

/-- A payload that is not empty decodes to a packet that is not empty. -/
theorem length_decodeBody_pos {crypto : Crypto} {flag : Nat}
    {body packet : List UInt8} (hbody : body ≠ [])
    (hdecode : decodeBody crypto flag body = some packet) : 0 < packet.length := by
  unfold decodeBody at hdecode
  split at hdecode
  · obtain ⟨-, hpos⟩ := Option.filter_eq_some_iff.mp hdecode
    simpa using hpos
  · cases hdecode
    exact List.length_pos_iff.mpr hbody

/-- `decompress` fails its assertion exactly on the payloads that do not
decode. -/
theorem decompress_eq_error {crypto : Crypto} {pbuf : Pbuf}
    (hdecode : decodeBody crypto pbuf.flag (pbuf.payload pbuf.len) = none) :
    decompress crypto pbuf = .error .decompressOutlen := by
  unfold decodeBody at hdecode
  unfold decompress
  split at hdecode
  · next hflag =>
      rw [if_pos hflag]
      cases hout : crypto.libraries.lz4DecompressSafe (pbuf.payload pbuf.len) 2048 with
      | none => rfl
      | some out =>
          have hempty : out = [] := by simpa [hout, Option.filter] using hdecode
          simp [hempty]
  · cases hdecode

/-- Otherwise it leaves the decoded packet in the buffer and the flag as it
was. -/
theorem decompress_eq_ok {crypto : Crypto} {pbuf : Pbuf} {packet : List UInt8}
    (hlen : pbuf.len ≤ sizeofPayload)
    (hdecode : decodeBody crypto pbuf.flag (pbuf.payload pbuf.len) = some packet) :
    ∃ after, decompress crypto pbuf = .ok after ∧ after.flag = pbuf.flag ∧
      after.len = packet.length ∧ after.payload packet.length = packet := by
  have hfits : packet.length ≤ 2048 :=
    length_decodeBody_le (by simpa using hlen) hdecode
  unfold decodeBody at hdecode
  unfold decompress
  split at hdecode
  · next hflag =>
      obtain ⟨hout, hpos⟩ := Option.filter_eq_some_iff.mp hdecode
      have hpos : 0 < packet.length := by simpa using hpos
      rw [if_pos hflag, hout]
      refine ⟨(pbuf.writePayload 0 packet).setLen packet.length, by simp [hpos], ?_, ?_, ?_⟩
      · simp
      · rw [Pbuf.len_setLen]
        exact Nat.mod_eq_of_lt (by omega)
      · simp
  · next hflag =>
      cases hdecode
      rw [if_neg hflag]
      exact ⟨pbuf, rfl, rfl, by simp, by simp⟩

/-- `crypto_decrypt` rejects a length that does not fit and a checksum that does
not verify. -/
theorem cryptoDecrypt_reject {crypto : Crypto} {token : Int} {pbuf image : Pbuf}
    {n : Nat} (himage : crypto.opened token pbuf n = image)
    (hreject : sizeofPayload < image.body.length ∨
      image.chksum ≠ crypto.mac image.body) :
    (crypto.cryptoDecrypt token pbuf n).1 = -1 := by
  unfold Crypto.cryptoDecrypt
  rw [himage]
  by_cases hlen : sizeofPayload < image.wireLen
  · simp [hlen]
  · have hchksum : ¬ image.chksum = crypto.mac (image.payload image.wireLen) :=
      hreject.resolve_left (by simpa using hlen)
    simp [hlen, hchksum]

/-- Every other datagram passes, with its header in host order and its payload
untouched. -/
theorem cryptoDecrypt_accept {crypto : Crypto} {token : Int} {pbuf image : Pbuf}
    {n : Nat} (himage : crypto.opened token pbuf n = image)
    (haccept : ¬ (sizeofPayload < image.body.length ∨
      image.chksum ≠ crypto.mac image.body)) :
    ∃ after, crypto.cryptoDecrypt token pbuf n = (0, after) ∧
      after.flag = image.wireFlag ∧ after.len = image.wireLen ∧
      after.payload image.wireLen = image.body := by
  obtain ⟨hlen, hchksum⟩ := not_or.mp haccept
  have hlen : ¬ sizeofPayload < image.wireLen := by simpa using hlen
  have hchksum : image.chksum = crypto.mac (image.payload image.wireLen) :=
    not_not.mp hchksum
  refine ⟨crypto.cryptoHmac (Crypto.hostOrder image), ?_, by simp, by simp,
    by simp [Pbuf.body]⟩
  unfold Crypto.cryptoDecrypt
  rw [himage]
  simp [hlen, ← hchksum]

/-- The four ways to a decision, in the order in which `judge` tests for them. -/
theorem judge_cases (crypto : Crypto) (chksum : List UInt8) (flag : Nat)
    (body : List UInt8) :
    (sizeofPayload < body.length ∨ chksum ≠ crypto.mac body) ∧
        judge crypto chksum flag body = .reject ∨
      (body.length ≤ sizeofPayload ∧ chksum = crypto.mac body) ∧
        (body = [] ∧ judge crypto chksum flag body = .heartbeat ∨
          body ≠ [] ∧ decodeBody crypto flag body = none ∧
            judge crypto chksum flag body = .abort ∨
          body ≠ [] ∧ ∃ packet, decodeBody crypto flag body = some packet ∧
            judge crypto chksum flag body =
              if flag &&& 0x0002 ≠ 0 then .ack else .deliver packet) := by
  unfold judge
  by_cases hreject : sizeofPayload < body.length ∨ chksum ≠ crypto.mac body
  · exact Or.inl ⟨hreject, if_pos hreject⟩
  · obtain ⟨hlen, hchksum⟩ := not_or.mp hreject
    refine Or.inr ⟨⟨Nat.le_of_not_lt hlen, not_not.mp hchksum⟩, ?_⟩
    rw [if_neg hreject]
    by_cases hempty : body = []
    · exact Or.inl ⟨hempty, if_pos (List.isEmpty_iff.mpr hempty)⟩
    · rw [if_neg fun hnil => hempty (List.isEmpty_iff.mp hnil)]
      cases hdecode : decodeBody crypto flag body with
      | none => exact Or.inr (Or.inl ⟨hempty, rfl, rfl⟩)
      | some packet => exact Or.inr (Or.inr ⟨hempty, packet, rfl, rfl⟩)

/-- **`decapsulate` carries out the verdict.** -/
theorem decapsulate_reports (crypto : Crypto) (token : Int) (pbuf : Pbuf) {n : Nat}
    (hn : n < 2 ^ 63) :
    Reports (crypto.opened token pbuf n).wireFlag (decapsulate crypto token pbuf n)
      (verdict crypto token pbuf n) := by
  have hsize : toUInt64 (n : Int) = n := toUInt64_natCast (by omega)
  obtain ⟨image, himage⟩ : ∃ image, crypto.opened token pbuf n = image := ⟨_, rfl⟩
  unfold decapsulate verdict
  rw [hsize, himage]
  rcases judge_cases crypto image.chksum image.wireFlag image.body with
    ⟨hreject, hjudge⟩ | ⟨⟨hlen, hchksum⟩, haccepted⟩
  · simp only [hjudge, cryptoDecrypt_reject himage hreject]
    exact ⟨_, rfl⟩
  · obtain ⟨buffer, hbuffer, hflag, hbufferLen, hpayload⟩ :=
      cryptoDecrypt_accept himage (not_or.mpr ⟨Nat.not_lt.mpr hlen, not_not.mpr hchksum⟩)
    -- `decapsulate` tests the buffer, the verdict the bytes: they are the same.
    have hlenEq : buffer.len = image.body.length := by rw [hbufferLen, Pbuf.length_body]
    have hfits : ¬ buffer.len > sizeofPayload := by omega
    have hbody : buffer.payload buffer.len = image.body := by rw [hbufferLen, hpayload]
    simp only [hbuffer, ne_eq, not_true_eq_false, if_false, if_neg hfits]
    rcases haccepted with ⟨hempty, hjudge⟩ | ⟨hcons, hdecode, hjudge⟩ |
      ⟨hcons, packet, hdecode, hjudge⟩
    · have hzero : buffer.len = 0 := by rw [hlenEq, hempty, List.length_nil]
      rw [if_pos hzero, hjudge]
      exact ⟨buffer, rfl, hflag, hzero⟩
    · have hpos : ¬ buffer.len = 0 := by
        rw [hlenEq]
        exact fun hzero => hcons (List.length_eq_zero_iff.mp hzero)
      rw [if_neg hpos, hjudge, decompress_eq_error (by rw [hflag, hbody, hdecode])]
      rfl
    · have hpos : ¬ buffer.len = 0 := by
        rw [hlenEq]
        exact fun hzero => hcons (List.length_eq_zero_iff.mp hzero)
      obtain ⟨after, hafter, hafterFlag, hafterLen, hafterPayload⟩ :=
        decompress_eq_ok (Nat.le_of_not_lt hfits) (by rw [hflag, hbody, hdecode])
      simp only [if_neg hpos, hjudge, hafter, hafterFlag, hflag, hafterLen]
      by_cases hack : image.wireFlag &&& 0x0002 = 0
      · simp only [hack, ne_eq, not_true_eq_false, if_false]
        exact ⟨after, rfl, hafterFlag.trans hflag, hafterLen, hafterPayload⟩
      · simp only [hack, ne_eq, not_false_eq_true, if_true]
        exact ⟨after, rfl⟩

end Packet
end Muon
