import Muon.Packet.Sender
import Muon.Reference.Libraries

/-!
# What a datagram depends on

The buffers of `tun_worker` and `heartbeat` live on a coroutine's stack and start
with whatever the memory held.  Of the bytes `encapsulate` hands to `udpsend`, the
callers and `encapsulate` itself write all but four: nobody assigns `ack`.  So two
runs that differ only in the initial contents of the buffer emit the same datagram
exactly when these contents have the same `ack`.
-/

namespace Muon
namespace Packet

open Foundation

/-- Who calls `encapsulate`, and with what. -/
inductive Caller where
  /-- `tun_worker`, through `udp_sender`. -/
  | tunWorker (packet : List UInt8)
  | heartbeat

/-- The packet that is sent. -/
def Caller.packet : Caller → List UInt8
  | .tunWorker packet => packet
  | .heartbeat => []

/-- What the caller does to its buffer before the call. -/
def Caller.load : Caller → Pbuf → Pbuf
  | .tunWorker packet, pbuf => tunWorkerLoad pbuf packet
  | .heartbeat, pbuf => heartbeatLoad pbuf

/-- Two buffers give the same datagram: the same size, and the same bytes. -/
def SameDatagram (crypto : Crypto) (token mtu : Int) (draws : Draws)
    (left right : Pbuf) : Prop :=
  (encapsulate crypto token left mtu draws).1 =
      (encapsulate crypto token right mtu draws).1 ∧
    (encapsulate crypto token left mtu draws).2.read 0
        (toUInt64 (encapsulate crypto token left mtu draws).1) =
      (encapsulate crypto token right mtu draws).2.read 0
        (toUInt64 (encapsulate crypto token right mtu draws).1)

theorem Caller.load_loaded (crypto : Crypto) (caller : Caller) (pbuf : Pbuf)
    (hpacket : caller.packet.length < 65536) :
    Loaded crypto caller.packet (caller.load pbuf) := by
  cases caller with
  | tunWorker packet => exact tunWorkerLoad_loaded crypto pbuf hpacket
  | heartbeat => exact heartbeatLoad_loaded crypto pbuf

/-! ## Bytes nobody writes -/

/-- The callers write nothing in front of `flag`. -/
theorem Caller.load_of_lt (caller : Caller) (pbuf : Pbuf) {address : Nat}
    (hbefore : address < 16) : caller.load pbuf address = pbuf address := by
  cases caller with
  | tunWorker packet =>
      simp only [Caller.load, tunWorkerLoad]
      rw [Pbuf.setFlag_of_ne _ _ (by omega) (by omega),
        Pbuf.setLen_of_ne _ _ (by omega) (by omega), Pbuf.writePayload_of_lt _ _ (by omega)]
  | heartbeat =>
      simp only [Caller.load, heartbeatLoad]
      rw [Pbuf.setFlag_of_ne _ _ (by omega) (by omega),
        Pbuf.setLen_of_ne _ _ (by omega) (by omega)]

theorem compress_of_lt (crypto : Crypto) (pbuf : Pbuf) {address : Nat}
    (hbefore : address < 16) : compress crypto pbuf address = pbuf address := by
  simp only [compress]
  split
  · rw [Pbuf.setFlag_of_ne _ _ (by omega) (by omega),
      Pbuf.setLen_of_ne _ _ (by omega) (by omega), Pbuf.writePayload_of_lt _ _ (by omega)]
  · rfl

theorem obfuscate_of_lt (pbuf : Pbuf) (mtu : Int) (draws : Draws) {address : Nat}
    (hbefore : address < 16) : obfuscate pbuf mtu draws address = pbuf address := by
  simp only [obfuscate]
  split
  · rw [Pbuf.writePayload_of_lt _ _ (by omega), Pbuf.setPadding_of_disjoint _ _ (by omega)]
  · exact Pbuf.setPadding_of_disjoint _ _ (by omega)

/-- Nor does `encapsulate`, up to the encryption. -/
theorem obfuscated_of_lt (crypto : Crypto) (pbuf : Pbuf) (mtu : Int) (draws : Draws)
    {address : Nat} (hbefore : address < 16) :
    obfuscated crypto pbuf mtu draws address = pbuf address := by
  simp only [obfuscated]
  split
  · rw [obfuscate_of_lt _ _ _ hbefore, Pbuf.setPadding_of_disjoint _ _ (by omega),
      compress_of_lt crypto pbuf hbefore]
  · rw [Pbuf.setPadding_of_disjoint _ _ (by omega), compress_of_lt crypto pbuf hbefore]

/-- `crypto_encrypt` finds `ack` as it is and encrypts it. -/
theorem Crypto.cryptoPlain_ack (crypto : Crypto) (nonce : Vector UInt8 8) (pbuf : Pbuf)
    {address : Nat} (hlow : 12 ≤ address) (hhigh : address < 16) :
    crypto.cryptoPlain nonce pbuf address = pbuf address := by
  unfold Crypto.cryptoPlain
  rw [Pbuf.setLen_of_ne _ _ (by omega) (by omega),
    Pbuf.setFlag_of_ne _ _ (by omega) (by omega),
    Crypto.cryptoHmac_of_disjoint _ _ (by omega)]
  exact ByteMemory.write_of_ge pbuf (by simpa using (by omega : 8 ≤ address))

/-! ## Bytes that are written -/

/-- The padding of `obfuscate` is the random bytes that were drawn. -/
theorem obfuscate_padding {pbuf : Pbuf} {mtu : Int} {draws : Draws} {address : Nat}
    (hlow : 20 + pbuf.len ≤ address)
    (hhigh : (address : Int) < 20 + pbuf.len + paddingLength draws mtu pbuf.len) :
    obfuscate pbuf mtu draws address = draws.paddingByte (address - (20 + pbuf.len)) := by
  obtain ⟨hpadLow, hpadHigh, -⟩ := paddingLength_bounds draws mtu pbuf.len
  by_cases hroom : (pbuf.len : Int) < mtu
  · have hdraw : paddingDraw draws (mtu - pbuf.len) = paddingLength draws mtu pbuf.len :=
      (if_pos hroom).symm
    have hpadding := Pbuf.padding_setPadding pbuf
      (show -(2 ^ 31) ≤ paddingLength draws mtu pbuf.len by omega) (by omega)
    have hcount : toUInt64 (paddingLength draws mtu pbuf.len) =
        (paddingLength draws mtu pbuf.len).toNat := toUInt64_of_nonneg hpadLow (by omega)
    simp only [obfuscate, if_pos hroom, hdraw, hpadding, Pbuf.len_setPadding, hcount]
    refine (ByteMemory.write_of_mem _ hlow ?_).trans ?_
    · simp only [List.length_map, List.length_range]
      omega
    · simp
  · -- Without room below the mtu there is no padding.
    have hzero : paddingLength draws mtu pbuf.len = 0 := if_neg hroom
    omega

/-- What `encapsulate` encrypts behind the header depends on the packet and the
draws only. -/
theorem obfuscated_behind {crypto : Crypto} {packet : List UInt8} {left right : Pbuf}
    {mtu : Int} {draws : Draws} (hleft : Loaded crypto packet left)
    (hright : Loaded crypto packet right)
    (hfits : (wireBody crypto packet).length + wirePadding crypto draws mtu packet ≤
      sizeofPayload) {address : Nat} (hlow : 20 ≤ address)
    (hhigh : address < datagramSize crypto draws mtu packet) :
    obfuscated crypto left mtu draws address = obfuscated crypto right mtu draws address := by
  obtain ⟨-, hleftPayload, -, -⟩ := obfuscated_spec hleft hfits
  obtain ⟨-, hrightPayload, -, -⟩ := obfuscated_spec hright hfits
  obtain ⟨hpadLow, -, -⟩ := wirePadding_bounds crypto draws mtu packet
  simp only [datagramSize, payloadOffset] at hhigh
  rcases Nat.lt_or_ge address (20 + (wireBody crypto packet).length) with hbody | hpadding
  · exact ByteMemory.eq_of_read_eq (hleftPayload.trans hrightPayload.symm) hlow hbody
  · -- Behind the payload lies the padding, which a compressed packet has not.
    by_cases hshrinks : Shrinks crypto packet
    · have hnone : wirePadding crypto draws mtu packet = 0 := if_pos hshrinks
      omega
    · have hbodyEq : wireBody crypto packet = packet := if_neg hshrinks
      have hpadEq : wirePadding crypto draws mtu packet =
          paddingLength draws mtu packet.length := if_neg hshrinks
      have hpadded : ∀ pbuf, Loaded crypto packet pbuf →
          obfuscated crypto pbuf mtu draws address =
            draws.paddingByte (address - (20 + packet.length)) := by
        intro pbuf hloaded
        obtain ⟨hlen, -, hflag⟩ := compress_spec hloaded
        have hplain : wireFlag crypto packet &&& flagCompress = 0 := by
          simp [wireFlag, hshrinks]
        have hlenPadded : ((compress crypto pbuf).setPadding 0).len = packet.length := by
          rw [Pbuf.len_setPadding, hlen, hbodyEq]
        rw [hpadEq, hbodyEq] at hhigh
        rw [hbodyEq] at hpadding
        simp only [obfuscated]
        rw [Pbuf.flag_setPadding, hflag, if_pos hplain,
          obfuscate_padding (by rw [hlenPadded]; exact hpadding)
            (by rw [hlenPadded]; omega), hlenPadded]
      rw [hpadded left hleft, hpadded right hright]

/-- Two buffers with the same fields and the same bytes behind the header look the
same to the stream cipher. -/
theorem Crypto.cryptoPlain_agreeBelow (crypto : Crypto) (nonce : Vector UInt8 8)
    {left right : Pbuf} {size : Nat} (hack : left.ack = right.ack)
    (hflag : left.flag = right.flag) (hlen : left.len = right.len)
    (hpayload : left.payload left.len = right.payload right.len)
    (hbehind : ∀ address, 20 ≤ address → address < size → left address = right address) :
    ByteMemory.AgreeBelow size (crypto.cryptoPlain nonce left)
      (crypto.cryptoPlain nonce right) := by
  intro address haddress
  have hnonce : (crypto.cryptoPlain nonce left).nonce =
      (crypto.cryptoPlain nonce right).nonce := by
    rw [crypto.nonce_cryptoPlain, crypto.nonce_cryptoPlain]
  have hchksum : (crypto.cryptoPlain nonce left).chksum =
      (crypto.cryptoPlain nonce right).chksum := by
    rw [crypto.chksum_cryptoPlain, crypto.chksum_cryptoPlain, hpayload]
  have hflags := ByteMemory.readWord16_inj (((crypto.flag_cryptoPlain nonce left).trans
    (by rw [hflag])).trans (crypto.flag_cryptoPlain nonce right).symm)
  have hlens := ByteMemory.readWord16_inj (((crypto.len_cryptoPlain nonce left).trans
    (by rw [hlen])).trans (crypto.len_cryptoPlain nonce right).symm)
  -- Field by field: nonce, chksum, ack, flag, len, and what lies behind.
  rcases Nat.lt_or_ge address 8 with hlt | hge
  · exact ByteMemory.eq_of_read_eq hnonce (Nat.zero_le _) (by simpa [cryptoNonceLen, chksumOffset])
  rcases Nat.lt_or_ge address 12 with hlt | hge
  · exact ByteMemory.eq_of_read_eq hchksum hge (by simpa [chksumOffset])
  rcases Nat.lt_or_ge address 16 with hlt | hge
  · rw [crypto.cryptoPlain_ack nonce left hge hlt, crypto.cryptoPlain_ack nonce right hge hlt]
    exact ByteMemory.eq_of_read_eq hack hge hlt
  rcases Nat.lt_or_ge address 20 with hlt | hge
  · rcases (show address = 16 ∨ address = 17 ∨ address = 18 ∨ address = 19 by omega) with
      rfl | rfl | rfl | rfl
    · exact hflags.1
    · exact hflags.2
    · exact hlens.1
    · exact hlens.2
  · rw [crypto.cryptoPlain_of_ge nonce left hge, crypto.cryptoPlain_of_ge nonce right hge]
    exact hbehind address hge haddress

/-! ## The datagram -/

/-- Two callers' buffers give the same datagram exactly when they hold the same
`ack`. -/
theorem sameDatagram_iff {crypto : Crypto} {packet : List UInt8} {left right : Pbuf}
    (token : Int) {mtu : Int} {draws : Draws} (hleft : Loaded crypto packet left)
    (hright : Loaded crypto packet right)
    (hfits : (wireBody crypto packet).length + wirePadding crypto draws mtu packet ≤
      sizeofPayload) :
    SameDatagram crypto token mtu draws left right ↔ left.ack = right.ack := by
  obtain ⟨hleftLen, hleftPayload, hleftFlag, -⟩ := obfuscated_spec hleft hfits
  obtain ⟨hrightLen, hrightPayload, hrightFlag, -⟩ := obfuscated_spec hright hfits
  have hsize : toUInt64 (datagramSize crypto draws mtu packet) =
      datagramSize crypto draws mtu packet := by
    obtain ⟨hpadLow, -, -⟩ := wirePadding_bounds crypto draws mtu packet
    refine toUInt64_natCast ?_
    simp only [datagramSize, sizeofPayload, payloadOffset] at hfits ⊢
    omega
  have hlow : 20 ≤ datagramSize crypto draws mtu packet := by
    simp only [datagramSize, payloadOffset]
    omega
  have hnonce : ∀ pbuf : Pbuf, (crypto.cryptoPlain draws.nonce pbuf).nonce =
      draws.nonce.toList := crypto.nonce_cryptoPlain draws.nonce
  unfold SameDatagram
  rw [encapsulate_size token hleft hfits, encapsulate_size token hright hfits, hsize,
    encapsulate_eq_xorRange token hleft hfits, encapsulate_eq_xorRange token hright hfits,
    hnonce, hnonce]
  constructor
  · rintro ⟨-, hsame⟩
    refine ByteMemory.read_congr fun address hack hend => ?_
    simp only [ackOffset] at hack hend
    have hbyte := (ByteMemory.xorRange_eq_iff _).mp
      (ByteMemory.eq_of_read_eq hsame (Nat.zero_le address) (by omega))
    rwa [crypto.cryptoPlain_ack _ _ hack hend, crypto.cryptoPlain_ack _ _ hack hend,
      obfuscated_of_lt crypto left mtu draws (by omega),
      obfuscated_of_lt crypto right mtu draws (by omega)] at hbyte
  · intro hack
    refine ⟨rfl, ByteMemory.read_congr fun address _ haddress => ?_⟩
    rw [Nat.zero_add] at haddress
    refine ByteMemory.xorRange_congr _ ?_
    refine crypto.cryptoPlain_agreeBelow draws.nonce ?_ (hleftFlag.trans hrightFlag.symm)
      (hleftLen.trans hrightLen.symm) ?_ ?_ address haddress
    · refine ByteMemory.read_congr fun address hlow hhigh => ?_
      simp only [ackOffset] at hlow hhigh
      rw [obfuscated_of_lt crypto left mtu draws (by omega),
        obfuscated_of_lt crypto right mtu draws (by omega)]
      exact ByteMemory.eq_of_read_eq hack hlow hhigh
    · rw [hleftLen, hrightLen, hleftPayload, hrightPayload]
    · intro address hbehind hend
      exact obfuscated_behind hleft hright hfits hbehind hend

/-- **When a datagram does not depend on stale memory.**  Exactly when the two
initial contents of the buffer have the same `ack` bytes. -/
theorem encapsulate_sameDatagram_iff (crypto : Crypto) (token mtu : Int) (draws : Draws)
    (caller : Caller) (hmtu : mtu ≤ 2048) (hpacket : caller.packet.length ≤ 2048)
    (left right : Pbuf) :
    SameDatagram crypto token mtu draws (caller.load left) (caller.load right) ↔
      left.ack = right.ack := by
  have hloaded : ∀ pbuf, Loaded crypto caller.packet (caller.load pbuf) :=
    fun pbuf => caller.load_loaded crypto pbuf (by omega)
  have hfits := wireBody_add_wirePadding_le crypto draws hpacket hmtu
  have hack : ∀ pbuf : Pbuf, (caller.load pbuf).ack = pbuf.ack := by
    intro pbuf
    refine ByteMemory.read_congr fun address _ hhigh => ?_
    simp only [ackOffset] at hhigh
    exact caller.load_of_lt pbuf (by omega)
  rw [sameDatagram_iff token (hloaded left) (hloaded right) hfits, hack, hack]

/-- A heartbeat from a buffer of zeroes and from one with stale payload bytes. -/
theorem encapsulate_sameDatagram_stalePayload :
    SameDatagram Reference.crypto 0 1400 Reference.zeroDraws
      (Caller.heartbeat.load (Reference.bufferOf []))
      (Caller.heartbeat.load (Reference.bufferOf (List.replicate 16 0 ++ List.replicate 64 7))) :=
  (encapsulate_sameDatagram_iff Reference.crypto 0 1400 Reference.zeroDraws .heartbeat
    (by decide) (by decide) (Reference.bufferOf [])
    (Reference.bufferOf (List.replicate 16 0 ++ List.replicate 64 7))).mpr (by decide)

/-- With stale bytes in the place of `ack` the heartbeat shows them. -/
theorem exists_not_sameDatagram :
    ¬ ∀ (crypto : Crypto) (token mtu : Int) (draws : Draws) (caller : Caller), mtu ≤ 2048 →
        caller.packet.length ≤ 2048 → ∀ left right : Pbuf,
        SameDatagram crypto token mtu draws (caller.load left) (caller.load right) := by
  intro hall
  have hsame := hall Reference.crypto 0 1400 Reference.zeroDraws .heartbeat (by decide)
    (by decide) (Reference.bufferOf []) (Reference.bufferOf (List.replicate 12 0 ++ [1]))
  have hloaded : ∀ pbuf, Loaded Reference.crypto [] (Caller.heartbeat.load pbuf) :=
    fun pbuf => heartbeatLoad_loaded Reference.crypto pbuf
  have hfits := wireBody_add_wirePadding_le Reference.crypto Reference.zeroDraws
    (show ([] : List UInt8).length ≤ sizeofPayload by decide)
    (show (1400 : Int) ≤ sizeofPayload by decide)
  have hack := (sameDatagram_iff 0 (hloaded _) (hloaded _) hfits).mp hsame
  revert hack
  decide

end Packet
end Muon
