import Muon.Packet.Pbuf

/-!
# The configured mtu

The `mtu` branch of `read_conf` in `conf.c`: the bounds it checks and the
messages it prints.  `PAYLOAD_MAX` is taken from the size of the whole record,
so the upper bound is four bytes above the size of the payload.
-/

namespace Muon
namespace Conf

open Packet

/-- The `mtu` key of `read_conf`, after `atoi`: the value stored in `conf->mtu`,
or the message on `stderr`. -/
def readMtu (lineNum : Nat) (mtu : Int) : Except String Int :=
  if mtu < 1024 then
    .error s!"line {lineNum}: mtu too small\n"
  else if mtu > payloadMax then
    .error s!"line {lineNum}: mtu too large\n"
  else
    .ok mtu

/-- The mtu is one that `read_conf` accepts. -/
def MtuAccepted (mtu : Int) : Prop := ∃ lineNum, readMtu lineNum mtu = .ok mtu

theorem mtuAccepted_iff (mtu : Int) : MtuAccepted mtu ↔ 1024 ≤ mtu ∧ mtu ≤ 2052 := by
  have hmax : ((payloadMax : Nat) : Int) = 2052 := rfl
  unfold MtuAccepted readMtu
  rw [hmax]
  constructor
  · rintro ⟨lineNum, hread⟩
    split at hread
    · cases hread
    · split at hread
      · cases hread
      · omega
  · rintro ⟨hlow, hhigh⟩
    exact ⟨0, by rw [if_neg (by omega), if_neg (by omega)]⟩

end Conf
end Muon
