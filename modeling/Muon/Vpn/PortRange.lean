import Muon.Conf.ParseArgs
import Muon.Reference.Libraries
import Muon.Totp.Reduction
import Muon.Vpn.Startup

/-!
# Accepted port ranges

`read_conf` checks that a port range is not empty, and nothing else: a port above
65535 is accepted.  From such a range the client can draw a token whose port does not
exist, or run out of `int` on the way; from every other accepted range it cannot.
-/

namespace Muon
namespace Vpn

open Foundation Packet Totp
open Muon.Conf (ConfT CharArray pathsOf PathText entries bufs values PortsFollow NumbersFit
  parseArgs Posed hyphen portTexts decimal)

/-! ## What `vpn_init` gets -/

/-- The text of an array, each byte a character. -/
def stringOf {size : Nat} (field : CharArray size) : String :=
  String.ofList (field.text.map fun b => Char.ofNat b.toNat)

/-- What `vpn_init` reads of `*conf`. -/
def confOf (conf : ConfT) : Conf where
  mode := if conf.mode = Muon.Conf.modeServer then .server else .client
  mtu := conf.mtu
  route := conf.route ≠ 0
  paths := List.ofFn fun i : Fin conf.pathCount =>
    let path := conf.paths (i.castLE conf.pathCount_le)
    ⟨stringOf path.server, path.portLow, path.portHigh⟩
  tunif := stringOf conf.tunif
  address := stringOf conf.address
  address6 := stringOf conf.address6

/-- The first and the last port of a path. -/
def ConfPath.ports (path : ConfPath) : Int × Int := (path.portLow, path.portHigh)

/-- The ports of a path can be used at a clock value: the range is one, `totp` computes
within `int` and stays in the range, and the token names a UDP port, one that a server
with the same ports for the path binds. -/
structure PortsUsable (conf : Conf) (path : Nat) (crypto : Crypto) (tv : Timeval)
    (offset : Int) : Prop where
  range_nonneg : 0 ≤ ((initCtx conf).paths path).portRange
  modulus_fits : FitsInt (((initCtx conf).paths path).portRange + 1)
  reduction_fits : ((initCtx conf).paths path).portRange ≠ 0 →
    ReductionFits ((initCtx conf).paths path).portRange 0
      (crypto.hmac (stepText (timeStep 64 tv offset))).toList
  token : 0 ≤ totp crypto ((initCtx conf).paths path).portRange tv offset ∧
    totp crypto ((initCtx conf).paths path).portRange tv offset ≤
      ((initCtx conf).paths path).portRange
  port : 1 ≤ ((initCtx conf).paths path).portStart +
      totp crypto ((initCtx conf).paths path).portRange tv offset ∧
    ((initCtx conf).paths path).portStart +
      totp crypto ((initCtx conf).paths path).portRange tv offset ≤ 65535
  bound : ∀ server : Conf, server.mode = .server →
    (server.paths[path]?).map ConfPath.ports = (conf.paths[path]?).map ConfPath.ports →
    .udpWorker path (totp crypto ((initCtx conf).paths path).portRange tv offset) ∈
      (vpnRun server).starts

theorem initCtx_ports {conf : Conf} {path : Nat} {ports : ConfPath}
    (hpath : conf.paths[path]? = some ports) (hlow : 0 ≤ ports.portLow)
    (hrange : ports.portLow ≤ ports.portHigh) (hfits : FitsInt ports.portHigh) :
    ((initCtx conf).paths path).portStart = ports.portLow ∧
      ((initCtx conf).paths path).portRange = ports.portHigh - ports.portLow := by
  obtain ⟨-, hhigh⟩ := hfits
  have hinit : (initCtx conf).paths path = initPath ports := by
    simp only [initCtx, hpath, Option.elim_some]
  rw [hinit]
  exact ⟨rfl, toInt32_of_fits (by omega) (by omega)⟩

/-- A server starts a worker for every port of a range. -/
theorem mem_starts_of_range {server : Conf} {path : Nat} {port : Int}
    (hmode : server.mode = .server) (hpath : path < server.paths.length) (hlow : 0 ≤ port)
    (hhigh : port ≤ ((initCtx server).paths path).portRange) :
    .udpWorker path port ∈ (vpnRun server).starts := by
  simp only [vpnRun, hmode, List.mem_append, List.mem_flatMap, List.mem_map, List.mem_range]
  left
  refine ⟨path, hpath, port.toNat, ?_, ?_⟩
  · omega
  · rw [Int.toNat_of_nonneg hlow]

/-! ## Exactly the ranges below 65536 -/

/-- A key whose digests are all the same. -/
def constantCrypto (digest : Vector UInt8 16) : Crypto where
  libraries :=
    { genericHashBlake2b := fun _ _ _ => Vector.ofFn fun i => digest.toList.getD i 0
      streamChacha20 := fun _ _ _ => 0
      lz4CompressDefault := fun _ _ => []
      lz4DecompressSafe := fun _ _ => none
      lz4DecompressSafe_le := nofun }
  key := Vector.replicate 32 0

theorem hmac_constantCrypto (digest : Vector UInt8 16) (input : List UInt8) :
    (constantCrypto digest).hmac input = digest := by
  apply Vector.ext
  intro i hi
  show (Vector.ofFn fun j : Fin 16 => digest.toList.getD j 0)[i] = digest[i]
  rw [Vector.getElem_ofFn, List.getD_eq_getElem _ _ (by simpa using hi), Vector.getElem_toList]

/-- A digest can draw the last token of a range, or 65535 where the range is larger. -/
theorem totp_shortDigest {range : Int} (hlow : 0 ≤ range) (hfits : FitsInt (range + 1))
    (tv : Timeval) (offset : Int) :
    totp (constantCrypto (shortDigest (min range 65535).toNat)) range tv offset =
      min range 65535 := by
  unfold totp totpOn
  split
  · omega
  · unfold tokenOfStep
    rw [hmac_constantCrypto, foldl_shortDigest hfits (by omega) (by omega)]
    omega

/-- The ports of a range can be used, whatever the key and the clock, exactly when its
last port is a UDP port. -/
theorem portsUsable_iff {conf : Conf} {path : Nat} {ports : ConfPath}
    (hpath : conf.paths[path]? = some ports) (hlow : 1 ≤ ports.portLow)
    (hrange : ports.portLow ≤ ports.portHigh) (hfits : FitsInt ports.portHigh) :
    (∀ crypto tv offset, PortsUsable conf path crypto tv offset) ↔ ports.portHigh ≤ 65535 := by
  obtain ⟨hstart, hports⟩ := initCtx_ports hpath (by omega) hrange hfits
  have hmax : rangeMax = 8388607 := rfl
  constructor
  · -- the key that draws the last port, or the 65536th
    intro hall
    have husable := hall (constantCrypto (shortDigest
      (min (ports.portHigh - ports.portLow) 65535).toNat)) (Timeval.ofMilliseconds 0) 0
    have hport := husable.port
    have hmodulus := husable.modulus_fits
    rw [hports] at hmodulus hport
    rw [hstart, totp_shortDigest (by omega) hmodulus] at hport
    omega
  · intro hhigh crypto tv offset
    have htoken : 0 ≤ totp crypto (ports.portHigh - ports.portLow) tv offset ∧
        totp crypto (ports.portHigh - ports.portLow) tv offset ≤
          ports.portHigh - ports.portLow := totp_bounds crypto (by omega) (by omega) tv offset
    constructor
    case range_nonneg => omega
    case modulus_fits =>
      rw [hports]
      unfold FitsInt
      omega
    case reduction_fits =>
      intro _
      rw [hports]
      exact reductionFits_of_le (by omega) (by omega) _ ⟨Int.le_refl 0, by omega⟩
    case token => rwa [hports]
    case port =>
      rw [hstart, hports]
      omega
    case bound =>
      intro server hmode hsame
      rw [hpath, Option.map_some] at hsame
      obtain ⟨ports', hpath', hequal⟩ := Option.map_eq_some_iff.mp hsame
      obtain ⟨hlow', hhigh'⟩ := Prod.mk.inj hequal
      have hports' := (initCtx_ports hpath' (by omega) (by omega) (by rwa [hhigh'])).2
      apply mem_starts_of_range hmode
      · exact (List.getElem?_eq_some_iff.mp hpath').1
      · rw [hports]
        exact htoken.1
      · rw [hports', hports, hlow', hhigh']
        exact htoken.2

/-! ## The ranges of an accepted file -/

/-- The ports of a path after the defaults are filled in. -/
theorem defaultPort_bounds {stored : Muon.Conf.ConfPath} {path : PathText}
    (hlow : stored.portLow = path.low) (hhigh : stored.portHigh = path.high)
    (hbounds : 0 ≤ path.low ∧ path.low ≤ path.high) (hfits : FitsInt path.high) :
    1 ≤ (Muon.Conf.defaultPort stored).portLow ∧
      (Muon.Conf.defaultPort stored).portLow ≤ (Muon.Conf.defaultPort stored).portHigh ∧
      FitsInt (Muon.Conf.defaultPort stored).portHigh ∧
      ((Muon.Conf.defaultPort stored).portHigh ≤ 65535 ↔ path.low ≠ 0 → path.high ≤ 65535) := by
  have hstored : 0 ≤ stored.portLow ∧ stored.portLow ≤ stored.portHigh := by
    rwa [hlow, hhigh]
  obtain ⟨hpositive, hrange⟩ := Muon.Conf.defaultPort_range hstored.1 hstored.2
  refine ⟨hpositive, hrange, ?_⟩
  unfold Muon.Conf.defaultPort
  by_cases hzero : stored.portLow = 0
  · -- 0 counts as unset
    rw [if_pos hzero]
    have hdefault : FitsInt 1205 ∧ (1205 : Int) ≤ 65535 := by decide
    exact ⟨hdefault.1, iff_of_true hdefault.2 fun hne => absurd (hlow.symm.trans hzero) hne⟩
  · rw [if_neg hzero, hhigh]
    rw [hlow] at hzero
    exact ⟨hfits, fun hle _ => hle, fun himp => himp hzero⟩

/-- The paths `vpn_init` gets are the paths of the file, with their defaults. -/
theorem confOf_paths {conf : ConfT} {i : Nat} (hi : i < conf.pathCount) :
    ∃ ports : ConfPath, (confOf conf).paths[i]? = some ports ∧
      ports.portLow = (conf.paths ⟨i, Nat.lt_of_lt_of_le hi conf.pathCount_le⟩).portLow ∧
      ports.portHigh = (conf.paths ⟨i, Nat.lt_of_lt_of_le hi conf.pathCount_le⟩).portHigh := by
  unfold confOf
  rw [List.getElem?_ofFn, dif_pos hi]
  exact ⟨_, rfl, rfl, rfl⟩

/-- **Usable port ranges.**  After a run of `parse_args` that returned 0, the ports of
every path can be used for every key, clock value and offset exactly when no range of
the file reaches past 65535; a range that starts at 0 is replaced by the default. -/
theorem parseArgs_portsUsable_iff {argv : List (List UInt8)} {file : List UInt8}
    (hok : (parseArgs argv (some file)).status = .ok)
    (hfollow : PortsFollow (entries (bufs file))) (hfits : NumbersFit (entries (bufs file))) :
    (∀ path < (parseArgs argv (some file)).conf.pathCount, ∀ crypto tv offset,
        PortsUsable (confOf (parseArgs argv (some file)).conf) path crypto tv offset) ↔
      ∀ path ∈ pathsOf (entries (bufs file)), path.low ≠ 0 → path.high ≤ 65535 := by
  obtain ⟨start, conf, haccepted, hcomputes, -, hconf⟩ :=
    Muon.Conf.parseArgs_computes hok hfollow hfits
  rw [hconf, Muon.Conf.pathCount_defaults, hcomputes.pathCount]
  have hiff : ∀ (i : Nat) (hi : i < (pathsOf (entries (bufs file))).length),
      (∀ crypto tv offset,
        PortsUsable (confOf (Muon.Conf.defaultTunif (Muon.Conf.defaultPorts conf))) i crypto tv
          offset) ↔
        ((pathsOf (entries (bufs file)))[i].low ≠ 0 →
          (pathsOf (entries (bufs file)))[i].high ≤ 65535) := by
    intro i hi
    have hcount : i < conf.pathCount := hcomputes.pathCount ▸ hi
    have hroom : i < Muon.Conf.pathMaxCount := Nat.lt_of_lt_of_le hcount conf.pathCount_le
    have hholds := hcomputes.paths ⟨i, hroom⟩ _ (List.getElem?_eq_getElem hi)
    obtain ⟨hbounds, hle, hfit⟩ := haccepted.entries.port_bounds hfits (List.getElem_mem hi)
    obtain ⟨hlow, hrange, hhigh, hlimit⟩ :=
      defaultPort_bounds hholds.low hholds.high ⟨hbounds, hle⟩ hfit
    obtain ⟨ports, hports, hportLow, hportHigh⟩ :=
      confOf_paths ((Muon.Conf.pathCount_defaults conf).symm ▸ hcount)
    rw [Muon.Conf.paths_defaults conf hcount] at hportLow hportHigh
    rw [← hlimit, ← hportHigh]
    apply portsUsable_iff hports
    · rwa [hportLow]
    · rwa [hportLow, hportHigh]
    · rwa [hportHigh]
  constructor
  · intro hall path hpath
    obtain ⟨i, hi, rfl⟩ := List.getElem_of_mem hpath
    exact (hiff i hi).mp (hall i hi)
  · intro hall i hi
    exact (hiff i hi).mpr (hall _ (List.getElem_mem hi))

/-- `muon -c muon.conf`. -/
def commandLine : List (List UInt8) :=
  [Muon.Conf.ascii "muon", Muon.Conf.ascii "-c", Muon.Conf.ascii "muon.conf"]

/-- A complete configuration with one path and the given `port` line. -/
def onePathFile (port : String) : List UInt8 :=
  Muon.Conf.ascii "mode=client\n" ++ Muon.Conf.ascii "server=10.0.0.1\n" ++
    Muon.Conf.ascii port ++ Muon.Conf.ascii "\nkey=k\n" ++ Muon.Conf.ascii "mtu=1400\n" ++
    Muon.Conf.ascii "address=10.0.1.1/24\n"

theorem parseArgs_portsUsable_hundredPorts :
    PortsUsable
      (confOf (parseArgs commandLine (some (onePathFile "port=1200-1299"))).conf) 0
      Reference.crypto (Timeval.ofMilliseconds 1500000000000) (-19) := by
  have hok : (parseArgs commandLine (some (onePathFile "port=1200-1299"))).status = .ok := by
    decide +kernel
  have hfollow : PortsFollow (entries (bufs (onePathFile "port=1200-1299"))) := by
    decide +kernel
  have hfits : NumbersFit (entries (bufs (onePathFile "port=1200-1299"))) :=
    ⟨by decide +kernel, by decide +kernel⟩
  exact (parseArgs_portsUsable_iff hok hfollow hfits).mpr (by decide +kernel) 0 (by decide +kernel)
    Reference.crypto (Timeval.ofMilliseconds 1500000000000) (-19)

/-- A port above 65535 is accepted. -/
theorem exists_not_portsUsable :
    ¬ ∀ (argv : List (List UInt8)) (file : List UInt8),
        (parseArgs argv (some file)).status = .ok →
        PortsFollow (entries (bufs file)) → NumbersFit (entries (bufs file)) →
        ∀ path < (parseArgs argv (some file)).conf.pathCount, ∀ crypto tv offset,
          PortsUsable (confOf (parseArgs argv (some file)).conf) path crypto tv offset := by
  intro hall
  have husable := hall commandLine (onePathFile "port=70000") (by decide +kernel)
    (by decide +kernel) ⟨by decide +kernel, by decide +kernel⟩ 0 (by decide +kernel)
    Reference.crypto (Timeval.ofMilliseconds 0) 0
  have hstart : ((initCtx (confOf (parseArgs commandLine
      (some (onePathFile "port=70000"))).conf)).paths 0).portStart = 70000 := by decide +kernel
  have htoken := husable.token
  have hport := husable.port
  omega

end Vpn
end Muon
