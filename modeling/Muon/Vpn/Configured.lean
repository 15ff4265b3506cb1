import Muon.Conf.Complete
import Muon.Vpn.PortRange
import Muon.Vpn.Tunnel

/-!
# From two configuration files to a tunnel

`muon` is started once on each side, each with a file of its own.  Two files that
`parse_args` accepts belong together when they name opposite modes and the same paths,
mtu and key.  Then what `vpn_init` takes from them are the two ends of a deployment, both
have the same static key, and the programs carry the tunnel, whatever else is in the files.

The bounds that a file has to keep beyond what `parse_args` checks are part of the
condition: ports that exist, and an mtu no larger than the payload of a packet.
-/

namespace Muon
namespace Vpn

open Foundation Packet Totp
open Muon.Conf (ConfT PathText Entry entries bufs values pathsOf parseArgs PortsFollow NumbersFit
  pathMaxCount ascii decimal defaultPort defaultPorts defaultTunif modeServer modeClient)

/-! ## What `vpn_init` takes from a file -/

/-- The ports of a path, with the default where the file gives none. -/
def portsOf (path : PathText) : Int × Int :=
  if path.low = 0 then (1205, 1205) else (path.low, path.high)

/-- The server of a path, cut to the size of its array. -/
def serverOf (path : PathText) : List UInt8 := path.server.take 63

/-- A path of the file as `vpn_init` gets it. -/
def confPathOf (path : PathText) : ConfPath where
  server := String.ofList ((serverOf path).map fun b => Char.ofNat b.toNat)
  portLow := (portsOf path).1
  portHigh := (portsOf path).2

/-- The last value of a key. -/
def lastValue (es : List Entry) (known : Muon.Conf.Key) : Option (List UInt8) :=
  (values es known).getLast?

/-- What `vpn_init` takes from an accepted file. -/
structure FileConf (es : List Entry) (conf : ConfT) : Prop where
  mode : (confOf conf).mode =
    if lastValue es .mode = some (ascii "server") then .server else .client
  mtu : (confOf conf).mtu = (lastValue es .mtu).elim 0 decimal
  mtu_low : 1024 ≤ (confOf conf).mtu
  paths : (confOf conf).paths = (pathsOf es).map confPathOf
  key : conf.key.text = ((lastValue es .key).getD []).take 127

theorem confPathOf_eq {stored : Muon.Conf.ConfPath} {path : PathText}
    (hholds : Muon.Conf.PathHolds stored path) :
    (⟨stringOf (defaultPort stored).server, (defaultPort stored).portLow,
      (defaultPort stored).portHigh⟩ : ConfPath) = confPathOf path := by
  have hserver : (defaultPort stored).server = stored.server := by
    unfold defaultPort
    split <;> rfl
  have hports : ((defaultPort stored).portLow, (defaultPort stored).portHigh) = portsOf path := by
    unfold defaultPort portsOf
    rw [hholds.low]
    split
    · rfl
    · rw [hholds.low, hholds.high]
  have hlow : (defaultPort stored).portLow = (portsOf path).1 := congrArg Prod.fst hports
  have hhigh : (defaultPort stored).portHigh = (portsOf path).2 := congrArg Prod.snd hports
  rw [confPathOf, ← hlow, ← hhigh, hserver, stringOf, hholds.server]
  rfl

/-- A file that `parse_args` accepts, on its way to `vpn_init`. -/
theorem fileConf_of_parseArgs {argv : List (List UInt8)} {file : List UInt8}
    (hok : (parseArgs argv (some file)).status = .ok)
    (hfollow : PortsFollow (entries (bufs file))) (hfits : NumbersFit (entries (bufs file))) :
    FileConf (entries (bufs file)) (parseArgs argv (some file)).conf := by
  obtain ⟨start, conf, -, hcomputes, -, hconf⟩ :=
    Muon.Conf.parseArgs_computes hok hfollow hfits
  obtain ⟨-, hlow, -⟩ := Muon.Conf.stored_of_parseArgs hok
  rw [hconf] at hlow ⊢
  generalize entries (bufs file) = es at hcomputes ⊢
  obtain ⟨hmode, hmtu, hkey⟩ :
      (defaultTunif (defaultPorts conf)).mode = conf.mode ∧
        (defaultTunif (defaultPorts conf)).mtu = conf.mtu ∧
        (defaultTunif (defaultPorts conf)).key = conf.key := by
    unfold defaultTunif
    split <;> exact ⟨rfl, rfl, rfl⟩
  have hmtuValue : conf.mtu = (lastValue es .mtu).elim 0 decimal := hcomputes.fields .mtu
  constructor
  case mode =>
    have hvalue : conf.mode = (lastValue es .mode).elim 0 fun text =>
        if text = ascii "server" then modeServer else modeClient := hcomputes.fields .mode
    show (if (defaultTunif (defaultPorts conf)).mode = modeServer then Mode.server
      else Mode.client) = _
    rw [hmode, hvalue]
    cases lastValue es .mode with
    | none => rfl
    | some text =>
        rw [Option.elim_some]
        by_cases hserver : text = ascii "server"
        · rw [if_pos hserver, if_pos (congrArg some hserver)]
          rfl
        · rw [if_neg hserver, if_neg fun heq => hserver (Option.some.inj heq)]
          rfl
  case mtu =>
    show (defaultTunif (defaultPorts conf)).mtu = _
    rw [hmtu, hmtuValue]
  case mtu_low => exact hlow
  case paths =>
    apply List.ext_getElem
    · rw [List.length_map, ← hcomputes.pathCount]
      exact (List.length_ofFn).trans (Muon.Conf.pathCount_defaults conf)
    · intro i hleft hright
      rw [List.length_map] at hright
      rw [List.getElem_map]
      have hcount : i < conf.pathCount := hcomputes.pathCount ▸ hright
      have hroom : i < pathMaxCount := Nat.lt_of_lt_of_le hcount conf.pathCount_le
      have hholds := hcomputes.paths ⟨i, hroom⟩ _ (List.getElem?_eq_getElem hright)
      rw [← confPathOf_eq hholds, ← Muon.Conf.paths_defaults conf hcount]
      exact List.getElem_ofFn _
  case key =>
    rw [hkey]
    exact (hcomputes.fields .key).1

/-! ## Two files -/

/-- The files of the two ends of a tunnel, when a server name stands for the given host. -/
structure Paired (resolve : List UInt8 → Nat) (client server : List Entry) : Prop where
  client_mode : lastValue client .mode = some (ascii "client")
  server_mode : lastValue server .mode = some (ascii "server")
  paths : pathsOf server = pathsOf client
  mtu : (lastValue server .mtu).map decimal = (lastValue client .mtu).map decimal
  key : (lastValue server .key).map (List.take 127) = (lastValue client .key).map (List.take 127)
  mtu_fits : ∀ value ∈ lastValue client .mtu, decimal value ≤ sizeofPayload
  ports : ∀ path ∈ pathsOf client, (portsOf path).2 < 65536
  /-- Two paths to one host have no port in common. -/
  apart : ∀ (i j : Nat) (path path' : PathText), i ≠ j → (pathsOf client)[i]? = some path →
    (pathsOf client)[j]? = some path' → resolve (serverOf path) = resolve (serverOf path') →
    (portsOf path).2 < (portsOf path').1 ∨ (portsOf path').2 < (portsOf path).1

variable {resolve : List UInt8 → Nat} {client server : List Entry} {conf conf' : ConfT}

/-- The host of a path. -/
def hostOf (resolve : List UInt8 → Nat) (es : List Entry) (path : Nat) : Nat :=
  ((pathsOf es)[path]?).elim 0 fun path => resolve (serverOf path)

/-- The ports of an accepted path. -/
theorem portsOf_bounds (haccepted : Muon.Conf.EntriesAccepted client) (hfits : NumbersFit client)
    {path : PathText} (hpath : path ∈ pathsOf client) :
    0 ≤ (portsOf path).1 ∧ (portsOf path).1 ≤ (portsOf path).2 := by
  obtain ⟨hlow, hle, -⟩ := haccepted.port_bounds hfits hpath
  unfold portsOf
  split
  · exact ⟨by decide, Int.le_refl _⟩
  · exact ⟨hlow, hle⟩

/-- The context of a client with the file. -/
theorem initCtx_confOf (hconf : FileConf client conf) (hpaired : Paired resolve client server)
    (haccepted : Muon.Conf.EntriesAccepted client) (hfits : NumbersFit client) {i : Nat}
    {path : PathText} (hpath : (pathsOf client)[i]? = some path) :
    ((initCtx (confOf conf)).paths i).portStart = (portsOf path).1 ∧
      ((initCtx (confOf conf)).paths i).portRange = (portsOf path).2 - (portsOf path).1 := by
  have hmem := List.mem_of_getElem? hpath
  obtain ⟨hlow, hle⟩ := portsOf_bounds haccepted hfits hmem
  have hhigh := hpaired.ports path hmem
  have hget : (confOf conf).paths[i]? = some (confPathOf path) := by
    rw [hconf.paths, List.getElem?_map, hpath, Option.map_some]
  have hint : FitsInt (confPathOf path).portHigh := by
    simp only [FitsInt, confPathOf]
    omega
  exact initCtx_ports hget hlow hle hint

/-- **Paired files make a deployment.** -/
theorem exists_deployment (hclient : FileConf client conf) (hserver : FileConf server conf')
    (hpaired : Paired resolve client server)
    (haccepted : Muon.Conf.EntriesAccepted client) (hfits : NumbersFit client) :
    ∃ deployment : Deployment, deployment.client = confOf conf ∧
      deployment.server = confOf conf' ∧ deployment.host = hostOf resolve client := by
  have helim : ∀ value : Option (List UInt8),
      value.elim 0 decimal = (value.map decimal).getD 0 := by
    intro value
    cases value <;> rfl
  refine ⟨{
    client := confOf conf
    server := confOf conf'
    host := hostOf resolve client
    client_mode := ?client_mode
    server_mode := ?server_mode
    same_paths := ?same_paths
    same_mtu := ?same_mtu
    mtu_nonneg := ?mtu_nonneg
    mtu_le := ?mtu_le
    ports := ?ports
    distinct := ?distinct }, rfl, rfl, rfl⟩
  case client_mode =>
    rw [hclient.mode, hpaired.client_mode]
    decide
  case server_mode =>
    rw [hserver.mode, hpaired.server_mode]
    rfl
  case same_paths => rw [hserver.paths, hclient.paths, hpaired.paths]
  case same_mtu => rw [hserver.mtu, hclient.mtu, helim, helim, hpaired.mtu]
  case mtu_nonneg =>
    have hlow := hclient.mtu_low
    omega
  case mtu_le =>
    have hlow := hclient.mtu_low
    rw [hclient.mtu] at hlow ⊢
    cases hlast : lastValue client .mtu with
    | none =>
        rw [hlast, Option.elim_none] at hlow
        omega
    | some value => exact hpaired.mtu_fits value hlast
  case ports =>
    rw [hclient.paths]
    intro path hmem
    obtain ⟨text, htext, rfl⟩ := List.mem_map.mp hmem
    obtain ⟨hlow, hle⟩ := portsOf_bounds haccepted hfits htext
    exact ⟨hlow, hle, hpaired.ports text htext⟩
  case distinct =>
    rintro i j token token' ⟨hi, hlow, hhigh⟩ ⟨hj, hlow', hhigh'⟩ haddress
    rw [hclient.paths, List.length_map] at hi hj
    have hpath := List.getElem?_eq_getElem hi
    have hpath' := List.getElem?_eq_getElem hj
    obtain ⟨hstart, hrange⟩ := initCtx_confOf hclient hpaired haccepted hfits hpath
    obtain ⟨hstart', hrange'⟩ := initCtx_confOf hclient hpaired haccepted hfits hpath'
    obtain ⟨hhost, hport⟩ := IpAddr.mk.inj haddress
    rw [hostOf, hostOf, hpath, hpath', Option.elim_some, Option.elim_some] at hhost
    rw [hrange] at hhigh
    rw [hrange'] at hhigh'
    rw [hstart, hstart'] at hport
    by_contra hne
    -- the two ports would lie in ranges that are apart
    rcases hpaired.apart i j _ _ hne hpath hpath' hhost with hbelow | habove
    · omega
    · omega

/-- **Two files carry a tunnel.**  When `parse_args` accepts a client's and a server's file
that belong together, both programs start with one static key as the two ends of a
deployment; and in every run of the two, whatever the network does, what happens at the
TUN devices is a run of the tunnel: every packet written on one side was read before, byte
for byte, on the other. -/
theorem files_carryTunnel (libraries : Libraries) (hlossless : libraries.Lossless)
    (resolve : List UInt8 → Nat) {argv argv' : List (List UInt8)} {file file' : List UInt8}
    (hok : (parseArgs argv (some file)).status = .ok)
    (hfollow : PortsFollow (entries (bufs file))) (hfits : NumbersFit (entries (bufs file)))
    (hok' : (parseArgs argv' (some file')).status = .ok)
    (hfollow' : PortsFollow (entries (bufs file'))) (hfits' : NumbersFit (entries (bufs file')))
    (hpaired : Paired resolve (entries (bufs file)) (entries (bufs file'))) :
    cryptoInit libraries (parseArgs argv' (some file')).conf.key.text =
        cryptoInit libraries (parseArgs argv (some file)).conf.key.text ∧
      ∃ deployment : Deployment,
        deployment.client = confOf (parseArgs argv (some file)).conf ∧
        deployment.server = confOf (parseArgs argv' (some file')).conf ∧
        deployment.host = hostOf resolve (entries (bufs file)) ∧
        ∀ steps net,
          History (network (cryptoInit libraries (parseArgs argv (some file)).conf.key.text)
            deployment) steps net →
          ∀ before side packet after,
            observed (tunEvents (cryptoInit libraries
              (parseArgs argv (some file)).conf.key.text)) steps =
                before ++ .write side packet :: after →
              .read side.other packet ∈ before := by
  obtain ⟨-, -, haccepted, -⟩ := Muon.Conf.parseArgs_computes hok hfollow hfits
  have hclient := fileConf_of_parseArgs hok hfollow hfits
  have hserver := fileConf_of_parseArgs hok' hfollow' hfits'
  have hkey : (parseArgs argv' (some file')).conf.key.text =
      (parseArgs argv (some file)).conf.key.text := by
    have htake : ∀ value : Option (List UInt8),
        (value.getD []).take 127 = (value.map (List.take 127)).getD [] := by
      intro value
      cases value <;> rfl
    rw [hserver.key, hclient.key, htake, htake, hpaired.key]
  obtain ⟨deployment, hends⟩ :=
    exists_deployment hclient hserver hpaired haccepted.entries hfits
  refine ⟨by rw [hkey], deployment, hends.1, hends.2.1, hends.2.2, ?_⟩
  intro steps net hrun before side packet after htrace
  obtain ⟨first, final, hinitial, hpath, -⟩ :=
    (tunnel_simulates hlossless deployment).history hrun
  rw [htrace] at hpath
  exact read_of_written hinitial hpath

deriving instance DecidableEq for PathText

/-- The server's file for `onePathFile`, its lines in another order. -/
def onePathServerFile : List UInt8 :=
  ascii "key=k\nmtu=1400\nmode=server\naddress=10.0.1.2/24\n" ++
    ascii "server=10.0.0.1\nport=1200-1299\nnat=yes\n"

theorem paired_onePathFiles :
    Paired (fun _ => 7) (entries (bufs (onePathFile "port=1200-1299")))
      (entries (bufs onePathServerFile)) where
  client_mode := by decide +kernel
  server_mode := by decide +kernel
  paths := by decide +kernel
  mtu := by decide +kernel
  key := by decide +kernel
  mtu_fits := by decide +kernel
  ports := by decide +kernel
  apart i j path path' hne hpath hpath' _ := by
    have hone : (pathsOf (entries (bufs (onePathFile "port=1200-1299")))).length = 1 := by
      decide +kernel
    have hi := (List.getElem?_eq_some_iff.mp hpath).1
    have hj := (List.getElem?_eq_some_iff.mp hpath').1
    omega

/-- The two files of a tunnel over one path with a hundred ports: one key for both ends, and
a packet that the server writes at the end of a run was read by the client in it. -/
theorem files_carryTunnel_onePath :
    cryptoInit Reference.crypto.libraries
        (parseArgs commandLine (some onePathServerFile)).conf.key.text =
      cryptoInit Reference.crypto.libraries
        (parseArgs commandLine (some (onePathFile "port=1200-1299"))).conf.key.text ∧
      ∃ deployment : Deployment,
        deployment.client =
          confOf (parseArgs commandLine (some (onePathFile "port=1200-1299"))).conf ∧
        deployment.server = confOf (parseArgs commandLine (some onePathServerFile)).conf ∧
        deployment.host = hostOf (fun _ => 7) (entries (bufs (onePathFile "port=1200-1299"))) ∧
        ∀ steps net,
          History (network (cryptoInit Reference.crypto.libraries
            (parseArgs commandLine (some (onePathFile "port=1200-1299"))).conf.key.text)
            deployment) steps net →
          ∀ before packet,
            observed (tunEvents (cryptoInit Reference.crypto.libraries
              (parseArgs commandLine (some (onePathFile "port=1200-1299"))).conf.key.text))
                steps = before ++ [.write .server packet] →
              .read .client packet ∈ before := by
  have hok : (parseArgs commandLine (some (onePathFile "port=1200-1299"))).status = .ok := by
    decide +kernel
  have hfollow : PortsFollow (entries (bufs (onePathFile "port=1200-1299"))) := by
    decide +kernel
  have hfits : NumbersFit (entries (bufs (onePathFile "port=1200-1299"))) :=
    ⟨by decide +kernel, by decide +kernel⟩
  have hok' : (parseArgs commandLine (some onePathServerFile)).status = .ok := by decide +kernel
  have hfollow' : PortsFollow (entries (bufs onePathServerFile)) := by decide +kernel
  have hfits' : NumbersFit (entries (bufs onePathServerFile)) :=
    ⟨by decide +kernel, by decide +kernel⟩
  obtain ⟨hkeys, deployment, hclient, hserver, hhost, hruns⟩ :=
    files_carryTunnel Reference.crypto.libraries Reference.libraries_lossless (fun _ => 7) hok
      hfollow hfits hok' hfollow' hfits' paired_onePathFiles
  refine ⟨hkeys, deployment, hclient, hserver, hhost, ?_⟩
  intro steps net hrun before packet htrace
  exact hruns steps net hrun before .server packet [] htrace

end Vpn
end Muon
