import Muon.Conf.ParseArgs

/-!
# Complete configurations

What `vpn_init` and the workers rely on.  `read_conf` checks the values of the lines it
reads, `parse_args` that the lines that have to be there were; 0 stands for a setting
that is missing, and no accepted line leaves it.  Every string ends inside its array,
whatever was copied into it.
-/

namespace Muon
namespace Conf

open Foundation Packet

/-- Every string of the configuration ends inside its array. -/
structure Terminated (conf : ConfT) : Prop where
  pidfile : 0 ∈ conf.pidfile.bytes
  logfile : 0 ∈ conf.logfile.bytes
  user : 0 ∈ conf.user.bytes
  servers : ∀ i, 0 ∈ (conf.paths i).server.bytes
  key : 0 ∈ conf.key.bytes
  tunif : 0 ∈ conf.tunif.bytes
  address : 0 ∈ conf.address.bytes
  address6 : 0 ∈ conf.address6.bytes

/-- A configuration that has all it needs. -/
structure Complete (conf : ConfT) : Prop where
  mode : conf.mode = modeServer ∨ conf.mode = modeClient
  path_count : 1 ≤ conf.pathCount ∧ conf.pathCount ≤ pathMaxCount
  ports : ∀ i : Fin pathMaxCount, i < conf.pathCount →
    1 ≤ (conf.paths i).portLow ∧ (conf.paths i).portLow ≤ (conf.paths i).portHigh
  mtu : 1024 ≤ conf.mtu ∧ conf.mtu ≤ payloadMax
  key : conf.key.text ≠ [] ∧ conf.klen = conf.key.text.length ∧ conf.klen ≤ 127
  tunif : conf.tunif.text ≠ []
  address : conf.address.text ≠ [] ∨ conf.address6.text ≠ []
  daemon : conf.daemon ≠ 0 → conf.pidfile.text ≠ [] ∧ conf.logfile.text ≠ []
  route : conf.route = 0 ∨ conf.route = 1
  nat : conf.nat = 0 ∨ conf.nat = 1
  terminated : Terminated conf

/-! ## What is stored -/

/-- Every string ends inside its array, and an mtu that was stored passed its check. -/
structure Stored (conf : ConfT) : Prop extends Terminated conf where
  mtu : conf.mtu = 0 ∨ 1024 ≤ conf.mtu ∧ conf.mtu ≤ payloadMax

variable {conf : ConfT} {lineNum : Nat} {key value : List UInt8}

theorem stored_zeroConf : Stored zeroConf where
  pidfile := by decide
  logfile := by decide
  user := by decide
  servers := by decide
  key := by decide
  tunif := by decide
  address := by decide
  address6 := by decide
  mtu := Or.inl rfl

/-- The two file names of the command line are copied like every other string. -/
theorem Stored.readOptions {confFile name : Option (List UInt8)} {start : ConfT}
    {args : List (List UInt8)} (hstored : Stored conf)
    (hread : readOptions confFile conf args = .ok (name, start)) : Stored start := by
  fun_induction Conf.readOptions confFile conf args with
  | case1 confFile conf =>
      cases hread
      exact hstored
  | case4 confFile conf arg hoption name' args ih => exact ih hstored hread
  | case5 confFile conf arg args hoption ih =>
      exact ih { hstored with } hread
  | case7 confFile conf arg hoption name' args ih =>
      exact ih { hstored with pidfile := zero_mem_strncpy (by decide) conf.pidfile _ } hread
  | case9 confFile conf arg hoption name' args ih =>
      exact ih { hstored with logfile := zero_mem_strncpy (by decide) conf.logfile _ } hread
  | case2 | case3 | case6 | case8 | case10 | case11 => cases hread

theorem Stored.addServer (hstored : Stored conf) :
    Stored (addServer lineNum value conf).conf := by
  unfold Conf.addServer
  split
  · next hcount =>
      split
      · exact hstored
      · refine { hstored with servers := fun i => ?_ }
        dsimp only
        by_cases hi : i = ⟨conf.pathCount, hcount⟩
        · rw [hi, Function.update_self]
          exact zero_mem_strncpy (by decide) _ _
        · rw [Function.update_of_ne hi]
          exact hstored.servers i
  · exact hstored

theorem Stored.setPort (hstored : Stored conf) : Stored (setPort lineNum value conf).conf := by
  unfold Conf.setPort
  dsimp only
  split
  · exact hstored
  · cases conf.lastPath with
    | none => exact hstored
    | some last =>
        refine { hstored with servers := fun i => ?_ }
        dsimp only
        rw [field_update ConfPath.server _ (by rfl)]
        exact hstored.servers i

/-- One entry more: an mtu that fails its check has been stored, but ends the reading. -/
theorem Stored.assign (hstored : Stored conf)
    (hok : (assign lineNum key value conf).status = .ok) :
    Stored (assign lineNum key value conf).conf := by
  unfold Conf.assign at hok ⊢
  cases hkey : keyOf key with
  | none => exact hstored
  | some known =>
      rw [hkey] at hok
      cases known with
      | server => exact hstored.addServer
      | port => exact hstored.setPort
      | user => exact { hstored with user := zero_mem_strncpy (by decide) conf.user value }
      | tunif => exact { hstored with tunif := zero_mem_strncpy (by decide) conf.tunif value }
      | address =>
          exact { hstored with address := zero_mem_strncpy (by decide) conf.address value }
      | address6 =>
          exact { hstored with address6 := zero_mem_strncpy (by decide) conf.address6 value }
      | key =>
          exact { hstored with
            key := List.mem_append_right _ List.mem_cons_self }
      | mode | route | nat =>
          obtain ⟨stored, -, hconf⟩ := store_ok hok
          dsimp only
          rw [hconf]
          exact { hstored with }
      | mtu =>
          obtain ⟨stored, hread, hconf⟩ := store_ok hok
          dsimp only
          rw [hconf]
          exact { hstored with mtu := Or.inr ((readMtu_ok_iff _).mp ⟨stored, hread⟩) }

theorem Stored.readLine {buf : List UInt8} (hstored : Stored conf)
    (hok : (readLine lineNum buf conf).status = .ok) :
    Stored (readLine lineNum buf conf).conf := by
  unfold Conf.readLine at hok ⊢
  dsimp only at hok ⊢
  split
  · exact hstored
  · next hskip =>
      rw [if_neg hskip] at hok
      split
      · exact hstored
      · next hequals =>
          rw [if_neg hequals] at hok
          split
          · exact hstored
          · next before hbefore =>
              rw [hbefore] at hok
              dsimp only at hok
              split
              · exact hstored
              · next hspace =>
                  rw [if_neg hspace] at hok
                  exact hstored.assign hok

/-- The whole file: the next line is only read after one that was accepted. -/
theorem Stored.readLines {bufs : List (List UInt8)} (hstored : Stored conf)
    (hok : (readLines lineNum bufs conf).status = .ok) :
    Stored (readLines lineNum bufs conf).conf := by
  induction bufs generalizing lineNum conf with
  | nil => exact hstored
  | cons buf bufs ih =>
      rw [Conf.readLines] at hok ⊢
      have hline := @Stored.readLine conf (lineNum + 1) buf hstored
      rcases hread : Conf.readLine (lineNum + 1) buf conf with ⟨status, conf'⟩
      rw [hread] at hok hline
      cases status with
      | ok => exact ih (hline rfl) hok
      | error message => cases hok
      | outsideBuf index => cases hok
      | outsidePaths index => cases hok

/-! ## Defaults -/

/-- The default of the device is a name that fits. -/
theorem tunif_defaults (conf : ConfT) :
    (defaultTunif conf).tunif.text ≠ [] ∧
      (0 ∈ conf.tunif.bytes → 0 ∈ (defaultTunif conf).tunif.bytes) := by
  unfold defaultTunif
  split
  · have htext : (strcpy conf.tunif (ascii "vpn0")).text = ascii "vpn0" :=
      text_strcpy conf.tunif (by decide) (by decide)
    constructor
    · dsimp only
      rw [htext]
      decide
    · intro _
      apply zero_mem_of_length_text
      rw [htext]
      decide
  · next hset => exact ⟨hset, fun hnul => hnul⟩

/-- The defaults keep every string terminated. -/
theorem Terminated.defaults (hterminated : Terminated conf) :
    Terminated (defaultTunif (defaultPorts conf)) := by
  have hservers : ∀ i, 0 ∈ ((defaultPorts conf).paths i).server.bytes := by
    intro i
    dsimp only [defaultPorts, defaultPort]
    split
    · split <;> exact hterminated.servers i
    · exact hterminated.servers i
  have htunif := (tunif_defaults (defaultPorts conf)).2 hterminated.tunif
  unfold defaultTunif at htunif ⊢
  split at htunif
  · next hempty =>
      rw [if_pos hempty]
      exact { hterminated with servers := hservers, tunif := htunif }
  · next hset =>
      rw [if_neg hset]
      exact { hterminated with servers := hservers }

/-! ## What the checks leave -/

/-- A flag that was set by `yes` and `no` lines only. -/
theorem flag_of_elim {flag : Int} (value : Option (List UInt8))
    (hflag : flag = value.elim 0 fun text => if text = ascii "yes" then 1 else 0) :
    flag = 0 ∨ flag = 1 := by
  cases value with
  | none => exact Or.inl hflag
  | some text =>
      rw [hflag, Option.elim_some]
      split
      · exact Or.inr rfl
      · exact Or.inl rfl

/-- The configuration of accepted entries that passes the checks. -/
theorem Computes.complete {start conf : ConfT} {es : List Entry}
    (hcomputes : Computes start es conf) (haccepted : EntriesAccepted es)
    (hfits : NumbersFit es) (hchecked : Checked conf) (hstored : Stored conf) :
    Complete (defaultTunif (defaultPorts conf)) := by
  have hsame : (defaultTunif (defaultPorts conf)) =
      { defaultPorts conf with tunif := (defaultTunif (defaultPorts conf)).tunif } := by
    unfold defaultTunif
    split <;> rfl
  have hterminated := hstored.toTerminated.defaults
  have htunif := (tunif_defaults (defaultPorts conf)).1
  have hpaths : ∀ i : Fin pathMaxCount, i < conf.pathCount →
      (defaultTunif (defaultPorts conf)).paths i = defaultPort (conf.paths i) :=
    fun i hi => paths_defaults conf hi
  rw [hsame] at hterminated hpaths htunif ⊢
  constructor
  case mode =>
    have hmode := hcomputes.fields .mode
    cases hvalue : (values es .mode).getLast? with
    | none =>
        rw [hvalue] at hmode
        exact absurd hmode hchecked.mode
    | some text =>
        rw [hvalue] at hmode
        show conf.mode = modeServer ∨ conf.mode = modeClient
        rw [show conf.mode = if text = ascii "server" then modeServer else modeClient from hmode]
        split
        · exact Or.inl rfl
        · exact Or.inr rfl
  case path_count => exact ⟨Nat.pos_of_ne_zero hchecked.pathCount, conf.pathCount_le⟩
  case ports =>
    intro i hi
    have hused : (i : Nat) < (pathsOf es).length := hcomputes.pathCount ▸ hi
    have hholds := hcomputes.paths i _ (List.getElem?_eq_getElem hused)
    obtain ⟨hlow, hrange, -⟩ := haccepted.port_bounds hfits (List.getElem_mem hused)
    rw [hpaths i hi]
    apply defaultPort_range
    · rwa [hholds.low]
    · rwa [hholds.low, hholds.high]
  case mtu => exact hstored.mtu.resolve_left hchecked.mtu
  case key =>
    obtain ⟨hholds, hklen⟩ := hcomputes.fields .key
    refine ⟨hchecked.key, hklen, ?_⟩
    show conf.klen ≤ 127
    rw [hklen, hholds]
    exact List.length_take_le 127 _
  case tunif => exact htunif
  case address =>
    by_cases haddress : conf.address.text = []
    · exact Or.inr (hchecked.address haddress)
    · exact Or.inl haddress
  case daemon => exact fun hdaemon => ⟨hchecked.pidfile hdaemon, hchecked.logfile hdaemon⟩
  case route => exact flag_of_elim _ (hcomputes.fields .route)
  case nat => exact flag_of_elim _ (hcomputes.fields .nat)
  case terminated => exact hterminated

/-- Whatever numbers an accepted file has, the strings end inside their arrays and the mtu
passed its check. -/
theorem stored_of_parseArgs {argv : List (List UInt8)} {file : List UInt8}
    (hok : (parseArgs argv (some file)).status = .ok) :
    Terminated (parseArgs argv (some file)).conf ∧
      1024 ≤ (parseArgs argv (some file)).conf.mtu ∧
      (parseArgs argv (some file)).conf.mtu ≤ payloadMax := by
  obtain ⟨name, start, hoptions, hread, hchecked, hconf⟩ := parseArgs_run hok
  have hstored := (stored_zeroConf.readOptions hoptions).readLines hread
  have hmtu : ∀ conf : ConfT, (defaultTunif (defaultPorts conf)).mtu = conf.mtu := by
    intro conf
    unfold defaultTunif
    split <;> rfl
  rw [hconf, hmtu]
  exact ⟨hstored.toTerminated.defaults, hstored.mtu.resolve_left hchecked.mtu⟩

/-- **What `parse_args` promises.**  When it returns 0 on a file that `read_conf` is
specified for, the configuration is complete. -/
theorem parseArgs_complete {argv : List (List UInt8)} {file : List UInt8}
    (hok : (parseArgs argv (some file)).status = .ok) (hfit : LinesFit file)
    (hposed : Posed (linesOf file)) : Complete (parseArgs argv (some file)).conf := by
  obtain ⟨name, start, hoptions, hread, hchecked, hconf⟩ := parseArgs_run hok
  have hcleared := readOptions_cleared cleared_zeroConf hoptions
  have hstart := stored_zeroConf.readOptions hoptions
  rw [readConf_lines hfit] at hread hchecked hconf
  obtain ⟨hstatus, hcomputes⟩ := readLines_run hcleared hposed
  rw [hconf]
  exact (hcomputes hread).complete (hstatus.mp hread).entries hposed.numbers_fit hchecked
    (hstart.readLines hread)

/-- A server that runs in the background, with all defaults. -/
def serverFile : List UInt8 :=
  ascii "mode=server\nserver=0.0.0.0\nkey=k\nmtu=1400\naddress6=fd00::1/64\nnat=yes\n"

/-- `muon -c muon.conf -d --pidfile p --logfile l`. -/
def serverCommand : List (List UInt8) :=
  ["muon", "-c", "muon.conf", "-d", "--pidfile", "p", "--logfile", "l"].map ascii

theorem parseArgs_complete_serverFile :
    Complete (parseArgs serverCommand (some serverFile)).conf := by
  have hok : (parseArgs serverCommand (some serverFile)).status = .ok := by decide +kernel
  have hfit : LinesFit serverFile := by
    unfold LinesFit
    decide +kernel
  have hposed : Posed (linesOf serverFile) :=
    ⟨by decide +kernel, by decide +kernel, ⟨by decide +kernel, by decide +kernel⟩⟩
  exact parseArgs_complete hok hfit hposed

end Conf
end Muon
