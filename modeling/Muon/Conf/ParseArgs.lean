import Muon.Conf.Configuration

/-!
# The command line

`parse_args` of `conf.c` on Linux: the options, the configuration file they name, the
checks on what it left in `*conf`, and the defaults for the port and the device.
-/

namespace Muon
namespace Conf

open Foundation

/-- How `parse_args` ends. -/
inductive ArgsStatus where
  /-- It returns 0. -/
  | ok
  /-- It prints the usage and returns -1. -/
  | help
  /-- It prints the version and returns -1. -/
  | version
  /-- It prints a message on `stderr` and returns the code. -/
  | failed (code : Int) (message : List UInt8)
  /-- `read_conf` used an index outside an array: nothing is defined. -/
  | undefined
  deriving DecidableEq

/-- How it ends, and what it leaves in `*conf`. -/
structure ArgsOutcome where
  status : ArgsStatus
  conf : ConfT

/-- An option that lacks the file name after it. -/
def missingFilename (option : List UInt8) (conf : ConfT) : ArgsOutcome :=
  ⟨.failed 1 (ascii "missing filename after '" ++ option ++ ascii "'\n"), conf⟩

/-- The options `parse_args` knows. -/
inductive CommandOption where
  | help | config | daemon | pidfile | logfile | version
  deriving DecidableEq

/-- The comparisons of an argument with the known options. -/
def optionOf (arg : List UInt8) : Option CommandOption :=
  if arg = ascii "-h" ∨ arg = ascii "--help" then some .help
  else if arg = ascii "-c" ∨ arg = ascii "--config" then some .config
  else if arg = ascii "-d" ∨ arg = ascii "--daemon" then some .daemon
  else if arg = ascii "--pidfile" then some .pidfile
  else if arg = ascii "--logfile" then some .logfile
  else if arg = ascii "-V" ∨ arg = ascii "--version" then some .version
  else none

/-- The loop over the arguments after the program's name: it ends the program, or gives
the name of the configuration file. -/
def readOptions (confFile : Option (List UInt8)) (conf : ConfT) :
    (args : List (List UInt8)) → Except ArgsOutcome (Option (List UInt8) × ConfT)
  | [] => .ok (confFile, conf)
  | arg :: args =>
      match optionOf arg, args with
      | some .help, _ => .error ⟨.help, conf⟩
      | some .config, [] => .error (missingFilename arg conf)
      | some .config, name :: args => readOptions (some name) conf args
      | some .daemon, args => readOptions confFile { conf with daemon := 1 } args
      | some .pidfile, [] => .error (missingFilename arg conf)
      | some .pidfile, name :: args =>
          readOptions confFile { conf with pidfile := strncpy conf.pidfile name } args
      | some .logfile, [] => .error (missingFilename arg conf)
      | some .logfile, name :: args =>
          readOptions confFile { conf with logfile := strncpy conf.logfile name } args
      | some .version, _ => .error ⟨.version, conf⟩
      | none, _ => .error ⟨.failed (-1) (ascii "invalid option: " ++ arg ++ ascii "\n"), conf⟩

/-- The default of a path whose `port[0]` is 0. -/
def defaultPort (path : ConfPath) : ConfPath :=
  if path.portLow = 0 then { path with portLow := 1205, portHigh := 1205 } else path

/-- The loop over the paths in use. -/
def defaultPorts (conf : ConfT) : ConfT :=
  { conf with
    paths := fun i => if i < conf.pathCount then defaultPort (conf.paths i) else conf.paths i }

/-- The default of the device. -/
def defaultTunif (conf : ConfT) : ConfT :=
  if conf.tunif.text = [] then { conf with tunif := strcpy conf.tunif (ascii "vpn0") } else conf

/-- A setting that has to be there is not. -/
def notSet (message : String) (conf : ConfT) : ArgsOutcome := ⟨.failed (-1) (ascii message), conf⟩

/-- The checks after `read_conf` has returned 0. -/
def checkConf (conf : ConfT) : ArgsOutcome :=
  if conf.daemon ≠ 0 ∧ conf.pidfile.text = [] then
    notSet "pidfile not set\n" conf
  else if conf.daemon ≠ 0 ∧ conf.logfile.text = [] then
    notSet "logfile not set\n" conf
  else if conf.mode = 0 then
    notSet "mode not set in config file\n" conf
  else if conf.pathCount = 0 then
    notSet "server not set in config file\n" conf
  else if conf.key.text = [] then
    -- the ports have their defaults by now
    notSet "key not set in config file\n" (defaultPorts conf)
  else if conf.mtu = 0 then
    notSet "mtu not set in config file\n" (defaultTunif (defaultPorts conf))
  else if conf.address.text = [] ∧ conf.address6.text = [] then
    notSet "address/address6 not set in config file\n" (defaultTunif (defaultPorts conf))
  else
    ⟨.ok, defaultTunif (defaultPorts conf)⟩

/-- From the call of `read_conf` on, where `fopen` finds the given file. -/
def parseConf (file : Option (List UInt8)) (conf : ConfT) : ArgsOutcome :=
  match readConf file conf with
  | ⟨.ok, conf⟩ => checkConf conf
  | ⟨.error message, conf⟩ => ⟨.failed (-1) (ascii message), conf⟩
  | ⟨.outsideBuf _, conf⟩ => ⟨.undefined, conf⟩
  | ⟨.outsidePaths _, conf⟩ => ⟨.undefined, conf⟩

/-- `parse_args(argc, argv, conf)`.  One file is opened at most; `file` is what it
holds, `none` when it cannot be opened. -/
def parseArgs (argv : List (List UInt8)) (file : Option (List UInt8)) : ArgsOutcome :=
  match readOptions none zeroConf (argv.drop 1) with
  | .error outcome => outcome
  | .ok (none, conf) => ⟨.failed (-1) (ascii "config file not set\n"), conf⟩
  | .ok (some _, conf) => parseConf file conf

/-- A range that starts at 0 counts as unset. -/
theorem defaultPort_range {path : ConfPath} (hlow : 0 ≤ path.portLow)
    (hrange : path.portLow ≤ path.portHigh) :
    1 ≤ (defaultPort path).portLow ∧ (defaultPort path).portLow ≤ (defaultPort path).portHigh := by
  unfold defaultPort
  by_cases hzero : path.portLow = 0
  · rw [if_pos hzero]
    dsimp only
    omega
  · rw [if_neg hzero]
    omega

theorem pathCount_defaults (conf : ConfT) :
    (defaultTunif (defaultPorts conf)).pathCount = conf.pathCount := by
  unfold defaultTunif
  split <;> rfl

/-- Every path in use has its default. -/
theorem paths_defaults (conf : ConfT) {i : Fin pathMaxCount} (hi : i < conf.pathCount) :
    (defaultTunif (defaultPorts conf)).paths i = defaultPort (conf.paths i) := by
  unfold defaultTunif
  split <;> exact if_pos hi

/-! ## A successful run -/

/-- Nothing but options of the command line is set. -/
def Cleared (conf : ConfT) : Prop := Computes conf [] conf

theorem cleared_zeroConf : Cleared zeroConf := computes_zeroConf

/-- The options keep the rest of the configuration clear. -/
theorem Cleared.setOptions {conf conf' : ConfT} (hcleared : Cleared conf)
    (hfields : ∀ known text, FieldHolds conf text known → FieldHolds conf' text known)
    (hpaths : conf'.paths = conf.paths) (hcount : conf'.pathCount = conf.pathCount) :
    Cleared conf' where
  fields known := hfields known _ (hcleared.fields known)
  pathCount := hcount.trans hcleared.pathCount
  paths := nofun
  unused i hi := by
    rw [hpaths]
    exact hcleared.unused i hi
  daemon := rfl
  pidfile := rfl
  logfile := rfl

/-- When the options are read, the rest is still clear. -/
theorem readOptions_cleared {confFile name : Option (List UInt8)} {conf start : ConfT}
    {args : List (List UInt8)} (hcleared : Cleared conf)
    (hread : readOptions confFile conf args = .ok (name, start)) : Cleared start := by
  fun_induction readOptions confFile conf args with
  | case1 confFile conf =>
      cases hread
      exact hcleared
  | case4 confFile conf arg hoption name' args ih => exact ih hcleared hread
  | case5 confFile conf arg args hoption ih =>
      refine ih (hcleared.setOptions ?_ rfl rfl) hread
      intro known text hholds
      cases known <;> exact hholds
  | case7 confFile conf arg hoption name' args ih =>
      refine ih (hcleared.setOptions ?_ rfl rfl) hread
      intro known text hholds
      cases known <;> exact hholds
  | case9 confFile conf arg hoption name' args ih =>
      refine ih (hcleared.setOptions ?_ rfl rfl) hread
      intro known text hholds
      cases known <;> exact hholds
  | case2 | case3 | case6 | case8 | case10 | case11 => cases hread

/-- Options that end the program do not end it well. -/
theorem readOptions_error {confFile : Option (List UInt8)} {conf : ConfT}
    {args : List (List UInt8)} {outcome : ArgsOutcome}
    (hread : readOptions confFile conf args = .error outcome) : outcome.status ≠ .ok := by
  fun_induction readOptions confFile conf args with
  | case1 => cases hread
  | case4 confFile conf arg hoption name args ih => exact ih hread
  | case5 confFile conf arg args hoption ih => exact ih hread
  | case7 confFile conf arg hoption name args ih => exact ih hread
  | case9 confFile conf arg hoption name args ih => exact ih hread
  | case2 | case3 | case6 | case8 | case10 | case11 =>
      cases hread
      exact nofun

/-- The checks pass, and the defaults are filled in. -/
structure Checked (conf : ConfT) : Prop where
  pidfile : conf.daemon ≠ 0 → conf.pidfile.text ≠ []
  logfile : conf.daemon ≠ 0 → conf.logfile.text ≠ []
  mode : conf.mode ≠ 0
  pathCount : conf.pathCount ≠ 0
  key : conf.key.text ≠ []
  mtu : conf.mtu ≠ 0
  address : conf.address.text = [] → conf.address6.text ≠ []

theorem checkConf_ok {conf : ConfT} (hok : (checkConf conf).status = .ok) :
    Checked conf ∧ (checkConf conf).conf = defaultTunif (defaultPorts conf) := by
  unfold checkConf at hok ⊢
  split at hok
  · cases hok
  next hpidfile =>
  split at hok
  · cases hok
  next hlogfile =>
  split at hok
  · cases hok
  next hmode =>
  split at hok
  · cases hok
  next hcount =>
  split at hok
  · cases hok
  next hkey =>
  split at hok
  · cases hok
  next hmtu =>
  split at hok
  · cases hok
  next haddress =>
  refine ⟨⟨fun hdaemon hnil => hpidfile ⟨hdaemon, hnil⟩,
    fun hdaemon hnil => hlogfile ⟨hdaemon, hnil⟩, hmode, hcount, hkey, hmtu,
    fun hnil hnil6 => haddress ⟨hnil, hnil6⟩⟩, ?_⟩
  rw [if_neg hpidfile, if_neg hlogfile, if_neg hmode, if_neg hcount, if_neg hkey, if_neg hmtu,
    if_neg haddress]

/-- A run of `parse_args` that returns 0: the options name a file, which was read, and
what it left passed the checks. -/
theorem parseArgs_run {argv : List (List UInt8)} {file : Option (List UInt8)}
    (hok : (parseArgs argv file).status = .ok) :
    ∃ (name : List UInt8) (start : ConfT),
      readOptions none zeroConf (argv.drop 1) = .ok (some name, start) ∧
      (readConf file start).status = .ok ∧ Checked (readConf file start).conf ∧
      (parseArgs argv file).conf = defaultTunif (defaultPorts (readConf file start).conf) := by
  unfold parseArgs at hok ⊢
  cases hoptions : readOptions none zeroConf (argv.drop 1) with
  | error outcome =>
      rw [hoptions] at hok
      exact absurd hok (readOptions_error hoptions)
  | ok result =>
      obtain ⟨name, start⟩ := result
      rw [hoptions] at hok
      cases name with
      | none => cases hok
      | some name =>
          refine ⟨name, start, rfl, ?_⟩
          dsimp only [parseConf] at hok ⊢
          rcases hread : readConf file start with ⟨status, conf⟩
          rw [hread] at hok
          cases status with
          | ok =>
              obtain ⟨hchecked, hconf⟩ := checkConf_ok hok
              exact ⟨rfl, hchecked, hconf⟩
          | error message => cases hok
          | outsideBuf index => cases hok
          | outsidePaths index => cases hok

/-- The file is read into a clear configuration. -/
theorem parseArgs_ok {argv : List (List UInt8)} {file : Option (List UInt8)}
    (hok : (parseArgs argv file).status = .ok) :
    ∃ start : ConfT, Cleared start ∧ (readConf file start).status = .ok ∧
      Checked (readConf file start).conf ∧
      (parseArgs argv file).conf = defaultTunif (defaultPorts (readConf file start).conf) := by
  obtain ⟨name, start, hoptions, hread⟩ := parseArgs_run hok
  exact ⟨start, readOptions_cleared cleared_zeroConf hoptions, hread⟩

/-! ## What a successful run established -/

/-- A line that starts with its `'='` is never accepted. -/
theorem keyed_of_readLine_ok {lineNum : Nat} {buf : List UInt8} {conf : ConfT}
    (hok : (readLine lineNum buf conf).status = .ok) :
    (trim buf).head? ≠ some equalsSign := by
  intro hhead
  obtain ⟨rest, hline⟩ := List.head?_eq_some_iff.mp hhead
  have hskip : ¬ Skipped (equalsSign :: rest) := by
    rintro (hcomment | hblank)
    · cases hcomment
    · cases hblank
  have hkey : keyText (equalsSign :: rest) = [] := List.takeWhile_cons_of_neg (by decide)
  unfold readLine at hok
  dsimp only at hok
  rw [hline, if_neg hskip, if_neg (not_not.mpr List.mem_cons_self), hkey, List.append_nil] at hok
  cases hbefore : (lead buf).getLast? with
  | none =>
      rw [hbefore] at hok
      cases hok
  | some before =>
      -- what stands before the line is white space
      have hspace : isspace before = true :=
        List.mem_takeWhile_imp (List.mem_of_getLast? hbefore)
      rw [hbefore] at hok
      dsimp only at hok
      rw [if_pos (Or.inl hspace)] at hok
      cases hok

theorem keyed_of_readLines_ok {lineNum : Nat} {lines : List (List UInt8)} {conf : ConfT}
    (hok : (readLines lineNum lines conf).status = .ok) :
    ∀ line ∈ lines, (trim line).head? ≠ some equalsSign := by
  induction lines generalizing lineNum conf with
  | nil => exact nofun
  | cons first lines ih =>
      rw [readLines] at hok
      rcases hread : readLine (lineNum + 1) first conf with ⟨status, conf'⟩
      rw [hread] at hok
      cases status with
      | ok =>
          rw [List.forall_mem_cons]
          exact ⟨keyed_of_readLine_ok (congrArg Outcome.status hread), ih hok⟩
      | error message => cases hok
      | outsideBuf index => cases hok
      | outsidePaths index => cases hok

/-- After a run that returned 0 the buffers follow the grammar, and `*conf` holds what
they stand for, with the defaults filled in. -/
theorem parseArgs_computes {argv : List (List UInt8)} {file : List UInt8}
    (hok : (parseArgs argv (some file)).status = .ok)
    (hfollow : PortsFollow (entries (bufs file))) (hfits : NumbersFit (entries (bufs file))) :
    ∃ start conf : ConfT, Accepted (bufs file) ∧ Computes start (entries (bufs file)) conf ∧
      Checked conf ∧ (parseArgs argv (some file)).conf = defaultTunif (defaultPorts conf) := by
  obtain ⟨start, hcleared, hread, hchecked, hconf⟩ := parseArgs_ok hok
  obtain ⟨hstatus, hcomputes⟩ := readLines_run hcleared
    ⟨keyed_of_readLines_ok hread, hfollow, hfits⟩
  exact ⟨start, _, hstatus.mp hread, hcomputes hread, hchecked, hconf⟩

/-- A port in force is one of the values of the entries. -/
theorem port_mem_values {es : List Entry} {path : PathText} (hpath : path ∈ pathsOf es)
    {value : List UInt8} (hport : path.port = some value) : value ∈ values es .port := by
  induction es with
  | nil => exact absurd hpath List.not_mem_nil
  | cons e es ih =>
      have hsplit : values (e :: es) .port = values [e] .port ++ values es .port :=
        values_append [e] es .port
      rw [hsplit]
      apply List.mem_append_right
      rw [pathsOf] at hpath
      split at hpath
      · obtain rfl | hpath := List.mem_cons.mp hpath
        · have hmem := List.mem_of_getLast? hport
          exact ((List.takeWhile_sublist _).filterMap _).subset hmem
        · exact ih hpath
      · exact ih hpath

/-- An accepted range starts at 0 or later, is not empty and fits an `int`. -/
theorem EntriesAccepted.port_bounds {es : List Entry} (haccepted : EntriesAccepted es)
    (hfits : NumbersFit es) {path : PathText} (hpath : path ∈ pathsOf es) :
    0 ≤ path.low ∧ path.low ≤ path.high ∧ FitsInt path.high := by
  unfold PathText.low PathText.high
  cases hport : path.port with
  | none => exact ⟨Int.le_refl 0, Int.le_refl 0, by decide⟩
  | some value =>
      have hmem := port_mem_values hpath hport
      refine ⟨?_, haccepted.port value hmem, (hfits.port value hmem).2⟩
      -- a `'-'` would have split the value
      apply decimal_nonneg
      unfold portTexts
      split
      · intro hmem
        exact absurd (List.mem_takeWhile_imp hmem) (by decide)
      · next hnot => exact hnot

end Conf
end Muon
