import Muon.Conf.Branches
import Muon.Conf.Frame

/-!
# The configuration `read_conf` computes

By induction on the lines: while the lines read so far follow the grammar, `*conf`
holds what their entries stand for, and the next line is accepted exactly when the
lines with it still follow the grammar.
-/

namespace Muon
namespace Conf

open Foundation Packet

variable {start conf conf' : ConfT} {es : List Entry} {lineNum : Nat}
  {key value : List UInt8}

/-! ## What a branch stores -/

/-- Everything but the fields of scalar keys is as before. -/
structure KeepsPaths (conf conf' : ConfT) : Prop where
  paths : conf'.paths = conf.paths
  pathCount : conf'.pathCount = conf.pathCount
  daemon : conf'.daemon = conf.daemon
  pidfile : conf'.pidfile = conf.pidfile
  logfile : conf'.logfile = conf.logfile

/-- One entry more, for a key whose fields are not the paths. -/
theorem Computes.concat_field (hcomputes : Computes start es conf) {e : Entry}
    (hserver : e.key ≠ some .server) (hport : e.key ≠ some .port)
    (hkeeps : KeepsPaths conf conf')
    (hown : ∀ known, e.key = some known → FieldHolds conf' (some e.value) known)
    (hothers : ∀ known text, e.key ≠ some known → FieldHolds conf text known →
      FieldHolds conf' text known) :
    Computes start (es ++ [e]) conf' where
  fields known := by
    by_cases hkey : e.key = some known
    · rw [getLast?_values_concat es hkey]
      exact hown known hkey
    · rw [values_concat_of_ne es hkey]
      exact hothers known _ hkey (hcomputes.fields known)
  pathCount := by
    rw [hkeeps.pathCount, pathsOf_concat_other es hserver hport]
    exact hcomputes.pathCount
  paths i path hpath := by
    rw [pathsOf_concat_other es hserver hport] at hpath
    rw [hkeeps.paths]
    exact hcomputes.paths i path hpath
  unused i hi := by
    rw [pathsOf_concat_other es hserver hport] at hi
    rw [hkeeps.paths]
    exact hcomputes.unused i hi
  daemon := hkeeps.daemon.trans hcomputes.daemon
  pidfile := hkeeps.pidfile.trans hcomputes.pidfile
  logfile := hkeeps.logfile.trans hcomputes.logfile

theorem addServer_ok (hok : (addServer lineNum value conf).status = .ok) :
    ∃ hcount : conf.pathCount < pathMaxCount,
      (addServer lineNum value conf).conf =
        { conf with
          paths := Function.update conf.paths ⟨conf.pathCount, hcount⟩
            { conf.paths ⟨conf.pathCount, hcount⟩ with
              server := strncpy (conf.paths ⟨conf.pathCount, hcount⟩).server value }
          pathCount := conf.pathCount + 1
          pathCount_le := hcount } := by
  unfold addServer at hok ⊢
  by_cases hcount : conf.pathCount < pathMaxCount
  · rw [dif_pos hcount] at hok ⊢
    refine ⟨hcount, ?_⟩
    split at hok
    · cases hok
    · next hported => rw [if_neg hported]
  · rw [dif_neg hcount] at hok
    cases hok

/-- One entry more, which writes to the last element in use: the elements before it are
those of the paths before. -/
theorem Computes.concat_path (hcomputes : Computes start es conf) {e : Entry}
    {init : List PathText} {path : PathText} {i : Fin pathMaxCount} {stored : ConfPath}
    (hkey : e.key = some .server ∨ e.key = some .port)
    (hnew : pathsOf (es ++ [e]) = init ++ [path]) (hinit : init <+: pathsOf es)
    (hlength : (pathsOf es).length ≤ init.length + 1) (hi : i.val = init.length)
    (hstored : PathHolds stored path)
    (hpaths : conf'.paths = Function.update conf.paths i stored)
    (hcount : conf'.pathCount = init.length + 1)
    (hfields : ∀ known text, FieldHolds conf text known → FieldHolds conf' text known)
    (hdaemon : conf'.daemon = conf.daemon) (hpidfile : conf'.pidfile = conf.pidfile)
    (hlogfile : conf'.logfile = conf.logfile) :
    Computes start (es ++ [e]) conf' where
  fields known := by
    by_cases hown : e.key = some known
    · -- no field but the paths
      rw [hown, Option.some.injEq, Option.some.injEq] at hkey
      obtain rfl | rfl := hkey <;> trivial
    · rw [values_concat_of_ne es hown]
      exact hfields known _ (hcomputes.fields known)
  pathCount := by rw [hcount, hnew, List.length_append, List.length_singleton]
  paths j other hother := by
    rw [hnew] at hother
    rw [hpaths]
    by_cases hj : j.val = init.length
    · have hindex : j = i := Fin.ext (hj.trans hi.symm)
      rw [hj, List.getElem?_concat_length, Option.some.injEq] at hother
      subst hother
      rwa [hindex, Function.update_self]
    · have hne : j ≠ i := fun heq => hj (heq ▸ hi)
      have hbound := (List.getElem?_eq_some_iff.mp hother).1
      rw [List.length_append, List.length_singleton] at hbound
      rw [List.getElem?_append_left (by omega)] at hother
      rw [Function.update_of_ne hne]
      apply hcomputes.paths
      obtain ⟨rest, hrest⟩ := hinit
      rw [← hrest, List.getElem?_append_left (by omega)]
      exact hother
  unused j hj := by
    rw [hnew, List.length_append, List.length_singleton] at hj
    have hne : j ≠ i := fun heq => by
      rw [heq] at hj
      omega
    rw [hpaths, Function.update_of_ne hne]
    apply hcomputes.unused
    omega
  daemon := hdaemon.trans hcomputes.daemon
  pidfile := hpidfile.trans hcomputes.pidfile
  logfile := hlogfile.trans hcomputes.logfile

/-- A `server` line opens the next element of the array. -/
theorem Computes.addServer (hcomputes : Computes start es conf) (hnul : 0 ∉ value) {e : Entry}
    (hkey : e.key = some .server) (hvalue : e.value = value)
    (hok : (addServer lineNum value conf).status = .ok) :
    Computes start (es ++ [e]) (addServer lineNum value conf).conf := by
  obtain ⟨hcount, hconf⟩ := addServer_ok hok
  -- the ports of the element were never written
  have hzero := hcomputes.unused ⟨conf.pathCount, hcount⟩ (Nat.le_of_eq hcomputes.pathCount.symm)
  rw [hconf]
  apply hcomputes.concat_path (Or.inl hkey) (pathsOf_concat_server es hkey) (List.prefix_refl _)
  case hpaths => rfl
  case hlength => exact Nat.le_succ _
  case hi => exact hcomputes.pathCount
  case hstored =>
    rw [hzero, hvalue]
    exact ⟨text_strncpy _ hnul, rfl, rfl⟩
  case hcount => exact congrArg Nat.succ hcomputes.pathCount
  case hfields =>
    intro known text hholds
    cases known <;> exact hholds
  case hdaemon => rfl
  case hpidfile => rfl
  case hlogfile => rfl

/-- A `port` line sets the ports of the last element in use. -/
theorem Computes.setPort (hcomputes : Computes start es conf) {e : Entry}
    (hkey : e.key = some .port) (hvalue : e.value = value)
    (hlow : FitsInt (decimal (portTexts value).1)) (hhigh : FitsInt (decimal (portTexts value).2))
    (hok : (setPort lineNum value conf).status = .ok) :
    Computes start (es ++ [e]) (setPort lineNum value conf).conf := by
  unfold Conf.setPort at hok ⊢
  dsimp only at hok ⊢
  split at hok
  · cases hok
  next hrange =>
  rw [if_neg hrange]
  obtain hnil | ⟨init, last, hpaths⟩ := List.eq_nil_or_concat (pathsOf es)
  · rw [hcomputes.lastPath_eq_none hnil] at hok
    cases hok
  rw [List.concat_eq_append] at hpaths
  obtain ⟨i, hlast, hi, hholds⟩ := hcomputes.lastPath_eq_some hpaths
  rw [hlast]
  dsimp only
  have hlength : (pathsOf es).length = init.length + 1 := by
    rw [hpaths, List.length_append, List.length_singleton]
  apply hcomputes.concat_path (Or.inr hkey) (pathsOf_concat_port es hkey hpaths)
  case hpaths => rfl
  case hinit => exact ⟨[last], hpaths.symm⟩
  case hlength => exact Nat.le_of_eq hlength
  case hi => exact hi
  case hstored =>
    rw [atoi_of_fits hlow, atoi_of_fits hhigh, ← hvalue]
    exact ⟨hholds.server, rfl, rfl⟩
  case hcount => exact hcomputes.pathCount.trans hlength
  case hfields =>
    intro known text htext
    cases known <;> exact htext
  case hdaemon => rfl
  case hpidfile => rfl
  case hlogfile => rfl

theorem store_ok {checked : Except String Int} {assign : Int → ConfT}
    (hok : (store conf checked assign).status = .ok) :
    ∃ stored, checked = .ok stored ∧ (store conf checked assign).conf = assign stored := by
  obtain ⟨stored, rfl⟩ := store_status_iff.mp hok
  exact ⟨stored, rfl, rfl⟩

theorem readMode_eq {mode : Int} (hread : readMode lineNum value = .ok mode) :
    mode = if value = ascii "server" then modeServer else modeClient := by
  unfold readMode at hread
  split at hread
  · next hserver => rw [if_pos hserver, Except.ok.inj hread]
  · next hserver =>
      rw [if_neg hserver]
      split at hread
      · exact (Except.ok.inj hread).symm
      · cases hread

theorem readYesNo_eq {field : String} {flag : Int}
    (hread : readYesNo field lineNum value = .ok flag) :
    flag = if value = ascii "yes" then 1 else 0 := by
  unfold readYesNo at hread
  split at hread
  · next hyes => rw [if_pos hyes, Except.ok.inj hread]
  · next hyes =>
      rw [if_neg hyes]
      split at hread
      · exact (Except.ok.inj hread).symm
      · cases hread

/-- A branch touches no field of another key. -/
theorem fieldHolds_assign_of_ne {known : Key} {text : Option (List UInt8)}
    (hother : keyOf key ≠ some known) (hholds : FieldHolds conf text known) :
    FieldHolds (assign lineNum key value conf).conf text known := by
  have hkeeps := assign_keepsOthers lineNum key value conf
  cases known with
  | server => trivial
  | port => trivial
  | user =>
      show (assign lineNum key value conf).conf.user.Holds text
      rw [hkeeps.user hother]
      exact hholds
  | mode => exact (hkeeps.mode hother).trans hholds
  | key =>
      obtain ⟨htext, hklen⟩ := hholds
      have hkey := hkeeps.key hother
      constructor
      · rw [hkey]
        exact htext
      · rw [hkey, hkeeps.klen hother]
        exact hklen
  | tunif =>
      show (assign lineNum key value conf).conf.tunif.Holds text
      rw [hkeeps.tunif hother]
      exact hholds
  | mtu => exact (hkeeps.mtu hother).trans hholds
  | address =>
      show (assign lineNum key value conf).conf.address.Holds text
      rw [hkeeps.address hother]
      exact hholds
  | address6 =>
      show (assign lineNum key value conf).conf.address6.Holds text
      rw [hkeeps.address6 hother]
      exact hholds
  | route => exact (hkeeps.route hother).trans hholds
  | nat => exact (hkeeps.nat hother).trans hholds

/-- The field of the key of an accepted line holds the value of the line. -/
theorem fieldHolds_assign_self {known : Key} (hnul : 0 ∉ value) (hkey : keyOf key = some known)
    (hfits : known = .mtu → FitsInt (decimal value))
    (hok : (assign lineNum key value conf).status = .ok) :
    FieldHolds (assign lineNum key value conf).conf (some value) known := by
  unfold assign at hok ⊢
  rw [hkey] at hok ⊢
  cases known with
  | server => trivial
  | port => trivial
  | user | tunif | address | address6 => exact text_strncpy _ hnul
  | key =>
      have htext := text_memcpyTerminated conf.key
        (Nat.lt_of_le_of_lt (List.length_take_le 127 value) (by decide))
        fun hmem => hnul (List.mem_of_mem_take hmem)
      exact ⟨htext, congrArg List.length htext.symm⟩
  | mode =>
      obtain ⟨mode, hread, hconf⟩ := store_ok hok
      dsimp only
      rw [hconf]
      exact readMode_eq hread
  | mtu =>
      obtain ⟨stored, -, hconf⟩ := store_ok hok
      dsimp only at hconf ⊢
      rw [hconf]
      exact atoi_of_fits (hfits rfl)
  | route | nat =>
      obtain ⟨flag, hread, hconf⟩ := store_ok hok
      dsimp only
      rw [hconf]
      exact readYesNo_eq hread

/-- Only `server` and `port` lines touch the paths. -/
theorem keepsPaths_assign (hserver : keyOf key ≠ some .server) (hport : keyOf key ≠ some .port) :
    KeepsPaths conf (assign lineNum key value conf).conf := by
  have hkeeps := assign_keepsOthers lineNum key value conf
  exact ⟨hkeeps.paths hserver hport, hkeeps.path_count hserver, hkeeps.daemon, hkeeps.pidfile,
    hkeeps.logfile⟩

/-- An accepted line leaves what the entries with it stand for. -/
theorem Computes.assign (hcomputes : Computes start es conf) (hnul : 0 ∉ value)
    (hposed : EntryPosed es ⟨keyOf key, value⟩)
    (hok : (assign lineNum key value conf).status = .ok) :
    Computes start (es ++ [⟨keyOf key, value⟩]) (assign lineNum key value conf).conf := by
  by_cases hserver : keyOf key = some .server
  · unfold Conf.assign at hok ⊢
    rw [hserver] at hok ⊢
    exact hcomputes.addServer hnul rfl rfl hok
  by_cases hport : keyOf key = some .port
  · obtain ⟨hlow, hhigh⟩ := hposed.port hport
    unfold Conf.assign at hok ⊢
    rw [hport] at hok ⊢
    exact hcomputes.setPort rfl rfl hlow hhigh hok
  · apply hcomputes.concat_field hserver hport (keepsPaths_assign hserver hport)
    · intro known hkey
      exact fieldHolds_assign_self hnul hkey (fun hmtu => hposed.mtu (hmtu ▸ hkey)) hok
    · intro known text hne hholds
      exact fieldHolds_assign_of_ne hne hholds

/-! ## One line -/

theorem zero_not_mem_trim (buf : List UInt8) : 0 ∉ trim buf := by
  intro hmem
  have hdropped := (List.rdropWhile_prefix isspace _).subset hmem
  exact zero_not_mem_cString buf ((List.dropWhile_sublist isspace).subset hdropped)

theorem zero_not_mem_valueText {line : List UInt8} (hnul : 0 ∉ line) : 0 ∉ valueText line := by
  intro hmem
  exact hnul ((List.dropWhile_sublist _).subset (List.mem_of_mem_tail hmem))

/-- A line that does not start with its `'='` has something before it. -/
theorem keyText_ne_nil {line : List UInt8} (hline : line ≠ [])
    (hkeyed : line.head? ≠ some equalsSign) : keyText line ≠ [] := by
  cases line with
  | nil => exact absurd rfl hline
  | cons b line =>
      have hb : b ≠ equalsSign := fun heq => hkeyed (congrArg some heq)
      rw [keyText, List.takeWhile_cons_of_pos (by simpa using hb)]
      exact List.cons_ne_nil b _

theorem readLine_of_skipped {buf : List UInt8} (hskip : Skipped (trim buf)) :
    readLine lineNum buf conf = ⟨.ok, conf⟩ := by
  unfold readLine
  exact if_pos hskip

/-- A significant line is split when it is separated, and refused otherwise. -/
theorem readLine_of_significant (lineNum : Nat) (conf : ConfT) {buf : List UInt8}
    (hskip : ¬ Skipped (trim buf)) (hkeyed : (trim buf).head? ≠ some equalsSign) :
    (Separated (trim buf) → readLine lineNum buf conf =
      assign lineNum (keyText (trim buf)) (valueText (trim buf)) conf) ∧
    (¬ Separated (trim buf) → (readLine lineNum buf conf).status ≠ .ok) := by
  have hkey := keyText_ne_nil (fun hnil => hskip (Or.inr hnil)) hkeyed
  -- `p[-1]` is a byte of the line
  have hbefore : (lead buf ++ keyText (trim buf)).getLast? =
      some ((keyText (trim buf)).getLast hkey) := by
    rw [List.getLast?_append, List.getLast?_eq_some_getLast hkey]
    rfl
  have hafter : isspace ((valueText (trim buf)).headD 0) = false ↔
      ∀ b ∈ (valueText (trim buf)).head?, isspace b = false := by
    cases valueText (trim buf) with
    | nil => exact ⟨fun _ => nofun, fun _ => rfl⟩
    | cons b rest =>
        simp only [List.headD_cons, List.head?_cons, Option.mem_def, Option.some.injEq, forall_eq']
  unfold readLine
  dsimp only
  rw [if_neg hskip, hbefore]
  constructor
  · rintro ⟨hequals, hspaceBefore, hspaceAfter⟩
    have hkept := hspaceBefore _ (List.getLast?_eq_some_getLast hkey)
    rw [if_neg (not_not.mpr hequals)]
    dsimp only
    rw [hkept, hafter.mpr hspaceAfter]
    exact if_neg (by decide)
  · intro hnot hok
    apply hnot
    split at hok
    · cases hok
    next hequals =>
    dsimp only at hok
    split at hok
    · cases hok
    next hspace =>
    rw [not_or, Bool.not_eq_true, Bool.not_eq_true] at hspace
    refine ⟨not_not.mp hequals, ?_, hafter.mp hspace.2⟩
    intro b hb
    rw [Option.mem_def, List.getLast?_eq_some_getLast hkey, Option.some.injEq] at hb
    exact hb ▸ hspace.1

/-! ## All lines -/

theorem entries_singleton_of_skipped {line : List UInt8} (hskip : Skipped (trim line)) :
    entries [line] = [] := by
  rw [entries, significant_singleton_of_skipped hskip, List.filterMap_nil]

theorem entries_singleton {line : List UInt8} (hskip : ¬ Skipped (trim line))
    (hequals : equalsSign ∈ trim line) :
    entries [line] = [⟨keyOf (keyText (trim line)), valueText (trim line)⟩] := by
  rw [entries, significant_singleton hskip, List.filterMap_cons, entryOf, if_pos hequals,
    List.filterMap_nil]

/-- What a file promises of its lines, it promises of the next entry. -/
theorem Posed.entryPosed {lines : List (List UInt8)} {line : List UInt8}
    (hposed : Posed (lines ++ [line])) {e : Entry} (hentry : entries [line] = [e]) :
    EntryPosed (entries lines) e := by
  have hentries : entries (lines ++ [line]) = entries lines ++ [e] := by
    rw [entries_append, hentry]
  have hmem : ∀ known, e.key = some known →
      e.value ∈ values (entries (lines ++ [line])) known := by
    intro known hkey
    rw [hentries, values_append, values_singleton_of_eq hkey]
    exact List.mem_append_right _ (List.mem_singleton_self e.value)
  refine ⟨fun hport hnil => ?_, fun hkey => hposed.numbers_fit.mtu _ (hmem .mtu hkey),
    fun hkey => hposed.numbers_fit.port _ (hmem .port hkey)⟩
  obtain ⟨earlier, hearlier, hserver⟩ := hposed.ports_follow _ e [] hentries hport
  exact pathsOf_eq_nil_iff.mp hnil earlier hearlier hserver

/-- One line more. -/
theorem readLine_step {lines : List (List UInt8)} {line : List UInt8}
    (hposed : Posed (lines ++ [line])) (haccepted : Accepted lines)
    (hcomputes : Computes start (entries lines) conf) :
    ((readLine lineNum line conf).status = .ok ↔ Accepted (lines ++ [line])) ∧
      ((readLine lineNum line conf).status = .ok →
        Computes start (entries (lines ++ [line])) (readLine lineNum line conf).conf) := by
  have hkeyed := hposed.keyed line (List.mem_append_right lines (List.mem_singleton_self line))
  by_cases hskip : Skipped (trim line)
  · -- nothing is read, and nothing is said
    have hentries : entries (lines ++ [line]) = entries lines := by
      rw [entries_append, entries_singleton_of_skipped hskip, List.append_nil]
    have hsignificant : significant (lines ++ [line]) = significant lines := by
      rw [significant_append, significant_singleton_of_skipped hskip, List.append_nil]
    rw [readLine_of_skipped hskip, hentries]
    refine ⟨⟨fun _ => ⟨?_, ?_⟩, fun _ => rfl⟩, fun _ => hcomputes⟩
    · rw [hsignificant]
      exact haccepted.separated
    · rw [hentries]
      exact haccepted.entries
  have hsignificant : significant (lines ++ [line]) = significant lines ++ [trim line] := by
    rw [significant_append, significant_singleton hskip]
  obtain ⟨hsplit, hrefused⟩ := readLine_of_significant lineNum conf hskip hkeyed
  by_cases hseparated : Separated (trim line)
  · have hentry := entries_singleton hskip hseparated.has_equals
    have hentryPosed := hposed.entryPosed hentry
    rw [hsplit hseparated, entries_append, hentry]
    constructor
    · rw [assign_status_iff, hcomputes.entryFits_iff hentryPosed]
      constructor
      · intro hallowed
        constructor
        · rw [hsignificant, List.forall_mem_append, List.forall_mem_singleton]
          exact ⟨haccepted.separated, hseparated⟩
        · rw [entries_append, hentry]
          exact (entriesAccepted_concat _ _).mpr ⟨haccepted.entries, hallowed⟩
      · intro hall
        have hentries := hall.entries
        rw [entries_append, hentry] at hentries
        exact ((entriesAccepted_concat _ _).mp hentries).2
    · exact hcomputes.assign (zero_not_mem_valueText (zero_not_mem_trim line)) hentryPosed
  · have hnot := hrefused hseparated
    refine ⟨⟨fun hok => absurd hok hnot, fun hall => ?_⟩, fun hok => absurd hok hnot⟩
    have hlast := hall.separated
    rw [hsignificant, List.forall_mem_append, List.forall_mem_singleton] at hlast
    exact absurd hlast.2 hseparated

/-- Lines that come before accepted ones are accepted. -/
theorem Accepted.left {lines : List (List UInt8)} {line : List UInt8}
    (haccepted : Accepted (lines ++ [line])) : Accepted lines where
  separated other hother := haccepted.separated other (by
    rw [significant_append]
    exact List.mem_append_left _ hother)
  entries := by
    have hall := haccepted.entries
    rw [entries_append] at hall
    cases hentry : Conf.entries [line] with
    | nil =>
        rw [hentry, List.append_nil] at hall
        exact hall
    | cons e rest =>
        -- a line has at most one entry
        have hrest : rest = [] := by
          by_cases hskip : Skipped (trim line)
          · rw [entries_singleton_of_skipped hskip] at hentry
            cases hentry
          · rw [Conf.entries, significant_singleton hskip, List.filterMap_cons] at hentry
            split at hentry
            · cases hentry
            · exact (List.cons.inj hentry).2.symm
        rw [hentry, hrest] at hall
        exact ((entriesAccepted_concat _ e).mp hall).1

theorem entriesAccepted_nil : EntriesAccepted [] where
  mode := nofun
  route := nofun
  nat := nofun
  mtu := nofun
  port := nofun
  servers := Nat.zero_le _
  ported := nofun

/-- The whole run: the lines are accepted exactly when they follow the grammar, and
the configuration is then the one they stand for. -/
theorem readLines_run (hstart : Computes start [] start) {lines : List (List UInt8)}
    (hposed : Posed lines) :
    ((readLines 0 lines start).status = .ok ↔ Accepted lines) ∧
      ((readLines 0 lines start).status = .ok →
        Computes start (entries lines) (readLines 0 lines start).conf) := by
  induction lines using List.reverseRecOn with
  | nil => exact ⟨⟨fun _ => ⟨nofun, entriesAccepted_nil⟩, fun _ => rfl⟩, fun _ => hstart⟩
  | append_singleton lines line ih =>
      obtain ⟨hstatus, hconf⟩ := ih hposed.left
      rw [readLines_append_singleton]
      rcases hread : readLines 0 lines start with ⟨status, conf⟩
      rw [hread] at hstatus hconf
      by_cases hok : status = .ok
      · -- everything before is read: one step
        subst hok
        exact readLine_step hposed (hstatus.mp rfl) (hconf rfl)
      · -- the reading ended before this line
        have hrefused : ¬ Accepted (lines ++ [line]) := fun hall => hok (hstatus.mpr hall.left)
        cases status with
        | ok => exact absurd rfl hok
        | error message => exact ⟨⟨nofun, fun hall => absurd hall hrefused⟩, nofun⟩
        | outsideBuf index => exact ⟨⟨nofun, fun hall => absurd hall hrefused⟩, nofun⟩
        | outsidePaths index => exact ⟨⟨nofun, fun hall => absurd hall hrefused⟩, nofun⟩

/-- The cleared configuration is what no line at all stands for. -/
theorem computes_zeroConf : Computes zeroConf [] zeroConf where
  fields known := by
    cases known <;> first | rfl | trivial
  pathCount := rfl
  paths := nofun
  unused _ _ := rfl
  daemon := rfl
  pidfile := rfl
  logfile := rfl

/-- **What `read_conf` accepts and computes.**  For a file whose lines fit the buffer,
it returns 0 exactly on the grammar, and then leaves the configuration the file stands
for. -/
theorem readConf_grammar {file : List UInt8} (hfit : LinesFit file)
    (hposed : Posed (linesOf file)) :
    ((readConf (some file) zeroConf).status = .ok ↔ Accepted (linesOf file)) ∧
      ((readConf (some file) zeroConf).status = .ok →
        Computes zeroConf (entries (linesOf file)) (readConf (some file) zeroConf).conf) := by
  rw [readConf_lines hfit]
  exact readLines_run computes_zeroConf hposed

/-- The lines of a client with two paths. -/
def clientFile : List UInt8 :=
  ascii "# client\n\n" ++ ascii "mode=client\n" ++ ascii " server=10.0.0.1\n" ++
    ascii "port=3000-3900\n" ++ ascii "color=red\n" ++ ascii "server=b\n" ++ ascii "mtu=1400"

theorem readConf_grammar_clientFile :
    Accepted (linesOf clientFile) ∧
      Computes zeroConf (entries (linesOf clientFile))
        (readConf (some clientFile) zeroConf).conf := by
  have hfit : LinesFit clientFile := by
    unfold LinesFit
    decide +kernel
  have hposed : Posed (linesOf clientFile) :=
    ⟨by decide +kernel, by decide +kernel, ⟨by decide +kernel, by decide +kernel⟩⟩
  have hok : (readConf (some clientFile) zeroConf).status = .ok := by decide +kernel
  obtain ⟨hstatus, hconf⟩ := readConf_grammar hfit hposed
  exact ⟨hstatus.mp hok, hconf hok⟩

end Conf
end Muon
