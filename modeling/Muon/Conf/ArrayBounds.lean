import Muon.Conf.Buffer
import Muon.Conf.Comments

/-!
# The arrays of `read_conf`

Two accesses can leave an array.  `p[-1]` is in front of `buf` when a buffer starts with
`'='`, and `paths[path_count - 1]` is in front of `conf->paths` when a `port` line comes
before any `server` line.  Whether `read_conf` gets to such a line is decided by the
lines before it, which must all be taken.
-/

namespace Muon
namespace Conf

open Foundation Packet

variable {lineNum : Nat} {conf conf' : ConfT} {buf : List UInt8} {es : List Entry}

/-- The key of a line, if `read_conf` knows it. -/
def ownKey (buf : List UInt8) : Option Key := keyOf (keyText (trim buf))

/-- No access leaves its array, so that the file is read or reported; and a line of it,
wherever it is read, changes the fields of its own key only. -/
structure StaysInside (start : ConfT) (file : List UInt8) : Prop where
  inside : ∀ stale, ∃ outcome, readConfAt stale (some file) start = .ok outcome ∧
    outcome.status.returned ≠ none
  keeps : ∀ (stale : CharArray lineMax) (lineNum : Nat) (conf : ConfT) (outcome : Outcome),
    ∀ buf ∈ bufs file, ∀ hroom : buf.length < lineMax,
      readLineAt lineNum (memcpyTerminated stale buf hroom).bytes conf = .ok outcome →
        KeepsOthers (ownKey buf) conf outcome.conf

/-! ## The condition -/

/-- `port[0]` as it is stored, 0 while there is no `port` line. -/
def PathText.stored (path : PathText) : Int :=
  path.port.elim 0 fun value => atoi (portTexts value).1

/-- `read_conf` takes an entry after the entries `es`. -/
structure EntryTaken (es : List Entry) (e : Entry) : Prop where
  mode : e.key = some .mode → e.value = ascii "server" ∨ e.value = ascii "client"
  route : e.key = some .route → e.value = ascii "yes" ∨ e.value = ascii "no"
  nat : e.key = some .nat → e.value = ascii "yes" ∨ e.value = ascii "no"
  mtu : e.key = some .mtu → 1024 ≤ atoi e.value ∧ atoi e.value ≤ payloadMax
  port : e.key = some .port →
    pathsOf es ≠ [] ∧ atoi (portTexts e.value).1 ≤ atoi (portTexts e.value).2
  server : e.key = some .server →
    (pathsOf es).length < pathMaxCount ∧ ∀ path ∈ (pathsOf es).getLast?, path.stored ≠ 0

/-- It takes a buffer after the buffers `before`. -/
def BufTaken (before : List (List UInt8)) (buf : List UInt8) : Prop :=
  Skipped (trim buf) ∨ (keyText (trim buf) ≠ [] ∧ Separated (trim buf) ∧
    EntryTaken (entries before) ⟨ownKey buf, valueText (trim buf)⟩)

/-- It takes all of them. -/
def BufsTaken (bufs : List (List UInt8)) : Prop :=
  ∀ before buf after, bufs = before ++ buf :: after → BufTaken before buf

/-- A buffer does not start with `'='`, and a `port` line comes after some `server` line
or has its range refused. -/
structure BufInside (before : List (List UInt8)) (buf : List UInt8) : Prop where
  keyed : buf.head? ≠ some equalsSign
  follows : Separated (trim buf) → ownKey buf = some .port →
    atoi (portTexts (valueText (trim buf))).1 ≤ atoi (portTexts (valueText (trim buf))).2 →
      ∃ earlier ∈ entries before, earlier.key = some .server

/-- Every buffer that `read_conf` gets to is such. -/
def KeysPlaced (file : List UInt8) : Prop :=
  ∀ before buf after, bufs file = before ++ buf :: after → BufsTaken before →
    BufInside before buf

/-! ## One line -/

theorem checked_eq_ok {outcome outcome' : Outcome} :
    outcome.checked = .ok outcome' ↔ outcome' = outcome ∧ outcome.status.returned ≠ none := by
  obtain ⟨status, conf⟩ := outcome
  cases status with
  | ok | error message =>
      constructor
      · intro heq
        exact ⟨(Except.ok.inj heq).symm, Option.some_ne_none _⟩
      · rintro ⟨rfl, -⟩
        rfl
  | outsideBuf index | outsidePaths index =>
      exact ⟨nofun, fun hboth => absurd rfl hboth.2⟩

/-- A buffer that starts with `'='` is not cut in front. -/
theorem head?_trim_of_equalsSign (hhead : buf.head? = some equalsSign) :
    (trim buf).head? = some equalsSign ∧ lead buf = [] := by
  obtain ⟨rest, rfl⟩ := List.head?_eq_some_iff.mp hhead
  have hfirst : ((equalsSign :: rest).dropWhile isspace).head? = some equalsSign := rfl
  obtain ⟨htrim, hlead⟩ := head?_trim rfl (by decide) hfirst
  exact ⟨htrim, hlead⟩

/-- There is nothing in front of the `'='` when it is the first byte of the buffer. -/
theorem lead_keyText_eq_nil_iff (hmem : equalsSign ∈ trim buf) :
    lead buf ++ keyText (trim buf) = [] ↔ buf.head? = some equalsSign := by
  constructor
  · intro hnil
    obtain ⟨hlead, hkey⟩ := List.append_eq_nil_iff.mp hnil
    have hline : trim buf = equalsSign :: valueText (trim buf) := by
      conv_lhs => rw [eq_takeWhile_cons_tail hmem]
      change keyText (trim buf) ++ _ = _
      rw [hkey]
      rfl
    -- nothing is cut in front
    have hwhole := List.takeWhile_append_dropWhile (p := isspace) (l := cString buf)
    change lead buf ++ _ = _ at hwhole
    rw [hlead, List.nil_append] at hwhole
    have hprefix : trim buf <+: buf := by
      refine (List.rdropWhile_prefix isspace _).trans ?_
      rw [hwhole]
      exact List.takeWhile_prefix _
    obtain ⟨rest, hrest⟩ := hprefix
    rw [← hrest, hline]
    rfl
  · intro hhead
    obtain ⟨htrim, hlead⟩ := head?_trim_of_equalsSign hhead
    obtain ⟨value, hvalue⟩ := List.head?_eq_some_iff.mp htrim
    rw [hlead, hvalue]
    rfl

/-- Which branch can leave an array. -/
theorem returned_assign (lineNum : Nat) (key value : List UInt8) (conf : ConfT) :
    (assign lineNum key value conf).status.returned = none ↔
      keyOf key = some .port ∧ atoi (portTexts value).1 ≤ atoi (portTexts value).2 ∧
        conf.pathCount = 0 := by
  by_cases hport : keyOf key = some .port
  · have hassign : assign lineNum key value conf = setPort lineNum value conf := by
      unfold assign
      rw [hport]
    rw [hassign]
    unfold setPort
    dsimp only
    split
    · next hrange =>
        refine iff_of_false ?_ fun hboth => Int.not_le.mpr hrange hboth.2.1
        intro hleaves
        cases hleaves
    · next hrange =>
        unfold ConfT.lastPath
        split
        · next hlast =>
            have hzero : conf.pathCount = 0 := by
              split at hlast
              · cases hlast
              · omega
            exact iff_of_true rfl ⟨hport, Int.not_lt.mp hrange, hzero⟩
        · next last hlast =>
            refine iff_of_false (Option.some_ne_none _) ?_
            rintro ⟨-, -, hzero⟩
            rw [dif_neg (by omega)] at hlast
            cases hlast
  · have hinside := (checked_eq_ok.mp (checked_assign hport lineNum value conf)).2
    exact iff_of_false hinside fun hboth => hport hboth.1

theorem keyOf_eq_some {key : List UInt8} {known : Key} (hkey : keyOf key = some known) :
    key = ascii known.name := by
  have hfound := List.find?_some hkey
  exact beq_iff_eq.mp hfound

/-- A line with a known key is not skipped, and its key is not empty. -/
theorem significant_of_ownKey {known : Key} (hkey : ownKey buf = some known) :
    ¬ Skipped (trim buf) ∧ keyText (trim buf) ≠ [] := by
  have htext : keyText (trim buf) = ascii known.name := keyOf_eq_some hkey
  constructor
  · rintro (hcomment | hblank)
    · obtain ⟨rest, hline⟩ := List.head?_eq_some_iff.mp hcomment
      rw [hline, keyText, List.takeWhile_cons_of_pos (by decide)] at htext
      have hhead := congrArg List.head? htext
      cases known <;> cases hhead
    · rw [hblank] at htext
      cases known <;> cases htext
  · rw [htext]
    cases known <;> exact List.cons_ne_nil _ _

/-- The test for white space, as the grammar has it. -/
theorem separated_iff (hmem : equalsSign ∈ trim buf) (hkey : keyText (trim buf) ≠ [])
    {before : UInt8} (hbefore : (lead buf ++ keyText (trim buf)).getLast? = some before) :
    Separated (trim buf) ↔
      ¬ (isspace before = true ∨ isspace ((valueText (trim buf)).headD 0) = true) := by
  have hlast : (keyText (trim buf)).getLast? = some before := by
    rw [List.getLast?_append, List.getLast?_eq_some_getLast hkey] at hbefore
    rw [List.getLast?_eq_some_getLast hkey]
    exact hbefore
  rw [not_or, Bool.not_eq_true, Bool.not_eq_true]
  constructor
  · intro hseparated
    refine ⟨hseparated.before before hlast, ?_⟩
    cases hvalue : valueText (trim buf) with
    | nil => rfl
    | cons b value =>
        apply hseparated.after
        rw [hvalue]
        rfl
  · rintro ⟨hspace, hafter⟩
    refine ⟨hmem, ?_, ?_⟩
    · intro b hb
      rw [hlast] at hb
      cases hb
      exact hspace
    · intro b hb
      cases hvalue : valueText (trim buf) with
      | nil =>
          rw [hvalue] at hb
          cases hb
      | cons c value =>
          rw [hvalue] at hb hafter
          cases hb
          exact hafter

/-- Which line can leave an array. -/
theorem returned_readLine (lineNum : Nat) (buf : List UInt8) (conf : ConfT) :
    (readLine lineNum buf conf).status.returned = none ↔
      buf.head? = some equalsSign ∨ (Separated (trim buf) ∧ ownKey buf = some .port ∧
        atoi (portTexts (valueText (trim buf))).1 ≤ atoi (portTexts (valueText (trim buf))).2 ∧
        conf.pathCount = 0) := by
  have hfirst : buf.head? = some equalsSign → (trim buf).head? = some equalsSign :=
    fun hhead => (head?_trim_of_equalsSign hhead).1
  unfold readLine
  dsimp only
  by_cases hskip : Skipped (trim buf)
  · rw [if_pos hskip]
    refine iff_of_false (Option.some_ne_none _) ?_
    rintro (hhead | ⟨-, hkey, -⟩)
    · rcases hskip with hcomment | hblank
      · rw [hfirst hhead] at hcomment
        cases hcomment
      · have hempty := hfirst hhead
        rw [hblank] at hempty
        cases hempty
    · exact (significant_of_ownKey hkey).1 hskip
  rw [if_neg hskip]
  by_cases hmem : equalsSign ∈ trim buf
  · rw [if_neg (not_not.mpr hmem)]
    cases hlast : (lead buf ++ keyText (trim buf)).getLast? with
    | none =>
        exact iff_of_true rfl
          (Or.inl ((lead_keyText_eq_nil_iff hmem).mp (List.getLast?_eq_none_iff.mp hlast)))
    | some before =>
        have hhead : ¬ buf.head? = some equalsSign := by
          intro hhead
          rw [(lead_keyText_eq_nil_iff hmem).mpr hhead] at hlast
          cases hlast
        dsimp only
        rw [or_iff_right hhead]
        by_cases hspace : isspace before = true ∨ isspace ((valueText (trim buf)).headD 0) = true
        · rw [if_pos hspace]
          refine iff_of_false (Option.some_ne_none _) ?_
          rintro ⟨hseparated, hkey, -⟩
          exact (separated_iff hmem (significant_of_ownKey hkey).2 hlast).mp hseparated hspace
        · rw [if_neg hspace, returned_assign]
          constructor
          · rintro ⟨hkey, hports⟩
            exact ⟨(separated_iff hmem (significant_of_ownKey hkey).2 hlast).mpr hspace, hkey,
              hports⟩
          · rintro ⟨-, hports⟩
            exact hports
  · rw [if_pos hmem]
    refine iff_of_false (Option.some_ne_none _) ?_
    rintro (hhead | ⟨hseparated, -⟩)
    · exact hmem (List.mem_of_mem_head? (hfirst hhead))
    · exact hmem hseparated.has_equals

/-- A line changes the fields of its own key only. -/
theorem readLine_keepsOthers (lineNum : Nat) (buf : List UInt8) (conf : ConfT) :
    KeepsOthers (ownKey buf) conf (readLine lineNum buf conf).conf := by
  unfold readLine
  dsimp only
  split
  · exact .refl _ conf
  · split
    · exact .refl _ conf
    · split
      · exact .refl _ conf
      · split
        · exact .refl _ conf
        · exact assign_keepsOthers lineNum _ _ conf

/-! ## The paths of the lines so far -/

/-- The paths of the array are those of the entries, as far as `read_conf` looks at them. -/
structure Tracks (es : List Entry) (conf : ConfT) : Prop where
  pathCount : conf.pathCount = (pathsOf es).length
  last : ∀ path ∈ (pathsOf es).getLast?, ∀ i ∈ conf.lastPath,
    (conf.paths i).portLow = path.stored
  unused : ∀ i : Fin pathMaxCount, conf.pathCount ≤ i → (conf.paths i).portLow = 0

theorem Tracks.of_cleared (hcleared : Cleared conf) : Tracks [] conf where
  pathCount := hcleared.pathCount
  last := nofun
  unused i hi := by
    rw [hcleared.unused i (Nat.zero_le _)]
    rfl

theorem val_of_lastPath {i : Fin pathMaxCount} (hi : conf.lastPath = some i) :
    i.val + 1 = conf.pathCount := by
  unfold ConfT.lastPath at hi
  split at hi
  · next hcount =>
      cases hi
      exact Nat.sub_add_cancel hcount
  · cases hi

/-- What fits is what is to be taken. -/
theorem Tracks.entryFits_iff (htracks : Tracks es conf) {e : Entry} :
    EntryFits conf e ↔ EntryTaken es e := by
  have hports := forall_lastPath_iff htracks.pathCount PathText.stored htracks.last
  have hsome := lastPath_ne_none_iff htracks.pathCount
  constructor
  · intro hfits
    exact
      { mode := hfits.mode
        route := hfits.route
        nat := hfits.nat
        mtu := hfits.mtu
        port := by
          rw [← hsome]
          exact hfits.port
        server := by
          rw [← htracks.pathCount, ← hports]
          exact hfits.server }
  · intro htaken
    exact
      { mode := htaken.mode
        route := htaken.route
        nat := htaken.nat
        mtu := htaken.mtu
        port := by
          rw [hsome]
          exact htaken.port
        server := by
          rw [htracks.pathCount, hports]
          exact htaken.server }

/-- A `server` line writes no port. -/
theorem Tracks.addServer (htracks : Tracks es conf) {e : Entry} (hkey : e.key = some .server)
    {value : List UInt8} (hok : (addServer lineNum value conf).status = .ok) :
    Tracks (es ++ [e]) (addServer lineNum value conf).conf := by
  obtain ⟨hcount, hconf⟩ := addServer_ok hok
  have hlow : ∀ i, ((Conf.addServer lineNum value conf).conf.paths i).portLow =
      (conf.paths i).portLow := by
    intro i
    rw [hconf]
    apply field_update ConfPath.portLow
    rfl
  have hpathCount : (Conf.addServer lineNum value conf).conf.pathCount = conf.pathCount + 1 := by
    rw [hconf]
  constructor
  · rw [hpathCount, pathsOf_concat_server es hkey, List.length_append, List.length_singleton,
      htracks.pathCount]
  · intro path hpath i hi
    rw [pathsOf_concat_server es hkey, List.getLast?_concat] at hpath
    cases hpath
    -- the element was not in use
    have hindex := val_of_lastPath hi
    rw [hlow]
    exact htracks.unused i (by omega)
  · intro i hi
    rw [hlow]
    exact htracks.unused i (by omega)

/-- A `port` line writes the last path. -/
theorem Tracks.setPort (htracks : Tracks es conf) {e : Entry} (hkey : e.key = some .port)
    (hok : (setPort lineNum e.value conf).status = .ok) :
    Tracks (es ++ [e]) (setPort lineNum e.value conf).conf := by
  obtain ⟨hsome, hrange⟩ := setPort_status_iff.mp hok
  obtain ⟨-, hnone⟩ | ⟨init, path, i, hinit, hlast, hi⟩ := lastPath_cases htracks.pathCount
  · exact absurd hnone hsome
  unfold Conf.setPort
  have hconcat := pathsOf_concat_port es hkey hinit
  have hcount := htracks.pathCount
  rw [hinit, List.length_append, List.length_singleton] at hcount
  dsimp only
  rw [if_neg (Int.not_lt.mpr hrange), hlast]
  constructor
  · rw [hconcat, List.length_append, List.length_singleton]
    exact hcount
  · intro path' hpath' j hj
    rw [hconcat, List.getLast?_concat] at hpath'
    cases hpath'
    have hsame : j = i := Option.some.inj (hj.symm.trans hlast)
    rw [hsame]
    show (Function.update conf.paths i _ i).portLow = _
    rw [Function.update_self]
    rfl
  · intro j hj
    have hne : j ≠ i := by
      rintro rfl
      change conf.pathCount ≤ j.val at hj
      omega
    exact (congrArg ConfPath.portLow (Function.update_of_ne hne _ _)).trans (htracks.unused j hj)

/-- One entry more. -/
theorem Tracks.concat (htracks : Tracks es conf) {key value : List UInt8}
    (hok : (assign lineNum key value conf).status = .ok) :
    Tracks (es ++ [⟨keyOf key, value⟩]) (assign lineNum key value conf).conf := by
  by_cases hserver : keyOf key = some .server
  · unfold assign at hok ⊢
    rw [hserver] at hok ⊢
    exact htracks.addServer rfl hok
  by_cases hport : keyOf key = some .port
  · unfold assign at hok ⊢
    rw [hport] at hok ⊢
    exact htracks.setPort rfl hok
  · have hkeeps := assign_keepsOthers lineNum key value conf
    have hpaths := hkeeps.paths hserver hport
    have hcount := hkeeps.path_count hserver
    constructor
    · rw [pathsOf_concat_other es hserver hport, hcount]
      exact htracks.pathCount
    · rw [pathsOf_concat_other es hserver hport]
      intro path hpath i hi
      have hlast : conf.lastPath = (assign lineNum key value conf).conf.lastPath := by
        unfold ConfT.lastPath
        simp only [hcount]
      rw [hpaths]
      exact htracks.last path hpath i (hlast ▸ hi)
    · rw [hpaths, hcount]
      exact htracks.unused

/-! ## The lines that are taken -/

/-- A buffer is taken exactly when its line is read, and the paths are tracked. -/
theorem readLine_taken (lineNum : Nat) (buf : List UInt8) {before : List (List UInt8)}
    (htracks : Tracks (entries before) conf) :
    ((readLine lineNum buf conf).status = .ok ↔ BufTaken before buf) ∧
      ((readLine lineNum buf conf).status = .ok →
        Tracks (entries (before ++ [buf])) (readLine lineNum buf conf).conf) := by
  constructor
  · constructor
    · intro hok
      obtain ⟨hskip, -⟩ | ⟨-, hkey, hseparated, hread⟩ := readLine_ok_cases hok
      · exact Or.inl hskip
      · rw [hread, assign_status_iff, htracks.entryFits_iff] at hok
        exact Or.inr ⟨hkey, hseparated, hok⟩
    · intro htaken
      by_cases hskip : Skipped (trim buf)
      · rw [readLine_of_skipped hskip]
      · obtain ⟨hkey, hseparated, hentry⟩ := htaken.resolve_left hskip
        rw [(readLine_of_significant lineNum conf hskip (head?_ne_of_keyText hkey)).1 hseparated,
          assign_status_iff, htracks.entryFits_iff]
        exact hentry
  · intro hok
    rw [entries_append]
    obtain ⟨hskip, hread⟩ | ⟨hskip, -, hseparated, hread⟩ := readLine_ok_cases hok
    · rw [entries_singleton_of_skipped hskip, List.append_nil, hread]
      exact htracks
    · rw [hread] at hok ⊢
      rw [entries_singleton hskip hseparated.has_equals]
      exact htracks.concat hok

/-- What holds at every element of a list with its predecessors. -/
theorem forall_cut_concat {α : Type} (P : List α → α → Prop) (l : List α) (a : α) :
    (∀ before b after, l ++ [a] = before ++ b :: after → P before b) ↔
      (∀ before b after, l = before ++ b :: after → P before b) ∧ P l a := by
  constructor
  · intro hall
    constructor
    · rintro before b after rfl
      exact hall before b (after ++ [a]) (by rw [List.append_assoc, List.cons_append])
    · exact hall l a [] rfl
  · rintro ⟨hinit, hlast⟩ before b after hcut
    obtain rfl | ⟨after, c, rfl⟩ := List.eq_nil_or_concat after
    · obtain ⟨rfl, hsame⟩ := List.append_inj' hcut rfl
      cases hsame
      exact hlast
    · rw [List.concat_eq_append, ← List.cons_append, ← List.append_assoc] at hcut
      obtain ⟨rfl, -⟩ := List.append_inj' hcut rfl
      exact hinit before b after rfl

/-- Several buffers are taken exactly when they are read. -/
theorem readLines_taken (hcleared : Cleared conf) (lines : List (List UInt8)) :
    ((readLines 0 lines conf).status = .ok ↔ BufsTaken lines) ∧
      ((readLines 0 lines conf).status = .ok →
        Tracks (entries lines) (readLines 0 lines conf).conf) := by
  induction lines using List.reverseRecOn with
  | nil =>
      refine ⟨iff_of_true rfl ?_, fun _ => Tracks.of_cleared hcleared⟩
      intro before buf after hcut
      exact absurd hcut.symm
        (List.append_ne_nil_of_right_ne_nil before (List.cons_ne_nil buf after))
  | append_singleton lines line ih =>
      obtain ⟨htaken, htracks⟩ := ih
      have hcut : BufsTaken (lines ++ [line]) ↔ BufsTaken lines ∧ BufTaken lines line :=
        forall_cut_concat BufTaken lines line
      rw [readLines_append_singleton, hcut, ← htaken]
      rcases hread : readLines 0 lines conf with ⟨status, conf'⟩
      rw [hread] at htracks
      cases status with
      | ok =>
          obtain ⟨hline, htracks'⟩ := readLine_taken (0 + lines.length + 1) line (htracks rfl)
          dsimp only
          rw [hline]
          refine ⟨⟨fun hlast => ⟨rfl, hlast⟩, fun hboth => hboth.2⟩, fun hok => ?_⟩
          exact htracks' (hline.mpr hok)
      | error message | outsideBuf index | outsidePaths index =>
          refine ⟨iff_of_false ?_ fun hboth => ?_, fun hok => ?_⟩
          · intro hok
            cases hok
          · cases hboth.1
          · cases hok

/-- A run that leaves an array has read every line before. -/
theorem exists_cut_of_returned {lines : List (List UInt8)}
    (hleaves : (readLines lineNum lines conf).status.returned = none) :
    ∃ before buf after conf', lines = before ++ buf :: after ∧
      readLines lineNum before conf = ⟨.ok, conf'⟩ ∧
      (readLine (lineNum + before.length + 1) buf conf').status.returned = none := by
  induction lines generalizing lineNum conf with
  | nil => cases hleaves
  | cons line lines ih =>
      rw [readLines] at hleaves
      rcases hread : readLine (lineNum + 1) line conf with ⟨status, conf'⟩
      rw [hread] at hleaves
      cases status with
      | ok =>
          obtain ⟨before, buf, after, conf'', rfl, hbefore, hline⟩ := ih hleaves
          refine ⟨line :: before, buf, after, conf'', rfl, ?_, ?_⟩
          · rw [readLines, hread]
            exact hbefore
          · rwa [List.length_cons, ← Nat.add_assoc, Nat.add_right_comm lineNum]
      | error message => cases hleaves
      | outsideBuf index | outsidePaths index =>
          refine ⟨[], line, lines, conf, rfl, rfl, ?_⟩
          rw [List.length_nil, Nat.add_zero, hread]
          rfl

/-- And a line that leaves an array ends the run so. -/
theorem returned_of_cut {before after : List (List UInt8)}
    (hbefore : readLines lineNum before conf = ⟨.ok, conf'⟩)
    (hline : (readLine (lineNum + before.length + 1) buf conf').status.returned = none) :
    (readLines lineNum (before ++ buf :: after) conf).status.returned = none := by
  rw [readLines_append, hbefore]
  dsimp only
  rw [readLines]
  rcases hread : readLine (lineNum + before.length + 1) buf conf' with ⟨status, conf''⟩
  rw [hread] at hline
  cases status with
  | ok => cases hline
  | error message => cases hline
  | outsideBuf index => rfl
  | outsidePaths index => rfl

/-- Where the lines before are taken, the next one stays inside the arrays exactly when
it is placed. -/
theorem bufInside_iff (lineNum : Nat) {before : List (List UInt8)}
    (htracks : Tracks (entries before) conf) :
    BufInside before buf ↔ (readLine lineNum buf conf).status.returned ≠ none := by
  have hservers : conf.pathCount = 0 ↔
      ¬ ∃ earlier ∈ entries before, earlier.key = some .server := by
    rw [htracks.pathCount, List.length_eq_zero_iff, pathsOf_eq_nil_iff]
    exact ⟨fun hnone hsome => hsome.elim fun e he => hnone e he.1 he.2,
      fun hnone e hmem hkey => hnone ⟨e, hmem, hkey⟩⟩
  rw [ne_eq, returned_readLine, hservers]
  constructor
  · rintro ⟨hkeyed, hfollows⟩ (hhead | ⟨hseparated, hport, hrange, hnone⟩)
    · exact hkeyed hhead
    · exact hnone (hfollows hseparated hport hrange)
  · intro hinside
    obtain ⟨hkeyed, hport⟩ := not_or.mp hinside
    refine ⟨hkeyed, fun hseparated hkey hrange => ?_⟩
    by_contra hnone
    exact hport ⟨hseparated, hkey, hrange, hnone⟩

theorem readLines_inside_iff (hcleared : Cleared conf) (file : List UInt8) :
    (readLines 0 (bufs file) conf).status.returned ≠ none ↔ KeysPlaced file := by
  constructor
  · intro hinside before buf after hcut htaken
    obtain ⟨hread, htracks⟩ := readLines_taken hcleared before
    have hok := hread.mpr htaken
    rcases hbefore : readLines 0 before conf with ⟨status, conf'⟩
    rw [hbefore] at hok htracks
    cases hok
    rw [bufInside_iff (0 + before.length + 1) (htracks rfl)]
    intro hline
    apply hinside
    rw [hcut]
    exact returned_of_cut hbefore hline
  · intro hplaced hleaves
    obtain ⟨before, buf, after, conf', hcut, hbefore, hline⟩ := exists_cut_of_returned hleaves
    obtain ⟨hread, htracks⟩ := readLines_taken hcleared before
    rw [hbefore] at hread htracks
    exact (bufInside_iff _ (htracks rfl)).mp (hplaced before buf after hcut (hread.mp rfl)) hline

/-- **When `read_conf` stays inside its arrays.**  For every file: exactly when no buffer
that it gets to starts with `'='`, and no `port` line that it gets to, and does not
refuse, comes before the first `server` line. -/
theorem readConf_staysInside_iff (start : ConfT) (hstart : Cleared start) (file : List UInt8) :
    StaysInside start file ↔ KeysPlaced file := by
  rw [← readLines_inside_iff hstart]
  constructor
  · rintro ⟨hinside, -⟩
    obtain ⟨outcome, hread, hreturned⟩ := hinside fun _ => CharArray.zero lineMax
    rw [readConfAt_eq, checked_eq_ok] at hread
    exact hread.2
  · intro hreturned
    constructor
    · intro stale
      refine ⟨readConf (some file) start, ?_, hreturned⟩
      rw [readConfAt_eq, checked_eq_ok]
      exact ⟨rfl, hreturned⟩
    · intro stale lineNum conf outcome buf _ hroom hread
      rw [readLineAt_memcpyTerminated, checked_eq_ok] at hread
      rw [hread.1]
      exact readLine_keepsOthers lineNum buf conf

/-- A path with its port. -/
def pathFile : List UInt8 := ascii "server=192.0.2.1\nport=1200\n"

/-- The `port` line comes after the `server` line. -/
theorem readConf_staysInside_pathFile : StaysInside zeroConf pathFile := by
  rw [readConf_staysInside_iff zeroConf cleared_zeroConf]
  have hbufs : bufs pathFile = [ascii "server=192.0.2.1\n", ascii "port=1200\n"] := by
    decide +kernel
  intro before buf after hcut _
  rw [hbufs] at hcut
  rcases before with _ | ⟨first, _ | ⟨second, before⟩⟩
  · cases hcut
    exact ⟨by decide, fun _ hkey => absurd hkey (by decide +kernel)⟩
  · cases hcut
    have hskip : ¬ Skipped (trim (ascii "server=192.0.2.1\n")) := by decide +kernel
    have hentry := entries_singleton hskip (by decide +kernel)
    refine ⟨by decide, fun _ _ _ => ⟨_, hentry ▸ List.mem_singleton_self _, ?_⟩⟩
    decide +kernel
  · have hrest := (List.cons.inj (List.cons.inj hcut).2).2
    exact absurd hrest.symm
      (List.append_ne_nil_of_right_ne_nil before (List.cons_ne_nil buf after))

/-- A `port` line without a path, and a line without a key. -/
theorem not_staysInside :
    ¬ StaysInside zeroConf (ascii "port=1200\n") ∧ ¬ StaysInside zeroConf (ascii "=1200\n") := by
  constructor
  · rintro ⟨hinside, -⟩
    obtain ⟨outcome, hread, hreturned⟩ := hinside fun _ => CharArray.zero lineMax
    rw [readConfAt_eq, checked_eq_ok] at hread
    exact absurd hread.2 (by decide +kernel)
  · rintro ⟨hinside, -⟩
    obtain ⟨outcome, hread, hreturned⟩ := hinside fun _ => CharArray.zero lineMax
    rw [readConfAt_eq, checked_eq_ok] at hread
    exact absurd hread.2 (by decide +kernel)

end Conf
end Muon
