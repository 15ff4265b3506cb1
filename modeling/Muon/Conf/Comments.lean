import Muon.Conf.ParseArgs

/-!
# Comments

`read_conf` skips a buffer that starts with `'#'`, and a buffer holds at most 1023 bytes
of a line.  A comment that does not fit goes on in the next buffer, which is read like any
other line of the file: unless it is blank, a comment again or a setting with an unknown
key, it ends the reading or changes the configuration.
-/

namespace Muon
namespace Conf

variable {lineNum : Nat} {conf : ConfT} {buf : List UInt8}

/-- What `read_conf` returns, where that is defined. -/
def Status.returned : Status → Option Int
  | .ok => some 0
  | .error _ => some (-1)
  | .outsideBuf _ => none
  | .outsidePaths _ => none

/-- The same return value and the same configuration; the number of a line in a message
may differ. -/
structure SameOutcome (outcome outcome' : Outcome) : Prop where
  returned : outcome.status.returned = outcome'.status.returned
  conf : outcome.conf = outcome'.conf

/-- White space, `'#'`, and anything up to the newline. -/
def CommentLine (line : List UInt8) : Prop :=
  newline ∉ line ∧ (line.dropWhile isspace).head? = some numberSign

instance (line : List UInt8) : Decidable (CommentLine line) := inferInstanceAs (Decidable (_ ∧ _))

/-- The comment has no effect between any two lines of any file, whatever the options of
the command line were. -/
def CommentIgnored (comment : List UInt8) : Prop :=
  ∀ (start : ConfT) (before after : List UInt8), Cleared start → 0 ∉ before ++ after →
    before.getLast? = some newline → after ≠ [] →
    SameOutcome (readConf (some (before ++ (comment ++ newline :: after))) start)
      (readConf (some (before ++ after)) start)

/-- A buffer that has no effect: it is blank, or a comment, or a setting that
`read_conf` does not know. -/
def Harmless (buf : List UInt8) : Prop :=
  Skipped (trim buf) ∨
    (keyText (trim buf) ≠ [] ∧ Separated (trim buf) ∧ keyOf (keyText (trim buf)) = none)

/-! ## The number of a line -/

theorem SameOutcome.refl (outcome : Outcome) : SameOutcome outcome outcome := ⟨rfl, rfl⟩

theorem returned_eq_zero {status : Status} (hreturned : status.returned = some 0) :
    status = .ok := by
  cases status with
  | ok => rfl
  | error message => cases hreturned
  | outsideBuf index => cases hreturned
  | outsidePaths index => cases hreturned

/-- An outcome like a successful one is the same. -/
theorem SameOutcome.eq_ok {outcome : Outcome} (hsame : SameOutcome outcome ⟨.ok, conf⟩) :
    outcome = ⟨.ok, conf⟩ := by
  obtain ⟨status, conf'⟩ := outcome
  obtain ⟨hreturned, hconf⟩ := hsame
  cases returned_eq_zero hreturned
  cases hconf
  rfl

theorem store_sameOutcome {checked checked' : Except String Int} {stored : Int → ConfT}
    (hsame : checked.toOption = checked'.toOption) :
    SameOutcome (store conf checked stored) (store conf checked' stored) := by
  cases checked with
  | ok value =>
      cases checked' with
      | ok value' =>
          cases hsame
          exact .refl _
      | error message => cases hsame
  | error message =>
      cases checked' with
      | ok value => cases hsame
      | error message' => exact ⟨rfl, rfl⟩

/-- The number of the line shows in the message only. -/
theorem assign_lineNum (lineNum lineNum' : Nat) (key value : List UInt8) (conf : ConfT) :
    SameOutcome (assign lineNum key value conf) (assign lineNum' key value conf) := by
  have hyesNo : ∀ field, (readYesNo field lineNum value).toOption =
      (readYesNo field lineNum' value).toOption := by
    intro field
    unfold readYesNo
    split
    · rfl
    · split <;> rfl
  unfold assign
  cases keyOf key with
  | none => exact .refl _
  | some known =>
      cases known with
      | user | key | tunif | address | address6 => exact .refl _
      | route => exact store_sameOutcome (hyesNo "route")
      | nat => exact store_sameOutcome (hyesNo "nat")
      | mode =>
          apply store_sameOutcome
          unfold readMode
          split
          · rfl
          · split <;> rfl
      | mtu =>
          apply store_sameOutcome
          unfold readMtu
          split
          · rfl
          · split <;> rfl
      | server =>
          dsimp only [addServer]
          split
          · split
            · exact ⟨rfl, rfl⟩
            · exact .refl _
          · exact ⟨rfl, rfl⟩
      | port =>
          dsimp only [setPort]
          split
          · exact ⟨rfl, rfl⟩
          · exact .refl _

theorem readLine_lineNum (lineNum lineNum' : Nat) (buf : List UInt8) (conf : ConfT) :
    SameOutcome (readLine lineNum buf conf) (readLine lineNum' buf conf) := by
  unfold readLine
  dsimp only
  split
  · exact .refl _
  · split
    · exact ⟨rfl, rfl⟩
    · split
      · exact .refl _
      · split
        · exact ⟨rfl, rfl⟩
        · exact assign_lineNum lineNum lineNum' _ _ conf

theorem readLines_lineNum (lineNum lineNum' : Nat) (bufs : List (List UInt8)) (conf : ConfT) :
    SameOutcome (readLines lineNum bufs conf) (readLines lineNum' bufs conf) := by
  induction bufs generalizing lineNum lineNum' conf with
  | nil => exact .refl _
  | cons buf bufs ih =>
      have hline := readLine_lineNum (lineNum + 1) (lineNum' + 1) buf conf
      rw [readLines, readLines]
      rcases hread : readLine (lineNum + 1) buf conf with ⟨status, conf'⟩
      rw [hread] at hline
      cases status with
      | ok =>
          rw [SameOutcome.eq_ok ⟨hline.returned.symm, hline.conf.symm⟩]
          exact ih _ _ conf'
      | error message | outsideBuf index | outsidePaths index =>
          rcases hread' : readLine (lineNum' + 1) buf conf with ⟨status', conf''⟩
          rw [hread'] at hline
          cases status' with
          | ok => cases hline.returned
          | error message' | outsideBuf index' | outsidePaths index' => exact hline

/-! ## Harmless buffers -/

theorem head?_ne_of_keyText {line : List UInt8} (hkey : keyText line ≠ []) :
    line.head? ≠ some equalsSign := by
  intro hhead
  obtain ⟨rest, rfl⟩ := List.head?_eq_some_iff.mp hhead
  exact hkey (List.takeWhile_cons_of_neg (by decide))

theorem readLine_of_harmless (lineNum : Nat) (conf : ConfT) (hharmless : Harmless buf) :
    readLine lineNum buf conf = ⟨.ok, conf⟩ := by
  by_cases hskip : Skipped (trim buf)
  · exact readLine_of_skipped hskip
  · obtain ⟨hkey, hseparated, hunknown⟩ := hharmless.resolve_left hskip
    have hsplit := readLine_of_significant lineNum conf hskip (head?_ne_of_keyText hkey)
    rw [hsplit.1 hseparated, assign, hunknown]

theorem readLines_of_harmless {bufs : List (List UInt8)} (hharmless : ∀ buf ∈ bufs, Harmless buf)
    (lineNum : Nat) (conf : ConfT) : readLines lineNum bufs conf = ⟨.ok, conf⟩ := by
  induction bufs generalizing lineNum with
  | nil => rfl
  | cons buf bufs ih =>
      rw [List.forall_mem_cons] at hharmless
      rw [readLines, readLine_of_harmless (lineNum + 1) conf hharmless.1]
      exact ih hharmless.2 (lineNum + 1)

/-- A comment is skipped, whatever comes after its `'#'`. -/
theorem skipped_of_comment {line : List UInt8}
    (hcomment : (line.dropWhile isspace).head? = some numberSign) : Skipped (trim line) :=
  Or.inl (head?_trim rfl (by decide) hcomment).1

/-- The buffers of a file with one line more. -/
theorem bufs_insert {before : List UInt8} (hbefore : before.getLast? = some newline)
    (comment after : List UInt8) :
    bufs (before ++ (comment ++ newline :: after)) =
      bufs before ++ (bufs (comment ++ [newline]) ++ bufs after) := by
  have hline : (comment ++ [newline]).getLast? = some newline := List.getLast?_concat
  rw [bufs_append (Or.inr hbefore), ← bufs_append (Or.inr hline), List.append_assoc]
  rfl

/-- A comment all of whose buffers are harmless is ignored. -/
theorem commentIgnored_of_harmless {comment : List UInt8}
    (hharmless : ∀ buf ∈ bufs (comment ++ [newline]), Harmless buf) : CommentIgnored comment := by
  intro start before after _ _ hbefore _
  unfold readConf
  dsimp only
  rw [bufs_insert hbefore, bufs_append (Or.inr hbefore), readLines_append, readLines_append]
  rcases readLines 0 (bufs before) start with ⟨status, conf⟩
  cases status with
  | ok =>
      dsimp only
      rw [readLines_append, readLines_of_harmless hharmless]
      exact readLines_lineNum _ _ (bufs after) conf
  | error message => exact .refl _
  | outsideBuf index => exact .refl _
  | outsidePaths index => exact .refl _

/-! ## Harmful buffers -/

/-- A line that is read is skipped, or split and stored. -/
theorem readLine_ok_cases (hok : (readLine lineNum buf conf).status = .ok) :
    (Skipped (trim buf) ∧ readLine lineNum buf conf = ⟨.ok, conf⟩) ∨
      (¬ Skipped (trim buf) ∧ keyText (trim buf) ≠ [] ∧ Separated (trim buf) ∧
        readLine lineNum buf conf =
          assign lineNum (keyText (trim buf)) (valueText (trim buf)) conf) := by
  by_cases hskip : Skipped (trim buf)
  · exact Or.inl ⟨hskip, readLine_of_skipped hskip⟩
  · have hkeyed := keyed_of_readLine_ok hok
    obtain ⟨hsplit, hrefused⟩ := readLine_of_significant lineNum conf hskip hkeyed
    have hseparated : Separated (trim buf) := by
      by_contra hnot
      exact hrefused hnot hok
    have hkey := keyText_ne_nil (fun hnil => hskip (Or.inr hnil)) hkeyed
    exact Or.inr ⟨hskip, hkey, hseparated, hsplit hseparated⟩

/-- A run over several lines reads each of them. -/
theorem readLines_cut {before after : List (List UInt8)}
    (hok : (readLines lineNum (before ++ buf :: after) conf).status = .ok) :
    ∃ conf', readLines lineNum before conf = ⟨.ok, conf'⟩ ∧
      (readLine (lineNum + before.length + 1) buf conf').status = .ok ∧
      readLines lineNum (before ++ buf :: after) conf =
        readLines (lineNum + before.length + 1) after
          (readLine (lineNum + before.length + 1) buf conf').conf := by
  rw [readLines_append] at hok ⊢
  rcases hbefore : readLines lineNum before conf with ⟨status, conf'⟩
  rw [hbefore] at hok
  cases status with
  | ok =>
      refine ⟨conf', rfl, ?_⟩
      dsimp only at hok ⊢
      rw [readLines] at hok ⊢
      rcases hline : readLine (lineNum + before.length + 1) buf conf' with ⟨status, conf''⟩
      rw [hline] at hok
      cases status with
      | ok => exact ⟨rfl, rfl⟩
      | error message => cases hok
      | outsideBuf index => cases hok
      | outsidePaths index => cases hok
  | error message => cases hok
  | outsideBuf index => cases hok
  | outsidePaths index => cases hok

/-- No line takes a path away, and a `server` line adds one. -/
theorem pathCount_assign {key value : List UInt8}
    (hok : (assign lineNum key value conf).status = .ok) :
    conf.pathCount ≤ (assign lineNum key value conf).conf.pathCount ∧
      (keyOf key = some .server → 0 < (assign lineNum key value conf).conf.pathCount) := by
  by_cases hserver : keyOf key = some .server
  · unfold assign at hok ⊢
    rw [hserver] at hok ⊢
    obtain ⟨hcount, hconf⟩ := addServer_ok hok
    dsimp only
    rw [hconf]
    exact ⟨Nat.le_succ _, fun _ => Nat.succ_pos _⟩
  · rw [(assign_keepsOthers lineNum key value conf).path_count hserver]
    exact ⟨Nat.le_refl _, fun heq => absurd heq hserver⟩

theorem pathCount_readLines {lines : List (List UInt8)}
    (hok : (readLines lineNum lines conf).status = .ok) :
    conf.pathCount ≤ (readLines lineNum lines conf).conf.pathCount := by
  induction lines using List.reverseRecOn with
  | nil => exact Nat.le_refl _
  | append_singleton lines line ih =>
      obtain ⟨conf', hbefore, hline, hrun⟩ := readLines_cut hok
      rw [hbefore] at ih
      have hle := ih rfl
      rw [hrun]
      obtain ⟨-, hread⟩ | ⟨-, -, -, hread⟩ := readLine_ok_cases hline
      · rw [hread]
        exact hle
      · rw [hread] at hline ⊢
        exact Nat.le_trans hle (pathCount_assign hline).1

/-- Whatever was there before, the last line of a key decides: what holds after such a
line, and is kept by lines with other keys, holds after every run. -/
theorem readLines_last {known : Key} (P : List UInt8 → ConfT → Prop)
    (hself : ∀ lineNum key value conf, 0 ∉ value → keyOf key = some known →
      (assign lineNum key value conf).status = .ok → P value (assign lineNum key value conf).conf)
    (hother : ∀ lineNum key value conf text, keyOf key ≠ some known → P text conf →
      P text (assign lineNum key value conf).conf)
    {lines : List (List UInt8)}
    (hmem : ∃ buf ∈ lines, ¬ Skipped (trim buf) ∧ keyOf (keyText (trim buf)) = some known) :
    ∃ text, ∀ lineNum conf, (readLines lineNum lines conf).status = .ok →
      P text (readLines lineNum lines conf).conf := by
  induction lines using List.reverseRecOn with
  | nil =>
      obtain ⟨buf, hbuf, -⟩ := hmem
      exact absurd hbuf List.not_mem_nil
  | append_singleton lines line ih =>
      by_cases hown : ¬ Skipped (trim line) ∧ keyOf (keyText (trim line)) = some known
      · -- this line is the last one of the key
        refine ⟨valueText (trim line), fun lineNum conf hok => ?_⟩
        obtain ⟨conf', -, hline, hrun⟩ := readLines_cut hok
        obtain ⟨hskip, -⟩ | ⟨-, -, -, hread⟩ := readLine_ok_cases hline
        · exact absurd hskip hown.1
        · rw [hrun, hread]
          rw [hread] at hline
          exact hself _ _ _ _ (zero_not_mem_valueText (zero_not_mem_trim line)) hown.2 hline
      · obtain ⟨buf, hbuf, hsignificant⟩ := hmem
        have hearlier : buf ∈ lines := by
          obtain hbuf | hlast := List.mem_append.mp hbuf
          · exact hbuf
          · rw [List.mem_singleton.mp hlast] at hsignificant
            exact absurd hsignificant hown
        obtain ⟨text, htext⟩ := ih ⟨buf, hearlier, hsignificant⟩
        refine ⟨text, fun lineNum conf hok => ?_⟩
        obtain ⟨conf', hbefore, hline, hrun⟩ := readLines_cut hok
        have hholds := htext lineNum conf
        rw [hbefore] at hholds
        rw [hrun]
        obtain ⟨-, hread⟩ | ⟨hskip, -, -, hread⟩ := readLine_ok_cases hline
        · rw [hread]
          exact hholds rfl
        · rw [hread]
          exact hother _ _ _ _ _ (fun heq => hown ⟨hskip, heq⟩) (hholds rfl)

/-- A file that sets a key to something else than 0. -/
def settingFile : Key → List UInt8
  | .user => ascii "user=a\n"
  | .key => ascii "key=a\n"
  | .tunif => ascii "tunif=a\n"
  | .address => ascii "address=a\n"
  | .address6 => ascii "address6=a\n"
  | .route => ascii "route=yes\n"
  | .nat => ascii "nat=yes\n"
  | .mode | .server | .port | .mtu => ascii "\n"

/-- The configuration it leaves. -/
def setting (known : Key) : ConfT := (readConf (some (settingFile known)) zeroConf).conf

/-- Lines with a known key among them change the cleared configuration, or one in which
the key is set. -/
theorem known_changes {known : Key} {lines : List (List UInt8)} {n n' : Nat}
    (hmem : ∃ buf ∈ lines, ¬ Skipped (trim buf) ∧ keyOf (keyText (trim buf)) = some known)
    (hzero : readLines n lines zeroConf = ⟨.ok, zeroConf⟩)
    (hset : readLines n' lines (setting known) = ⟨.ok, setting known⟩) : False := by
  -- a field whose value the last line decides cannot have kept two different ones
  have hfield : known ≠ .mtu → ∃ text, FieldHolds zeroConf (some text) known ∧
      FieldHolds (setting known) (some text) known := by
    intro hmtu
    obtain ⟨text, htext⟩ := readLines_last
      (fun text conf => FieldHolds conf (some text) known)
      (fun lineNum key value conf hnul hkey hok =>
        fieldHolds_assign_self hnul hkey (fun heq => absurd heq hmtu) hok)
      (fun lineNum key value conf text hother hholds => fieldHolds_assign_of_ne hother hholds)
      hmem
    have hafterZero := htext n zeroConf
    have hafterSet := htext n' (setting known)
    rw [hzero] at hafterZero
    rw [hset] at hafterSet
    exact ⟨text, hafterZero rfl, hafterSet rfl⟩
  -- a `server` line adds a path, and a `port` line needs one
  have hpaths : known = .server ∨ known = .port → False := by
    intro hknown
    obtain ⟨buf, hbuf, hskip, hkey⟩ := hmem
    obtain ⟨before, after, rfl⟩ := List.append_of_mem hbuf
    have hok := congrArg Outcome.status hzero
    obtain ⟨conf', hbefore, hline, hrun⟩ := readLines_cut hok
    obtain ⟨hskipped, -⟩ | ⟨-, -, -, hread⟩ := readLine_ok_cases hline
    · exact absurd hskipped hskip
    rw [hread] at hline hrun
    have hafter : (readLines (n + before.length + 1) after
        (assign (n + before.length + 1) (keyText (trim buf)) (valueText (trim buf)) conf').conf) =
        ⟨.ok, zeroConf⟩ := hrun.symm.trans hzero
    have hle := pathCount_readLines (congrArg Outcome.status hafter)
    rw [hafter] at hle
    have hnone : zeroConf.pathCount = 0 := rfl
    dsimp only at hle
    obtain ⟨hgrows, hadds⟩ := pathCount_assign hline
    obtain rfl | rfl := hknown
    · have hpos := hadds hkey
      omega
    · have hlast : conf'.lastPath = none := dif_neg (by omega)
      unfold assign at hline
      rw [hkey] at hline
      dsimp only [setPort] at hline
      rw [hlast] at hline
      split at hline <;> cases hline
  cases known with
  | server => exact hpaths (Or.inl rfl)
  | port => exact hpaths (Or.inr rfl)
  | mtu =>
      -- no accepted mtu is 0
      obtain ⟨-, hmtu⟩ := readLines_last (fun _ conf => conf.mtu ≠ 0)
        (fun lineNum key value conf _ hkey hok => by
          unfold assign at hok ⊢
          rw [hkey] at hok ⊢
          obtain ⟨stored, hread, hconf⟩ := store_ok hok
          have hbounds := (readMtu_ok_iff _).mp ⟨stored, hread⟩
          dsimp only
          rw [hconf]
          dsimp only
          omega)
        (fun lineNum key value conf _ hother hholds => by
          rw [(assign_keepsOthers lineNum key value conf).mtu hother]
          exact hholds)
        hmem
      have hafterZero := hmtu n zeroConf
      rw [hzero] at hafterZero
      exact hafterZero rfl rfl
  | mode =>
      obtain ⟨text, hmode, -⟩ := hfield (by decide)
      have hvalue : (0 : Int) = if text = ascii "server" then modeServer else modeClient := hmode
      split at hvalue <;> cases hvalue
  | user =>
      obtain ⟨text, hbefore, hafter⟩ := hfield (by decide)
      have hsame : zeroConf.user.text = (setting .user).user.text := hbefore.trans hafter.symm
      exact absurd hsame (by decide +kernel)
  | key =>
      obtain ⟨text, hbefore, hafter⟩ := hfield (by decide)
      have hsame : zeroConf.key.text = (setting .key).key.text := hbefore.1.trans hafter.1.symm
      exact absurd hsame (by decide +kernel)
  | tunif =>
      obtain ⟨text, hbefore, hafter⟩ := hfield (by decide)
      have hsame : zeroConf.tunif.text = (setting .tunif).tunif.text := hbefore.trans hafter.symm
      exact absurd hsame (by decide +kernel)
  | address =>
      obtain ⟨text, hbefore, hafter⟩ := hfield (by decide)
      have hsame : zeroConf.address.text = (setting .address).address.text :=
        hbefore.trans hafter.symm
      exact absurd hsame (by decide +kernel)
  | address6 =>
      obtain ⟨text, hbefore, hafter⟩ := hfield (by decide)
      have hsame : zeroConf.address6.text = (setting .address6).address6.text :=
        hbefore.trans hafter.symm
      exact absurd hsame (by decide +kernel)
  | route =>
      obtain ⟨text, hbefore, hafter⟩ := hfield (by decide)
      have hsame : zeroConf.route = (setting .route).route := hbefore.trans hafter.symm
      exact absurd hsame (by decide +kernel)
  | nat =>
      obtain ⟨text, hbefore, hafter⟩ := hfield (by decide)
      have hsame : zeroConf.nat = (setting .nat).nat := hbefore.trans hafter.symm
      exact absurd hsame (by decide +kernel)

/-! ## Exactly the harmless comments -/

/-- What an ignored comment does to a file that is read: nothing. -/
theorem CommentIgnored.unchanged {comment : List UInt8} (hignored : CommentIgnored comment)
    {before : List UInt8} (hnul : 0 ∉ before) (hbefore : before.getLast? = some newline)
    (hok : (readConf (some before) zeroConf).status = .ok) :
    ∃ n, readLines n (bufs (comment ++ [newline])) (readConf (some before) zeroConf).conf =
      ⟨.ok, (readConf (some before) zeroConf).conf⟩ := by
  -- between the last line and a blank one
  have hskipped : ∀ buf ∈ bufs [newline], Skipped (trim buf) := by decide
  have hblank : ∀ lineNum conf, readLines lineNum (bufs [newline]) conf = ⟨.ok, conf⟩ :=
    readLines_of_harmless fun buf hbuf => Or.inl (hskipped buf hbuf)
  have hsame := hignored zeroConf before [newline] cleared_zeroConf
    (by simpa using ⟨hnul, by decide⟩) hbefore (List.cons_ne_nil _ _)
  unfold readConf at hsame hok ⊢
  dsimp only at hsame hok ⊢
  rw [bufs_insert hbefore, bufs_append (Or.inr hbefore), readLines_append, readLines_append]
    at hsame
  rcases hread : readLines 0 (bufs before) zeroConf with ⟨status, conf⟩
  rw [hread] at hsame hok
  cases hok
  dsimp only at hsame
  rw [hblank, readLines_append] at hsame
  refine ⟨0 + (bufs before).length, ?_⟩
  rcases hcomment : readLines (0 + (bufs before).length) (bufs (comment ++ [newline])) conf
    with ⟨status, conf'⟩
  rw [hcomment] at hsame
  cases status with
  | ok =>
      dsimp only at hsame
      rw [hblank] at hsame
      exact hsame.eq_ok
  | error message | outsideBuf index | outsidePaths index => cases hsame.returned

/-- **Which comments are ignored.**  A comment has no effect, between any two lines of any
file, exactly when all the buffers it fills are harmless; so every comment that fits one
buffer is ignored. -/
theorem commentIgnored_iff {comment : List UInt8} (hcomment : CommentLine comment) :
    (CommentIgnored comment ↔ ∀ buf ∈ bufs (comment ++ [newline]), Harmless buf) ∧
      (comment.length ≤ lineMax - 2 → CommentIgnored comment) := by
  constructor
  · refine ⟨fun hignored buf hbuf => ?_, commentIgnored_of_harmless⟩
    -- after a blank line the configuration is still clear
    have hblank : 0 ∉ [newline] := by decide
    obtain ⟨n, hzero⟩ := hignored.unchanged hblank rfl rfl
    obtain ⟨before, after, hsplit⟩ := List.append_of_mem hbuf
    have hok := congrArg Outcome.status hzero
    rw [hsplit] at hok
    obtain ⟨conf', -, hline, -⟩ := readLines_cut hok
    obtain ⟨hskip, -⟩ | ⟨hskip, hkey, hseparated, -⟩ := readLine_ok_cases hline
    · exact Or.inl hskip
    · refine Or.inr ⟨hkey, hseparated, ?_⟩
      cases hknown : keyOf (keyText (trim buf)) with
      | none => rfl
      | some known =>
          have hset : ∃ n', readLines n' (bufs (comment ++ [newline])) (setting known) =
              ⟨.ok, setting known⟩ := by
            apply hignored.unchanged
            · cases known <;> decide
            · cases known <;> decide
            · cases known <;> decide +kernel
          obtain ⟨n', hset⟩ := hset
          exact absurd (known_changes ⟨buf, hbuf, hskip, hknown⟩ hzero hset) not_false
  · intro hlength
    apply commentIgnored_of_harmless
    have hmax : lineMax = 1024 := rfl
    have hbufs : bufs (comment ++ [newline]) = [comment ++ [newline]] := by
      have hread := fgets_line (n := lineMax - 1) hcomment.1 (by omega) []
      rw [bufs_of_ne_nil (List.append_ne_nil_of_right_ne_nil comment (List.cons_ne_nil _ _)),
        hread, bufs_nil]
    rw [hbufs, List.forall_mem_singleton]
    left
    rw [trim_append_newline]
    exact skipped_of_comment hcomment.2

/-- A comment of two buffers whose second one is a comment again. -/
theorem commentIgnored_hashes : CommentIgnored (List.replicate 1100 numberSign) := by
  have hcomment : CommentLine (List.replicate 1100 numberSign) := by decide +kernel
  have hskipped : ∀ buf ∈ bufs (List.replicate 1100 numberSign ++ [newline]),
      Skipped (trim buf) := by decide +kernel
  exact (commentIgnored_iff hcomment).1.mpr fun buf hbuf => Or.inl (hskipped buf hbuf)

/-- A comment whose second buffer turns `nat` on. -/
theorem exists_not_commentIgnored :
    ¬ ∀ comment : List UInt8, CommentLine comment → CommentIgnored comment := by
  intro hall
  have hignored := hall (numberSign :: (List.replicate 1022 120 ++ ascii "nat=yes"))
    (by decide +kernel)
  have hsame := hignored zeroConf (ascii "mode=server\n") (ascii "mtu=1400\n")
    cleared_zeroConf (by decide +kernel) (by decide +kernel) (by decide +kernel)
  exact absurd (congrArg ConfT.nat hsame.conf) (by decide +kernel)

end Conf
end Muon
