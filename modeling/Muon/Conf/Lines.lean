import Muon.Conf.ReadConf

/-!
# Lines

While no line is longer than the buffer, what `fgets` stores is one line with its
newline, which trimming removes again: `read_conf` then reads the lines of the file.
-/

namespace Muon
namespace Conf

/-! ## Trimming -/

theorem cString_append_newline (line : List UInt8) :
    cString (line ++ [newline]) = cString line ∨
      cString line = line ∧ cString (line ++ [newline]) = line ++ [newline] := by
  unfold cString
  rw [List.takeWhile_append]
  split
  · next hlength =>
      exact Or.inr ⟨(List.takeWhile_prefix _).eq_of_length hlength, rfl⟩
  · exact Or.inl rfl

/-- A newline at the end is white space like any other. -/
theorem trim_append_newline (line : List UInt8) : trim (line ++ [newline]) = trim line := by
  unfold trim
  obtain hsame | ⟨hline, hlonger⟩ := cString_append_newline line
  · rw [hsame]
  · rw [hlonger, hline, List.dropWhile_append]
    split
    · next hempty =>
        rw [List.isEmpty_iff.mp hempty]
        rfl
    · exact List.rdropWhile_concat_pos isspace _ newline rfl

/-- The first byte that is no white space starts the line. -/
theorem head?_trim {buf : List UInt8} {b : UInt8} (hspace : isspace b = false) (hb : b ≠ 0)
    (hhead : (buf.dropWhile isspace).head? = some b) :
    (trim buf).head? = some b ∧ lead buf = buf.takeWhile isspace := by
  obtain ⟨rest, hrest⟩ := List.head?_eq_some_iff.mp hhead
  have hspaces : ∀ c ∈ buf.takeWhile isspace, decide (c ≠ 0) = true := by
    intro c hc
    have hspace : isspace c = true := List.mem_takeWhile_imp hc
    exact decide_eq_true fun hzero => absurd (hzero ▸ hspace) (by decide)
  have hline : cString buf = buf.takeWhile isspace ++ b :: cString rest := by
    conv_lhs => rw [← List.takeWhile_append_dropWhile (p := isspace) (l := buf), hrest]
    unfold cString
    rw [List.takeWhile_append_of_pos hspaces, List.takeWhile_cons_of_pos (by simpa using hb)]
  have hother : ¬ isspace b = true := by
    rw [hspace]
    exact Bool.false_ne_true
  constructor
  · -- the white space at the end is cut, and the byte stays
    have hdropped : (cString buf).dropWhile isspace = b :: cString rest := by
      rw [hline, List.dropWhile_append_of_pos fun c hc => List.mem_takeWhile_imp hc]
      exact List.dropWhile_cons_of_neg hother
    have hprefix := List.rdropWhile_prefix isspace (b :: cString rest)
    unfold trim
    rw [hdropped]
    cases htrim : (b :: cString rest).rdropWhile isspace with
    | nil =>
        rw [List.rdropWhile_eq_nil_iff] at htrim
        exact absurd (htrim b List.mem_cons_self) hother
    | cons c line =>
        rw [htrim] at hprefix
        rw [List.head?_cons, (List.cons_prefix_cons.mp hprefix).1]
  · unfold lead
    rw [hline, List.takeWhile_append_of_pos fun c hc => List.mem_takeWhile_imp hc,
      List.takeWhile_cons_of_neg hother, List.append_nil]

/-- The newline is not in front of a line that has something on it. -/
theorem lead_append_newline {line : List UInt8} (hline : trim line ≠ []) :
    lead (line ++ [newline]) = lead line := by
  unfold lead
  obtain hsame | ⟨htext, hlonger⟩ := cString_append_newline line
  · rw [hsame]
  · rw [hlonger, htext, List.takeWhile_append]
    split
    · next hlength =>
        -- nothing but white space: the line would be blank
        have hspace : line.takeWhile isspace = line :=
          (List.takeWhile_prefix _).eq_of_length hlength
        have hblank : line.dropWhile isspace = [] := by
          have hparts := List.takeWhile_append_dropWhile (p := isspace) (l := line)
          rw [hspace] at hparts
          exact List.append_right_eq_self.mp hparts
        have htrim : trim line = [] := by
          unfold trim
          rw [htext, hblank, List.rdropWhile_nil]
        exact absurd htrim hline
    · rfl

theorem readLine_append_newline (lineNum : Nat) (line : List UInt8) (conf : ConfT) :
    readLine lineNum (line ++ [newline]) conf = readLine lineNum line conf := by
  unfold readLine
  rw [trim_append_newline]
  by_cases hskip : Skipped (trim line)
  · simp only [if_pos hskip]
  · rw [lead_append_newline fun hempty => hskip (Or.inr hempty)]

/-- Reading an empty buffer changes nothing. -/
theorem readLine_nil (lineNum : Nat) (conf : ConfT) : readLine lineNum [] conf = ⟨.ok, conf⟩ := by
  have hblank : trim [] = [] := rfl
  unfold readLine
  exact if_pos (Or.inr hblank)

/-! ## The buffers of a file -/

/-- A line that fits is read with its newline. -/
theorem fgets_line {n : Nat} {line : List UInt8} (hline : newline ∉ line)
    (hroom : line.length < n) (rest : List UInt8) :
    fgets n (line ++ newline :: rest) = (line ++ [newline], rest) := by
  induction line generalizing n with
  | nil =>
      cases n with
      | zero => exact absurd hroom (Nat.not_lt_zero _)
      | succ n => rw [List.nil_append, fgets, if_pos rfl, List.nil_append]
  | cons b line ih =>
      cases n with
      | zero => exact absurd hroom (Nat.not_lt_zero _)
      | succ n =>
          have hb : b ≠ newline := fun heq => hline (heq ▸ List.mem_cons_self)
          have htail : newline ∉ line := fun hmem => hline (List.mem_cons_of_mem b hmem)
          rw [List.cons_append, fgets, if_neg hb, ih htail (Nat.lt_of_succ_lt_succ hroom),
            List.cons_append]

/-- So is the last one, which may have none. -/
theorem fgets_last {n : Nat} {line : List UInt8} (hline : newline ∉ line)
    (hroom : line.length ≤ n) : fgets n line = (line, []) := by
  induction line generalizing n with
  | nil => cases n <;> rfl
  | cons b line ih =>
      cases n with
      | zero => exact absurd hroom (Nat.not_succ_le_zero _)
      | succ n =>
          have hb : b ≠ newline := fun heq => hline (heq ▸ List.mem_cons_self)
          have htail : newline ∉ line := fun hmem => hline (List.mem_cons_of_mem b hmem)
          rw [fgets, if_neg hb, ih htail (Nat.le_of_succ_le_succ hroom)]

/-- The lines of a file, without their newlines. -/
def linesOf (file : List UInt8) : List (List UInt8) := file.splitOn newline

/-- Every line leaves room for its newline and the NUL in `buf`. -/
def LinesFit (file : List UInt8) : Prop := ∀ line ∈ linesOf file, line.length ≤ lineMax - 2

theorem linesOf_append (line rest : List UInt8) (hline : newline ∉ line) :
    linesOf (line ++ newline :: rest) = line :: linesOf rest :=
  List.splitOn_append_cons_self_of_not_mem hline rest

/-- Reading the buffers of a stream is reading its lines. -/
theorem readLines_chunks (fuel : Nat) {stream : List UInt8} (hfuel : stream.length ≤ fuel)
    (hfit : LinesFit stream) (lineNum : Nat) (conf : ConfT) :
    readLines lineNum (chunks fuel stream) conf = readLines lineNum (linesOf stream) conf := by
  induction fuel generalizing stream lineNum conf with
  | zero =>
      have hnil := List.eq_nil_of_length_eq_zero (Nat.le_zero.mp hfuel)
      subst hnil
      simp only [chunks, linesOf, List.splitOn_nil, readLines, readLine_nil]
  | succ fuel ih =>
      by_cases hmem : newline ∈ stream
      · -- the first line of several
        obtain ⟨line, rest, rfl, hline⟩ := List.eq_append_cons_of_mem hmem
        have hlines := linesOf_append line rest hline
        have hroom : line.length < lineMax - 1 := by
          have hle := hfit line (hlines ▸ List.mem_cons_self)
          have hmax : lineMax = 1024 := rfl
          omega
        have hrestFit : LinesFit rest := fun other hother =>
          hfit other (hlines ▸ List.mem_cons_of_mem line hother)
        have hrestFuel : rest.length ≤ fuel := by
          rw [List.length_append, List.length_cons] at hfuel
          omega
        have hchunks : chunks (fuel + 1) (line ++ newline :: rest) =
            (line ++ [newline]) :: chunks fuel rest := by
          rw [chunks, fgets_line hline hroom]
          exact List.append_ne_nil_of_right_ne_nil line (List.cons_ne_nil newline rest)
        rw [hchunks, hlines, readLines, readLines, readLine_append_newline]
        split
        · exact ih hrestFuel hrestFit _ _
        · rfl
      · -- the last line, without a newline
        have hlines : linesOf stream = [stream] := List.splitOn_eq_singleton hmem
        rw [hlines]
        cases stream with
        | nil => simp only [chunks, readLines, readLine_nil]
        | cons b stream =>
            have hroom : (b :: stream).length ≤ lineMax - 1 := by
              have hle := hfit (b :: stream) (hlines ▸ List.mem_cons_self)
              omega
            have hchunks : chunks (fuel + 1) (b :: stream) = [b :: stream] := by
              rw [chunks, fgets_last hmem hroom]
              · cases fuel <;> rfl
              · exact List.cons_ne_nil b stream
            rw [hchunks]

/-- `read_conf` reads the lines of a file whose lines fit its buffer. -/
theorem readConf_lines {file : List UInt8} (hfit : LinesFit file) (conf : ConfT) :
    readConf (some file) conf = readLines 0 (linesOf file) conf :=
  readLines_chunks file.length (Nat.le_refl _) hfit 0 conf

/-! ## Buffers of any length -/

/-- `fgets` takes at least one byte of a stream that has one. -/
theorem length_fgets_lt (n : Nat) {stream : List UInt8} (hstream : stream ≠ []) :
    (fgets (n + 1) stream).2.length < stream.length := by
  have hle : ∀ (n : Nat) (stream : List UInt8), (fgets n stream).2.length ≤ stream.length := by
    intro n stream
    fun_induction fgets n stream with
    | case1 => exact Nat.le_refl _
    | case2 => exact Nat.le_refl _
    | case3 => exact Nat.le_succ _
    | case4 n b stream hb ih => exact Nat.le_succ_of_le ih
  cases stream with
  | nil => exact absurd rfl hstream
  | cons b stream =>
      rw [fgets]
      split
      · exact Nat.lt_succ_self _
      · exact Nat.lt_succ_of_le (hle n stream)

/-- More fuel does not change the buffers. -/
theorem chunks_of_le {fuel : Nat} {stream : List UInt8} (hfuel : stream.length ≤ fuel) :
    chunks fuel stream = bufs stream := by
  have hsame : ∀ (fuel fuel' : Nat) (stream : List UInt8), stream.length ≤ fuel →
      stream.length ≤ fuel' → chunks fuel stream = chunks fuel' stream := by
    intro fuel
    induction fuel with
    | zero =>
        intro fuel' stream hfuel _
        rw [List.eq_nil_of_length_eq_zero (Nat.le_zero.mp hfuel)]
        cases fuel' <;> rfl
    | succ fuel ih =>
        intro fuel' stream hfuel hfuel'
        cases stream with
        | nil => cases fuel' <;> rfl
        | cons b stream =>
            cases fuel' with
            | zero => exact absurd hfuel' (Nat.not_succ_le_zero _)
            | succ fuel' =>
                have hlt : (fgets (lineMax - 1) (b :: stream)).2.length < (b :: stream).length :=
                  length_fgets_lt (lineMax - 2) (List.cons_ne_nil b stream)
                rw [chunks, chunks, ih fuel' _ (by omega) (by omega)]
                · exact List.cons_ne_nil b stream
                · exact List.cons_ne_nil b stream
  exact hsame fuel stream.length stream hfuel (Nat.le_refl _)

theorem bufs_nil : bufs [] = [] := rfl

/-- The first buffer, and those of the rest of the stream. -/
theorem bufs_of_ne_nil {stream : List UInt8} (hstream : stream ≠ []) :
    bufs stream = (fgets (lineMax - 1) stream).1 :: bufs (fgets (lineMax - 1) stream).2 := by
  have hlt : (fgets (lineMax - 1) stream).2.length < stream.length :=
    length_fgets_lt (lineMax - 2) hstream
  have hbufs : bufs stream = chunks (stream.length - 1 + 1) stream := by
    rw [Nat.sub_add_cancel (by omega)]
    rfl
  rw [hbufs, chunks, chunks_of_le (by omega)]
  exact hstream

/-- The buffer does not reach past the last newline. -/
theorem fgets_append (n : Nat) {before : List UInt8} (hends : before.getLast? = some newline)
    (after : List UInt8) :
    fgets n (before ++ after) = ((fgets n before).1, (fgets n before).2 ++ after) ∧
      ((fgets n before).2 = [] ∨ (fgets n before).2.getLast? = some newline) := by
  induction before generalizing n with
  | nil => cases hends
  | cons b before ih =>
      cases n with
      | zero => exact ⟨rfl, Or.inr hends⟩
      | succ n =>
          rw [List.cons_append, fgets, fgets]
          by_cases hb : b = newline
          · rw [if_pos hb, if_pos hb]
            refine ⟨rfl, ?_⟩
            cases before with
            | nil => exact Or.inl rfl
            | cons b' before => exact Or.inr (by rwa [List.getLast?_cons_cons] at hends)
          · rw [if_neg hb, if_neg hb]
            cases before with
            | nil =>
                -- the newline is still ahead
                rw [List.getLast?_singleton, Option.some.injEq] at hends
                exact absurd hends hb
            | cons b' before =>
                rw [List.getLast?_cons_cons] at hends
                obtain ⟨hread, hrest⟩ := ih n hends
                rw [hread]
                exact ⟨rfl, hrest⟩

/-- After a newline the buffers start anew. -/
theorem bufs_append {before : List UInt8} (hends : before = [] ∨ before.getLast? = some newline)
    (after : List UInt8) : bufs (before ++ after) = bufs before ++ bufs after := by
  induction hlength : before.length using Nat.strongRecOn generalizing before with
  | _ length ih =>
      obtain rfl | hnewline := hends
      · rfl
      have hsome : before ≠ [] := by
        rintro rfl
        cases hnewline
      have hlt : (fgets (lineMax - 1) before).2.length < before.length :=
        length_fgets_lt (lineMax - 2) hsome
      obtain ⟨hread, hrest⟩ := fgets_append (lineMax - 1) hnewline after
      rw [bufs_of_ne_nil hsome, bufs_of_ne_nil (List.append_ne_nil_of_left_ne_nil hsome after),
        hread, ih _ (hlength ▸ hlt) hrest rfl, List.cons_append]

/-! ## One line more -/

/-- Reading goes on when everything before was read. -/
theorem readLines_append (lineNum : Nat) (lines lines' : List (List UInt8)) (conf : ConfT) :
    readLines lineNum (lines ++ lines') conf =
      match readLines lineNum lines conf with
      | ⟨.ok, conf⟩ => readLines (lineNum + lines.length) lines' conf
      | outcome => outcome := by
  induction lines generalizing lineNum conf with
  | nil => rfl
  | cons first lines ih =>
      rw [List.cons_append, readLines, readLines]
      rcases hread : readLine (lineNum + 1) first conf with ⟨status, conf'⟩
      cases status with
      | ok =>
          dsimp only
          rw [ih, List.length_cons, Nat.add_right_comm lineNum 1, Nat.add_assoc lineNum]
      | error message => rfl
      | outsideBuf index => rfl
      | outsidePaths index => rfl

/-- The last line is read when all lines before it were. -/
theorem readLines_append_singleton (lineNum : Nat) (lines : List (List UInt8))
    (line : List UInt8) (conf : ConfT) :
    readLines lineNum (lines ++ [line]) conf =
      match readLines lineNum lines conf with
      | ⟨.ok, conf⟩ => readLine (lineNum + lines.length + 1) line conf
      | outcome => outcome := by
  rw [readLines_append]
  rcases readLines lineNum lines conf with ⟨status, conf'⟩
  cases status with
  | ok =>
      dsimp only
      rw [readLines]
      rcases readLine (lineNum + lines.length + 1) line conf' with ⟨status, conf''⟩
      cases status <;> rfl
  | error message => rfl
  | outsideBuf index => rfl
  | outsidePaths index => rfl

end Conf
end Muon
