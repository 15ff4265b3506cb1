import Muon.Conf.Configuration
import Muon.Foundation.CheckedArray

/-!
# The buffer of `read_conf`

`read_conf` once more, with the pointers it uses: `line`, `end`, `p`, `key` and `value`
are indices of `buf`, and every access to `buf` and to `conf->paths` checks its index.
Behind the NUL that `fgets` stores is whatever the array held before.

The library reads a string from a pointer up to its NUL, and so does the model, even
where the source may stop earlier.  What is read is what the reading of lines says, and
an access outside an array is exactly its outcome for one.
-/

namespace Muon
namespace Conf

open Foundation CheckedArray

/-- An access outside an array, with its index. -/
inductive Fault where
  | buf (index : Int)
  | paths (index : Int)
  deriving DecidableEq

/-! ## Strings in the buffer -/

/-- `while (isspace(*line)) line++`. -/
def skipSpaces (buf : List UInt8) (line : Int) : Except Fault Int :=
  scan Fault.buf (fun b => !isspace b) buf line

/-- `strlen(s)`. -/
def strlen (buf : List UInt8) (s : Int) : Except Fault Int := do
  let nul ← scan Fault.buf (fun b => b == 0) buf s
  return nul - s

/-- `strchr(s, c)`, for a `c` that is not NUL. -/
def strchr (c : UInt8) (buf : List UInt8) (s : Int) : Except Fault (Option Int) := do
  let p ← scan Fault.buf (fun b => b == c || b == 0) buf s
  let b ← load Fault.buf buf p
  return if b = c then some p else none

/-- The string at a pointer. -/
def stringAt (buf : List UInt8) (s : Int) : Except Fault (List UInt8) := do
  let length ← strlen buf s
  return (buf.drop s.toNat).take length.toNat

/-! ## The branches that use an index -/

/-- `conf->paths[index]`. -/
def pathIndex (index : Int) : Except Fault (Fin pathMaxCount) :=
  if hindex : 0 ≤ index ∧ index.toNat < pathMaxCount then .ok ⟨index.toNat, hindex.2⟩
  else .error (.paths index)

/-- The `server` branch. -/
def addServerAt (lineNum : Nat) (value : List UInt8) (conf : ConfT) : Except Fault Outcome :=
  if hcount : conf.pathCount < pathMaxCount then do
    let missing ← if conf.pathCount ≠ 0 then do
        let last ← pathIndex (conf.pathCount - 1)
        pure (decide ((conf.paths last).portLow = 0))
      else pure false
    if missing then
      return ⟨.error s!"line {lineNum}: missing port in last server config\n", conf⟩
    else
      let count ← pathIndex conf.pathCount
      let path := conf.paths count
      return ⟨.ok, { conf with
        paths := Function.update conf.paths count
          { path with server := strncpy path.server value }
        pathCount := conf.pathCount + 1
        pathCount_le := hcount }⟩
  else
    return ⟨.error s!"line {lineNum}: too many server\n", conf⟩

/-- The texts of `port[0]` and `port[1]`. -/
def portTextsAt (buf : List UInt8) (value : Int) : Except Fault (List UInt8 × List UInt8) := do
  let p ← strchr hyphen buf value
  match p with
  | none =>
      let text ← stringAt buf value
      return (text, text)
  | some p =>
      let buf ← write Fault.buf buf p 0
      let low ← stringAt buf value
      let high ← stringAt buf (p + 1)
      return (low, high)

/-- The `port` branch. -/
def setPortAt (lineNum : Nat) (buf : List UInt8) (value : Int) (conf : ConfT) :
    Except Fault Outcome := do
  let texts ← portTextsAt buf value
  let low := atoi texts.1
  let high := atoi texts.2
  if low > high then
    return ⟨.error s!"line {lineNum}: port range invalid\n", conf⟩
  else
    let last ← pathIndex (conf.pathCount - 1)
    return ⟨.ok, { conf with
      paths := Function.update conf.paths last
        { conf.paths last with portLow := low, portHigh := high } }⟩

/-- The branches on `key`, once `p` is overwritten. -/
def assignAt (lineNum : Nat) (buf : List UInt8) (key value : Int) (conf : ConfT) :
    Except Fault Outcome := do
  let keyText ← stringAt buf key
  match keyOf keyText with
  | some .port => setPortAt lineNum buf value conf
  | some .server =>
      let text ← stringAt buf value
      addServerAt lineNum text conf
  | none => return ⟨.ok, conf⟩
  | some _ =>
      let text ← stringAt buf value
      return assign lineNum keyText text conf

/-- White space is skipped in front of a line and overwritten behind it: `line`, and what
is in the buffer then. -/
def trimAt (buf : List UInt8) : Except Fault (Int × List UInt8) := do
  let line ← skipSpaces buf 0
  let length ← strlen buf line
  let buf ← clearBack Fault.buf isspace 0 buf line (line + length - 1)
  return (line, buf)

/-- `isspace(p[-1]) || isspace(p[1])`. -/
def spaceAround (buf : List UInt8) (p : Int) : Except Fault Bool := do
  let before ← load Fault.buf buf (p - 1)
  if isspace before then
    return true
  else
    let after ← load Fault.buf buf (p + 1)
    return isspace after

/-- The line is skipped, or split at its first `'='`. -/
def splitAt (lineNum : Nat) (buf : List UInt8) (line : Int) (conf : ConfT) :
    Except Fault Outcome := do
  let first ← load Fault.buf buf line
  if first = numberSign ∨ first = 0 then
    return ⟨.ok, conf⟩
  else
    let p ← strchr equalsSign buf line
    match p with
    | none => return ⟨.error s!"line {lineNum}: no '=\\ found\n", conf⟩
    | some p =>
        let space ← spaceAround buf p
        if space then
          return ⟨.error s!"line {lineNum}: do not put space before/after '='\n", conf⟩
        else
          let buf ← write Fault.buf buf p 0
          assignAt lineNum buf line (p + 1) conf

/-- The body of the loop of `read_conf`. -/
def readLineAt (lineNum : Nat) (buf : List UInt8) (conf : ConfT) : Except Fault Outcome := do
  let (line, buf) ← trimAt buf
  splitAt lineNum buf line conf

/-! ## The loop -/

theorem length_fgets_le (n : Nat) (stream : List UInt8) : (fgets n stream).1.length ≤ n := by
  fun_induction fgets n stream with
  | case1 => exact Nat.le_refl _
  | case2 => exact Nat.zero_le _
  | case3 n stream => exact Nat.succ_le_succ (Nat.zero_le n)
  | case4 n b stream hb ih => exact Nat.succ_le_succ ih

/-- What `fgets(buf, LINE_MAX, f)` leaves in the array. -/
def fgetsInto (buf : CharArray lineMax) (stream : List UInt8) : CharArray lineMax :=
  memcpyTerminated buf (fgets (lineMax - 1) stream).1
    (Nat.lt_of_le_of_lt (length_fgets_le _ stream) (by decide))

/-- The loop of `read_conf`; `stale` is what the array holds before each call of `fgets`. -/
def readStream (stale : Nat → CharArray lineMax) :
    (fuel lineNum : Nat) → (stream : List UInt8) → ConfT → Except Fault Outcome
  | 0, _, _, conf => return ⟨.ok, conf⟩
  | _ + 1, _, [], conf => return ⟨.ok, conf⟩
  | fuel + 1, lineNum, stream, conf =>
      match readLineAt (lineNum + 1) (fgetsInto (stale lineNum) stream).bytes conf with
      | .ok ⟨.ok, conf⟩ =>
          readStream stale fuel (lineNum + 1) (fgets (lineMax - 1) stream).2 conf
      | result => result

/-- `read_conf(file, conf)`, with every access checked. -/
def readConfAt (stale : Nat → CharArray lineMax) (file : Option (List UInt8)) (conf : ConfT) :
    Except Fault Outcome :=
  match file with
  | none => return ⟨.error "failed to open config file\n", conf⟩
  | some file => readStream stale file.length 0 file conf

/-- The outcome of the reading of lines, where the accesses are checked. -/
def Outcome.checked (outcome : Outcome) : Except Fault Outcome :=
  match outcome.status with
  | .outsideBuf index => .error (.buf index)
  | .outsidePaths index => .error (.paths index)
  | .ok | .error _ => .ok outcome

variable {lineNum : Nat} {conf : ConfT}

/-! ## What the strings are -/

theorem ok_bind {ε α β : Type} (a : α) (f : α → Except ε β) :
    (Except.ok a >>= f) = f a := rfl

/-- The NUL of a string is behind it. -/
theorem strlen_append (before : List UInt8) {s : List UInt8} (hnul : 0 ∉ s) (rest : List UInt8) :
    strlen (before ++ (s ++ 0 :: rest)) before.length = .ok s.length := by
  have hpassed : ∀ b ∈ s, (b == 0) = false := fun b hb =>
    beq_false_of_ne fun hzero => hnul (hzero ▸ hb)
  unfold strlen
  rw [scan_append Fault.buf before rest hpassed rfl, ok_bind]
  apply congrArg Except.ok
  simp only [List.length_append]
  omega

theorem stringAt_append (before : List UInt8) {s : List UInt8} (hnul : 0 ∉ s)
    (rest : List UInt8) : stringAt (before ++ (s ++ 0 :: rest)) before.length = .ok s := by
  unfold stringAt
  rw [strlen_append before hnul rest, ok_bind]
  apply congrArg Except.ok
  simp

/-- What is behind a byte, seen from there. -/
theorem append_cons_eq (before s : List UInt8) (b : UInt8) (rest : List UInt8) :
    before ++ (s ++ b :: rest) = before ++ s ++ [b] ++ rest ∧
      ((before ++ s).length + 1 : Int) = ((before ++ s ++ [b]).length : Int) := by
  constructor
  · rw [List.append_assoc (before ++ s), List.append_assoc, List.singleton_append]
  · simp only [List.length_append, List.length_singleton]
    omega

/-- The string behind another one. -/
theorem stringAt_behind (before s : List UInt8) {t : List UInt8} (hnul : 0 ∉ t)
    (rest : List UInt8) :
    stringAt (before ++ (s ++ 0 :: (t ++ 0 :: rest))) ((before ++ s).length + 1 : Int) =
      .ok t := by
  obtain ⟨harray, hindex⟩ := append_cons_eq before s 0 (t ++ 0 :: rest)
  rw [harray, hindex]
  exact stringAt_append _ hnul rest

/-- A byte that the string does not have is not found. -/
theorem strchr_append_of_not_mem {c : UInt8} (hc : c ≠ 0) (before : List UInt8)
    {s : List UInt8} (hnul : 0 ∉ s) (hmem : c ∉ s) (rest : List UInt8) :
    strchr c (before ++ (s ++ 0 :: rest)) before.length = .ok none := by
  have hpassed : ∀ b ∈ s, (b == c || b == 0) = false := by
    intro b hb
    rw [Bool.or_eq_false_iff]
    exact ⟨beq_false_of_ne fun heq => hmem (heq ▸ hb), beq_false_of_ne fun heq => hnul (heq ▸ hb)⟩
  unfold strchr
  rw [scan_append Fault.buf before rest hpassed (by simp), ok_bind, ← List.append_assoc,
    load_append, ok_bind]
  exact congrArg Except.ok (if_neg (Ne.symm hc))

/-- The first one is found. -/
theorem strchr_append {c : UInt8} (before : List UInt8) {s : List UInt8} (hnul : 0 ∉ s)
    (hmem : c ∉ s) (rest : List UInt8) :
    strchr c (before ++ (s ++ c :: rest)) before.length =
      .ok (some ((before ++ s).length : Int)) := by
  have hpassed : ∀ b ∈ s, (b == c || b == 0) = false := by
    intro b hb
    rw [Bool.or_eq_false_iff]
    exact ⟨beq_false_of_ne fun heq => hmem (heq ▸ hb), beq_false_of_ne fun heq => hnul (heq ▸ hb)⟩
  unfold strchr
  rw [scan_append Fault.buf before rest hpassed (by simp), ok_bind, ← List.append_assoc,
    load_append, ok_bind]
  exact congrArg Except.ok (if_pos rfl)

/-- A list is cut at its first element of a value. -/
theorem eq_takeWhile_cons_tail {c : UInt8} {s : List UInt8} (hmem : c ∈ s) :
    s = s.takeWhile (· ≠ c) ++ c :: (s.dropWhile (· ≠ c)).tail := by
  conv_lhs => rw [← List.takeWhile_append_dropWhile (p := (· ≠ c)) (l := s)]
  have hsome : s.dropWhile (· ≠ c) ≠ [] := by
    intro hnil
    have hall := List.dropWhile_eq_nil_iff.mp hnil c hmem
    simp at hall
  have hhead := List.head_dropWhile_not (· ≠ c) hsome
  rw [decide_eq_false_iff_not, not_not] at hhead
  conv_lhs => rw [← List.cons_head_tail hsome, hhead]

theorem not_mem_takeWhile_ne (c : UInt8) (s : List UInt8) : c ∉ s.takeWhile (· ≠ c) := by
  intro hmem
  have htrue := List.mem_takeWhile_imp hmem
  simp at htrue

/-! ## What the branches do -/

theorem pathIndex_of_lt {i : Nat} (hi : i < pathMaxCount) : pathIndex i = .ok ⟨i, hi⟩ :=
  dif_pos ⟨Int.natCast_nonneg i, hi⟩

/-- The index `path_count - 1` is outside when there is no path. -/
theorem pathIndex_last (conf : ConfT) :
    pathIndex (conf.pathCount - 1 : Int) =
      match conf.lastPath with
      | none => .error (.paths (-1))
      | some last => .ok last := by
  have hle := conf.pathCount_le
  by_cases hcount : 0 < conf.pathCount
  · have hroom : conf.pathCount - 1 < pathMaxCount := by omega
    have hlast : conf.lastPath = some ⟨conf.pathCount - 1, hroom⟩ := dif_pos hcount
    have hindex : (conf.pathCount - 1 : Int) = ((conf.pathCount - 1 : Nat) : Int) := by omega
    rw [hlast, hindex, pathIndex_of_lt hroom]
  · have hlast : conf.lastPath = none := dif_neg hcount
    have hindex : (conf.pathCount - 1 : Int) = -1 := by omega
    rw [hlast, hindex]
    rfl

/-- The two indices of the `server` branch are in the array. -/
theorem addServerAt_eq (lineNum : Nat) (value : List UInt8) (conf : ConfT) :
    addServerAt lineNum value conf = .ok (addServer lineNum value conf) := by
  unfold addServerAt addServer
  by_cases hcount : conf.pathCount < pathMaxCount
  · rw [dif_pos hcount, dif_pos hcount, pathIndex_of_lt hcount, pathIndex_last]
    cases hlast : conf.lastPath with
    | none =>
        have hzero : ¬ conf.pathCount ≠ 0 := by
          intro hne
          unfold ConfT.lastPath at hlast
          rw [dif_pos (Nat.pos_of_ne_zero hne)] at hlast
          cases hlast
        rw [if_neg hzero]
        rfl
    | some last =>
        have hne : conf.pathCount ≠ 0 := by
          intro hzero
          unfold ConfT.lastPath at hlast
          rw [dif_neg (by omega)] at hlast
          cases hlast
        rw [if_pos hne]
        simp only [ok_bind, pure_bind, Option.any_some]
        split <;> rfl
  · rw [dif_neg hcount, dif_neg hcount]
    rfl

/-- The two texts of a `port` value. -/
theorem portTextsAt_append (before : List UInt8) {value : List UInt8} (hnul : 0 ∉ value)
    (rest : List UInt8) :
    portTextsAt (before ++ (value ++ 0 :: rest)) before.length = .ok (portTexts value) := by
  unfold portTextsAt portTexts
  by_cases hmem : hyphen ∈ value
  · -- `value = low ++ '-' :: high`, and the NUL that replaces the hyphen ends `low`
    have hvalue := eq_takeWhile_cons_tail hmem
    have hother := not_mem_takeWhile_ne hyphen value
    rw [if_pos hmem]
    generalize value.takeWhile (· ≠ hyphen) = low at hvalue hother ⊢
    generalize (value.dropWhile (· ≠ hyphen)).tail = high at hvalue ⊢
    subst hvalue
    rw [List.mem_append, List.mem_cons, not_or, not_or] at hnul
    obtain ⟨hlow, -, hhigh⟩ := hnul
    have hwrite := write_append Fault.buf (before ++ low) hyphen (high ++ 0 :: rest) 0
    rw [List.append_assoc, List.append_assoc] at hwrite
    rw [List.append_assoc low, List.cons_append, strchr_append before hlow hother, ok_bind]
    dsimp only
    rw [hwrite, ok_bind, stringAt_append before hlow, ok_bind, stringAt_behind before low hhigh]
    rfl
  · rw [strchr_append_of_not_mem (by decide) before hnul hmem, ok_bind, if_neg hmem]
    dsimp only
    rw [stringAt_append before hnul]
    rfl

theorem setPortAt_append (lineNum : Nat) (before : List UInt8) {value : List UInt8}
    (hnul : 0 ∉ value) (rest : List UInt8) (conf : ConfT) :
    setPortAt lineNum (before ++ (value ++ 0 :: rest)) before.length conf =
      (setPort lineNum value conf).checked := by
  unfold setPortAt setPort
  rw [portTextsAt_append before hnul, ok_bind]
  dsimp only
  split
  · rfl
  · rw [pathIndex_last]
    cases conf.lastPath with
    | none => rfl
    | some last => rfl

/-- No other branch can leave an array. -/
theorem checked_assign {key : List UInt8} (hport : keyOf key ≠ some .port) (lineNum : Nat)
    (value : List UInt8) (conf : ConfT) :
    (assign lineNum key value conf).checked = .ok (assign lineNum key value conf) := by
  have hstore : ∀ (conf : ConfT) (checked : Except String Int) (stored : Int → ConfT),
      (store conf checked stored).checked = .ok (store conf checked stored) := by
    intro conf checked stored
    cases checked <;> rfl
  unfold assign
  cases hkey : keyOf key with
  | none => rfl
  | some known =>
      cases known with
      | user | key | tunif | address | address6 => rfl
      | mode | mtu | route | nat => exact hstore _ _ _
      | port => exact absurd hkey hport
      | server =>
          dsimp only [addServer]
          split
          · split <;> rfl
          · rfl

theorem assignAt_append (lineNum : Nat) (before : List UInt8) {key value : List UInt8}
    (hkey : 0 ∉ key) (hvalue : 0 ∉ value) (rest : List UInt8) (conf : ConfT) :
    assignAt lineNum (before ++ (key ++ 0 :: (value ++ 0 :: rest))) before.length
        ((before ++ key).length + 1 : Int) conf =
      (assign lineNum key value conf).checked := by
  have htext := stringAt_behind before key hvalue rest
  unfold assignAt
  rw [stringAt_append before hkey, ok_bind]
  by_cases hport : keyOf key = some .port
  · obtain ⟨harray, hindex⟩ := append_cons_eq before key 0 (value ++ 0 :: rest)
    unfold assign
    rw [hport, harray, hindex]
    exact setPortAt_append lineNum _ hvalue rest conf
  · rw [checked_assign hport]
    cases hknown : keyOf key with
    | none =>
        unfold assign
        rw [hknown]
        rfl
    | some known =>
        cases known with
        | port => exact absurd hknown hport
        | server =>
            dsimp only
            rw [htext, ok_bind, addServerAt_eq]
            unfold assign
            rw [hknown]
        | user | mode | key | tunif | mtu | address | address6 | route | nat =>
            dsimp only
            rw [htext]
            rfl

/-! ## What a line does -/

/-- The pointer stops at the first byte that is no white space, which may be the NUL. -/
theorem skipSpaces_append (s rest : List UInt8) :
    skipSpaces (s ++ 0 :: rest) 0 = .ok ((s.takeWhile isspace).length : Int) := by
  have hspaces : ∀ b ∈ s.takeWhile isspace, (!isspace b) = false := by
    intro b hb
    rw [Bool.not_eq_false']
    exact List.mem_takeWhile_imp hb
  have hsplit := List.takeWhile_append_dropWhile (p := isspace) (l := s)
  unfold skipSpaces
  cases hbody : s.dropWhile isspace with
  | nil =>
      rw [hbody, List.append_nil] at hsplit
      have hscan := scan_append Fault.buf [] rest hspaces (a := 0) rfl
      rw [List.nil_append, List.nil_append, hsplit] at hscan
      rw [hsplit]
      exact hscan
  | cons b body =>
      have hother : isspace b = false := by
        have hsome : s.dropWhile isspace ≠ [] := by
          rw [hbody]
          exact List.cons_ne_nil b body
        have hhead := List.head_dropWhile_not isspace hsome
        simp only [hbody, List.head_cons] at hhead
        exact hhead
      have hscan := scan_append Fault.buf [] (body ++ 0 :: rest) hspaces (a := b)
        (by rw [hother]; rfl)
      rw [hbody] at hsplit
      conv_lhs => rw [← hsplit]
      rw [List.nil_append, List.nil_append] at hscan
      rw [List.append_assoc, List.cons_append]
      exact hscan

/-- A list is what is left of it without its last elements of a kind, and these. -/
theorem exists_rdropWhile_append {α : Type} (p : α → Bool) (l : List α) :
    ∃ dropped, (∀ a ∈ dropped, p a = true) ∧ l = l.rdropWhile p ++ dropped := by
  induction l using List.reverseRecOn with
  | nil => exact ⟨[], nofun, rfl⟩
  | append_singleton l a ih =>
      rw [List.rdropWhile_concat]
      split
      · next ha =>
          obtain ⟨dropped, hdropped, hl⟩ := ih
          refine ⟨dropped ++ [a], ?_, ?_⟩
          · rw [List.forall_mem_append, List.forall_mem_singleton]
            exact ⟨hdropped, ha⟩
          · conv_lhs => rw [hl]
            rw [List.append_assoc]
      · exact ⟨[], nofun, (List.append_nil _).symm⟩

/-- After trimming, a NUL ends the line. -/
theorem trimAt_append (data rest : List UInt8) :
    ∃ rest', trimAt (cString data ++ 0 :: rest) =
      .ok ((lead data).length, lead data ++ (trim data ++ 0 :: rest')) := by
  obtain ⟨spaces, hspaces, hbody⟩ :=
    exists_rdropWhile_append isspace ((cString data).dropWhile isspace)
  have hsplit : cString data = lead data ++ (trim data ++ spaces) := by
    conv_lhs => rw [← List.takeWhile_append_dropWhile (p := isspace) (l := cString data), hbody]
    rfl
  have hnul : 0 ∉ trim data ++ spaces := fun hmem =>
    zero_not_mem_cString data (hsplit ▸ List.mem_append_right _ hmem)
  have hkept : ∀ b ∈ (trim data).getLast?, isspace b = false := by
    intro b hb
    obtain ⟨hline, rfl⟩ := List.mem_getLast?_eq_getLast hb
    exact Bool.not_eq_true _ ▸ List.rdropWhile_last_not isspace _ hline
  have harray : cString data ++ 0 :: rest = lead data ++ (trim data ++ spaces ++ 0 :: rest) := by
    rw [hsplit, List.append_assoc]
  have hindex : ((lead data).length + (trim data ++ spaces).length - 1 : Int) =
      ((lead data ++ trim data ++ spaces).length - 1 : Int) := by
    simp only [List.length_append]
    omega
  have hclear := clearBack_append Fault.buf 0 (lead data) spaces (0 :: rest) hspaces hkept
  rw [List.append_assoc, List.append_assoc, ← List.append_assoc (trim data)] at hclear
  refine ⟨List.replicate spaces.length 0 ++ rest, ?_⟩
  have hzeros : List.replicate spaces.length (0 : UInt8) ++ 0 :: rest =
      0 :: (List.replicate spaces.length 0 ++ rest) := by
    rw [List.append_cons, ← List.replicate_succ', List.replicate_succ, List.cons_append]
  unfold trimAt
  rw [skipSpaces_append, ok_bind]
  show (do
    let length ← strlen (cString data ++ 0 :: rest) (lead data).length
    let buf ← clearBack Fault.buf isspace 0 (cString data ++ 0 :: rest) (lead data).length
      ((lead data).length + length - 1)
    return (((lead data).length : Int), buf)) = _
  rw [harray, strlen_append (lead data) hnul rest, ok_bind, hindex, hclear, ok_bind,
    List.append_assoc (lead data ++ trim data), hzeros, List.append_assoc]
  rfl

/-- The array after `fgets`: the string, its NUL, and whatever is behind it. -/
theorem exists_bytes_memcpyTerminated (stale : CharArray lineMax) {data : List UInt8}
    (hroom : data.length < lineMax) :
    ∃ rest, (memcpyTerminated stale data hroom).bytes = cString data ++ 0 :: rest := by
  show ∃ rest, data ++ 0 :: stale.bytes.drop (data.length + 1) = cString data ++ 0 :: rest
  generalize stale.bytes.drop (data.length + 1) = behind
  by_cases hnul : 0 ∈ data
  · -- the file has a NUL of its own
    refine ⟨(data.dropWhile (· ≠ 0)).tail ++ 0 :: behind, ?_⟩
    conv_lhs => rw [eq_takeWhile_cons_tail hnul]
    rw [List.append_assoc]
    rfl
  · exact ⟨behind, by rw [cString_of_not_mem hnul]⟩

/-- The first byte of the line, or the NUL, tells whether it is skipped. -/
theorem load_trim (data rest : List UInt8) :
    ∃ first, load Fault.buf (lead data ++ (trim data ++ 0 :: rest)) (lead data).length =
        .ok first ∧ (first = numberSign ∨ first = 0 ↔ Skipped (trim data)) := by
  have hnul := zero_not_mem_trim data
  unfold Skipped
  cases hline : trim data with
  | nil =>
      refine ⟨0, load_append Fault.buf (lead data) 0 rest, ?_⟩
      exact iff_of_true (Or.inr rfl) (Or.inr rfl)
  | cons b line =>
      rw [hline] at hnul
      have hb : b ≠ 0 := fun hzero => hnul (hzero ▸ List.mem_cons_self)
      refine ⟨b, load_append Fault.buf (lead data) b (line ++ 0 :: rest), ?_⟩
      simp only [hb, or_false, List.head?_cons, Option.some.injEq, reduceCtorEq]

/-- `p[-1]` is the last byte in front of the `'='`, if there is one. -/
theorem load_before (before : List UInt8) (b : UInt8) (rest : List UInt8) :
    load Fault.buf (before ++ b :: rest) (before.length - 1 : Int) =
      match before.getLast? with
      | none => .error (.buf (-1))
      | some last => .ok last := by
  obtain rfl | ⟨init, last, rfl⟩ := List.eq_nil_or_concat before
  · exact load_of_neg Fault.buf _ (by decide)
  · have hindex : ((init ++ [last]).length - 1 : Int) = (init.length : Int) := by
      rw [List.length_append, List.length_singleton]
      omega
    rw [List.concat_eq_append, hindex, List.getLast?_concat, List.append_assoc]
    exact load_append Fault.buf init last _

/-- `p[1]` is the first byte of the value, or the NUL. -/
theorem load_after (before key : List UInt8) (b : UInt8) (value rest : List UInt8) :
    load Fault.buf (before ++ (key ++ b :: (value ++ 0 :: rest)))
      ((before ++ key).length + 1 : Int) = .ok (value.headD 0) := by
  obtain ⟨harray, hindex⟩ := append_cons_eq before key b (value ++ 0 :: rest)
  rw [harray, hindex]
  cases value with
  | nil => exact load_append Fault.buf _ 0 rest
  | cons c value => exact load_append Fault.buf _ c (value ++ 0 :: rest)

theorem spaceAround_append (before key : List UInt8) (b : UInt8) (value rest : List UInt8) :
    spaceAround (before ++ (key ++ b :: (value ++ 0 :: rest))) (before ++ key).length =
      match (before ++ key).getLast? with
      | none => .error (.buf (-1))
      | some last => .ok (isspace last || isspace (value.headD 0)) := by
  have hbefore := load_before (before ++ key) b (value ++ 0 :: rest)
  rw [List.append_assoc] at hbefore
  unfold spaceAround
  rw [hbefore, load_after]
  cases (before ++ key).getLast? with
  | none => rfl
  | some last =>
      dsimp only
      rw [ok_bind]
      cases isspace last <;> rfl

/-- The line, split at its first `'='`. -/
theorem splitAt_append (lineNum : Nat) (data rest : List UInt8) (conf : ConfT) :
    splitAt lineNum (lead data ++ (trim data ++ 0 :: rest)) (lead data).length conf =
      (readLine lineNum data conf).checked := by
  have hnul := zero_not_mem_trim data
  obtain ⟨first, hfirst, hskipped⟩ := load_trim data rest
  unfold splitAt readLine
  dsimp only
  rw [hfirst, ok_bind]
  by_cases hskip : Skipped (trim data)
  · rw [if_pos hskip, if_pos (hskipped.mpr hskip)]
    rfl
  rw [if_neg hskip, if_neg fun hfirst => hskip (hskipped.mp hfirst)]
  by_cases hmem : equalsSign ∈ trim data
  · have hline := eq_takeWhile_cons_tail hmem
    have hother := not_mem_takeWhile_ne equalsSign (trim data)
    rw [if_neg (not_not.mpr hmem)]
    change _ = keyText (trim data) ++ equalsSign :: valueText (trim data) at hline
    change equalsSign ∉ keyText (trim data) at hother
    generalize keyText (trim data) = key at hline hother ⊢
    generalize valueText (trim data) = value at hline ⊢
    rw [hline] at hnul ⊢
    rw [List.mem_append, List.mem_cons, not_or, not_or] at hnul
    obtain ⟨hkey, -, hvalue⟩ := hnul
    rw [List.append_assoc key, List.cons_append, strchr_append (lead data) hkey hother, ok_bind]
    dsimp only
    have hwrite := write_append Fault.buf (lead data ++ key) equalsSign (value ++ 0 :: rest) 0
    rw [List.append_assoc, List.append_assoc] at hwrite
    rw [hwrite, spaceAround_append]
    cases (lead data ++ key).getLast? with
    | none => rfl
    | some before =>
        dsimp only
        rw [ok_bind]
        by_cases hspace : isspace before = true ∨ isspace (value.headD 0) = true
        · rw [if_pos hspace, if_pos (Bool.or_eq_true_iff.mpr hspace)]
          rfl
        · rw [if_neg hspace, if_neg fun hor => hspace (Bool.or_eq_true_iff.mp hor), ok_bind]
          exact assignAt_append lineNum (lead data) hkey hvalue rest conf
  · rw [if_pos hmem, strchr_append_of_not_mem (by decide) (lead data) hnul hmem, ok_bind]
    rfl

/-- **What is read through the pointers is what the reading of lines says**, whatever the
array held before, and an access outside an array is its outcome for one. -/
theorem readLineAt_memcpyTerminated (lineNum : Nat) (stale : CharArray lineMax)
    {data : List UInt8} (hroom : data.length < lineMax) (conf : ConfT) :
    readLineAt lineNum (memcpyTerminated stale data hroom).bytes conf =
      (readLine lineNum data conf).checked := by
  obtain ⟨rest, hbytes⟩ := exists_bytes_memcpyTerminated stale hroom
  obtain ⟨rest', htrim⟩ := trimAt_append data rest
  unfold readLineAt
  rw [hbytes, htrim, ok_bind]
  exact splitAt_append lineNum data rest' conf

theorem readStream_eq (stale : Nat → CharArray lineMax) (fuel lineNum : Nat)
    (stream : List UInt8) (conf : ConfT) :
    readStream stale fuel lineNum stream conf =
      (readLines lineNum (chunks fuel stream) conf).checked := by
  induction fuel generalizing lineNum stream conf with
  | zero => rfl
  | succ fuel ih =>
      cases stream with
      | nil => rfl
      | cons b stream =>
          have hline := readLineAt_memcpyTerminated (lineNum + 1) (stale lineNum)
            (Nat.lt_of_le_of_lt (length_fgets_le (lineMax - 1) (b :: stream)) (by decide)) conf
          have hchunks : chunks (fuel + 1) (b :: stream) =
              (fgets (lineMax - 1) (b :: stream)).1 ::
                chunks fuel (fgets (lineMax - 1) (b :: stream)).2 := by
            rw [chunks]
            exact List.cons_ne_nil b stream
          have hstream : readStream stale (fuel + 1) lineNum (b :: stream) conf =
              match readLineAt (lineNum + 1) (fgetsInto (stale lineNum) (b :: stream)).bytes
                conf with
              | .ok ⟨.ok, conf⟩ =>
                  readStream stale fuel (lineNum + 1) (fgets (lineMax - 1) (b :: stream)).2 conf
              | result => result := by
            rw [readStream]
            exact List.cons_ne_nil b stream
          rw [hchunks, hstream, readLines]
          unfold fgetsInto
          rw [hline]
          rcases readLine (lineNum + 1) (fgets (lineMax - 1) (b :: stream)).1 conf with
            ⟨status, conf'⟩
          cases status with
          | ok => exact ih _ _ conf'
          | error message => rfl
          | outsideBuf index => rfl
          | outsidePaths index => rfl

/-- The whole file. -/
theorem readConfAt_eq (stale : Nat → CharArray lineMax) (file : Option (List UInt8))
    (conf : ConfT) : readConfAt stale file conf = (readConf file conf).checked := by
  cases file with
  | none => rfl
  | some file => exact readStream_eq stale file.length 0 file conf

end Conf
end Muon
