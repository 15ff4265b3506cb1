import Muon.Conf.Lines

/-!
# The grammar of the configuration file

What a configuration file says, without the order in which it is read: its
significant lines, the values of each key, and the paths, each with the `port` line
in force for it, the last one before the next `server` line.  `Accepted` is the
grammar and `Computes` the configuration a file stands for.
-/

namespace Muon
namespace Conf

open Foundation Packet

/-- A line `key=value`.  Keys that `read_conf` does not know are all alike. -/
structure Entry where
  key : Option Key
  value : List UInt8

/-- The trimmed lines that are neither blank nor comments. -/
def significant (lines : List (List UInt8)) : List (List UInt8) :=
  (lines.map trim).filter fun line => ¬ Skipped line

/-- The entry of a trimmed line that has a `'='`. -/
def entryOf (line : List UInt8) : Option Entry :=
  if equalsSign ∈ line then some ⟨keyOf (keyText line), valueText line⟩ else none

/-- The entries of a file. -/
def entries (lines : List (List UInt8)) : List Entry := (significant lines).filterMap entryOf

/-- The values of one key, in order. -/
def values (es : List Entry) (known : Key) : List (List UInt8) :=
  es.filterMap fun e => if e.key = some known then some e.value else none

/-- A `server` line, and the `port` line in force for it. -/
structure PathText where
  server : List UInt8
  port : Option (List UInt8)

/-- `port[0]` and `port[1]` of a path, 0 while it has no `port` line. -/
def PathText.low (path : PathText) : Int :=
  path.port.elim 0 fun value => decimal (portTexts value).1

@[inherit_doc PathText.low] def PathText.high (path : PathText) : Int :=
  path.port.elim 0 fun value => decimal (portTexts value).2

/-- The last `port` value before the next `server` line. -/
def portInForce (es : List Entry) : Option (List UInt8) :=
  (values (es.takeWhile fun e => e.key ≠ some .server) .port).getLast?

/-- The paths of a file, one for each `server` line. -/
def pathsOf : List Entry → List PathText
  | [] => []
  | e :: es =>
      if e.key = some .server then ⟨e.value, portInForce es⟩ :: pathsOf es else pathsOf es

/-! ## The grammar -/

/-- A significant line has a `'='` without white space on either side of it. -/
structure Separated (line : List UInt8) : Prop where
  has_equals : equalsSign ∈ line
  before : ∀ b ∈ (keyText line).getLast?, isspace b = false
  after : ∀ b ∈ (valueText line).head?, isspace b = false

/-- What the values of the entries have to be. -/
structure EntriesAccepted (es : List Entry) : Prop where
  mode : ∀ value ∈ values es .mode, value = ascii "server" ∨ value = ascii "client"
  route : ∀ value ∈ values es .route, value = ascii "yes" ∨ value = ascii "no"
  nat : ∀ value ∈ values es .nat, value = ascii "yes" ∨ value = ascii "no"
  mtu : ∀ value ∈ values es .mtu, 1024 ≤ decimal value ∧ decimal value ≤ payloadMax
  port : ∀ value ∈ values es .port,
    decimal (portTexts value).1 ≤ decimal (portTexts value).2
  servers : (values es .server).length ≤ pathMaxCount
  /-- A path that is not the last has a port other than 0. -/
  ported : ∀ path ∈ (pathsOf es).dropLast, path.low ≠ 0

/-- The grammar of the file. -/
structure Accepted (lines : List (List UInt8)) : Prop where
  separated : ∀ line ∈ significant lines, Separated line
  entries : EntriesAccepted (entries lines)

/-! ## The configuration -/

/-- An array holds a value, cut to leave room for the NUL. -/
def CharArray.Holds {size : Nat} (field : CharArray size) (value : Option (List UInt8)) : Prop :=
  field.text = (value.getD []).take (size - 1)

/-- What the fields of a key hold when the last line of the key has a given value, or
when there is no such line.  The fields of `server` and `port` lines are the paths. -/
def FieldHolds (conf : ConfT) (value : Option (List UInt8)) : Key → Prop
  | .user => conf.user.Holds value
  | .mode => conf.mode =
      value.elim 0 fun text => if text = ascii "server" then modeServer else modeClient
  | .server => True
  | .port => True
  | .key => conf.key.Holds value ∧ conf.klen = conf.key.text.length
  | .tunif => conf.tunif.Holds value
  | .mtu => conf.mtu = value.elim 0 decimal
  | .address => conf.address.Holds value
  | .address6 => conf.address6.Holds value
  | .route => conf.route = value.elim 0 fun text => if text = ascii "yes" then 1 else 0
  | .nat => conf.nat = value.elim 0 fun text => if text = ascii "yes" then 1 else 0

/-- An element of `paths` holds a path. -/
structure PathHolds (stored : ConfPath) (path : PathText) : Prop where
  server : stored.server.text = path.server.take 63
  low : stored.portLow = path.low
  high : stored.portHigh = path.high

/-- The configuration that entries stand for, when `start` is what was there before. -/
structure Computes (start : ConfT) (es : List Entry) (conf : ConfT) : Prop where
  fields : ∀ known, FieldHolds conf (values es known).getLast? known
  pathCount : conf.pathCount = (pathsOf es).length
  paths : ∀ (i : Fin pathMaxCount) (path : PathText),
    (pathsOf es)[i.val]? = some path → PathHolds (conf.paths i) path
  /-- The rest of the array is as it was cleared. -/
  unused : ∀ i : Fin pathMaxCount, (pathsOf es).length ≤ i → conf.paths i = zeroPath
  /-- The options of the command line stay. -/
  daemon : conf.daemon = start.daemon
  pidfile : conf.pidfile = start.pidfile
  logfile : conf.logfile = start.logfile

/-! ## What the caller promises -/

/-- Every `port` line comes after some `server` line. -/
def PortsFollow (es : List Entry) : Prop :=
  ∀ before e after, es = before ++ e :: after → e.key = some .port →
    ∃ earlier ∈ before, earlier.key = some .server

theorem portsFollow_iff (es : List Entry) :
    PortsFollow es ↔ ∀ (i : Nat) (hi : i < es.length), (es[i]).key = some .port →
      ∃ earlier ∈ es.take i, earlier.key = some .server := by
  constructor
  · intro hfollow i hi hport
    apply hfollow (es.take i) es[i] (es.drop (i + 1))
    · rw [← List.drop_eq_getElem_cons hi, List.take_append_drop]
    · exact hport
  · rintro hindex before e after rfl hport
    have hi : before.length < (before ++ e :: after).length := by
      rw [List.length_append, List.length_cons]
      omega
    have hfound := hindex before.length hi (by simpa using hport)
    rwa [List.take_left'] at hfound
    rfl

instance (es : List Entry) : Decidable (PortsFollow es) :=
  decidable_of_iff _ (portsFollow_iff es).symm

/-- The numbers of the file, read without a width, fit an `int`. -/
structure NumbersFit (es : List Entry) : Prop where
  mtu : ∀ value ∈ values es .mtu, FitsInt (decimal value)
  port : ∀ value ∈ values es .port,
    FitsInt (decimal (portTexts value).1) ∧ FitsInt (decimal (portTexts value).2)

/-- The lines that the reading of a file is specified for: none starts with `'='`,
`port` lines follow `server` lines, and numbers fit. -/
structure Posed (lines : List (List UInt8)) : Prop where
  keyed : ∀ line ∈ lines, (trim line).head? ≠ some equalsSign
  ports_follow : PortsFollow (entries lines)
  numbers_fit : NumbersFit (entries lines)

/-! ## One entry more -/

theorem values_append (es es' : List Entry) (known : Key) :
    values (es ++ es') known = values es known ++ values es' known :=
  List.filterMap_append

theorem values_singleton_of_eq {e : Entry} {known : Key} (hkey : e.key = some known) :
    values [e] known = [e.value] := by
  simp only [values, List.filterMap_cons, hkey, if_true, List.filterMap_nil]

theorem values_singleton_of_ne {e : Entry} {known : Key} (hkey : e.key ≠ some known) :
    values [e] known = [] := by
  simp only [values, List.filterMap_cons, if_neg hkey, List.filterMap_nil]

theorem values_concat_of_ne (es : List Entry) {e : Entry} {known : Key}
    (hkey : e.key ≠ some known) : values (es ++ [e]) known = values es known := by
  rw [values_append, values_singleton_of_ne hkey, List.append_nil]

theorem getLast?_values_concat (es : List Entry) {e : Entry} {known : Key}
    (hkey : e.key = some known) : (values (es ++ [e]) known).getLast? = some e.value := by
  rw [values_append, values_singleton_of_eq hkey, List.getLast?_concat]

/-- The paths are the `server` lines. -/
theorem map_server_pathsOf (es : List Entry) :
    (pathsOf es).map PathText.server = values es .server := by
  induction es with
  | nil => rfl
  | cons e es ih =>
      by_cases hserver : e.key = some .server
      · simp only [pathsOf, values, List.filterMap_cons, hserver, if_true, List.map_cons]
        exact congrArg (e.value :: ·) ih
      · simp only [pathsOf, values, List.filterMap_cons, if_neg hserver]
        exact ih

theorem pathsOf_eq_nil_iff {es : List Entry} :
    pathsOf es = [] ↔ ∀ e ∈ es, e.key ≠ some .server := by
  induction es with
  | nil => exact ⟨fun _ e hmem => absurd hmem List.not_mem_nil, fun _ => rfl⟩
  | cons e es ih =>
      by_cases hserver : e.key = some .server
      · simp only [pathsOf, if_pos hserver, List.forall_mem_cons, reduceCtorEq, false_iff]
        exact fun hall => hall.1 hserver
      · simp only [pathsOf, if_neg hserver, List.forall_mem_cons, ih]
        exact ⟨fun hall => ⟨hserver, hall⟩, fun hall => hall.2⟩

/-- Only a `port` line that comes before the next `server` line changes what is in
force. -/
theorem portInForce_concat (es : List Entry) (e : Entry) :
    portInForce (es ++ [e]) =
      if pathsOf es = [] ∧ e.key = some .port then some e.value else portInForce es := by
  unfold portInForce
  rw [List.takeWhile_append]
  by_cases hnone : pathsOf es = []
  · -- no `server` line yet: the new entry is reached
    have hall : es.takeWhile (fun e => e.key ≠ some .server) = es := by
      rw [List.takeWhile_eq_self_iff]
      intro x hx
      exact decide_eq_true (pathsOf_eq_nil_iff.mp hnone x hx)
    rw [hall, if_pos rfl]
    by_cases hport : e.key = some .port
    · have hreached : [e].takeWhile (fun e => e.key ≠ some .server) = [e] :=
        List.takeWhile_cons_of_pos (by simp [hport])
      rw [if_pos ⟨hnone, hport⟩, hreached, getLast?_values_concat es hport]
    · rw [if_neg fun hboth => hport hboth.2]
      by_cases hserver : e.key = some .server
      · have hstopped : [e].takeWhile (fun e => e.key ≠ some .server) = [] :=
          List.takeWhile_cons_of_neg (by simp [hserver])
        rw [hstopped, List.append_nil]
      · have hreached : [e].takeWhile (fun e => e.key ≠ some .server) = [e] :=
          List.takeWhile_cons_of_pos (by simpa using hserver)
        rw [hreached, values_concat_of_ne es hport]
  · -- a `server` line stops the search before the new entry
    have hstopped : (es.takeWhile fun e => e.key ≠ some .server).length ≠ es.length := by
      intro hlength
      have hself := (List.takeWhile_prefix _).eq_of_length hlength
      rw [List.takeWhile_eq_self_iff] at hself
      exact hnone (pathsOf_eq_nil_iff.mpr fun x hx => of_decide_eq_true (hself x hx))
    have hskipped : ¬ (pathsOf es = [] ∧ e.key = some .port) := fun hboth => hnone hboth.1
    rw [if_neg hstopped, if_neg hskipped]

/-- A line that is not a `port` line leaves the port in force. -/
theorem portInForce_concat_of_ne (es : List Entry) {e : Entry} (hport : e.key ≠ some .port) :
    portInForce (es ++ [e]) = portInForce es := by
  rw [portInForce_concat]
  exact if_neg fun hboth => hport hboth.2

/-- A `server` line opens a path. -/
theorem pathsOf_concat_server (es : List Entry) {e : Entry} (hkey : e.key = some .server) :
    pathsOf (es ++ [e]) = pathsOf es ++ [⟨e.value, none⟩] := by
  have hnotPort : e.key ≠ some .port := by simp [hkey]
  induction es with
  | nil => simp only [List.nil_append, pathsOf, if_pos hkey, portInForce, List.takeWhile_nil,
      values, List.filterMap_nil, List.getLast?_nil]
  | cons first es ih =>
      rw [List.cons_append, pathsOf, pathsOf, ih, portInForce_concat_of_ne es hnotPort]
      split <;> rfl

/-- A `port` line sets the port of the last path. -/
theorem pathsOf_concat_port (es : List Entry) {e : Entry} (hkey : e.key = some .port)
    {init : List PathText} {last : PathText} (hpaths : pathsOf es = init ++ [last]) :
    pathsOf (es ++ [e]) = init ++ [{ last with port := some e.value }] := by
  induction es generalizing init with
  | nil => exact absurd hpaths.symm (List.append_ne_nil_of_right_ne_nil init (List.cons_ne_nil _ _))
  | cons first es ih =>
      rw [List.cons_append, pathsOf, portInForce_concat]
      rw [pathsOf] at hpaths
      by_cases hserver : first.key = some .server
      · rw [if_pos hserver] at hpaths ⊢
        cases init with
        | nil =>
            -- the path of this line is the last one
            obtain ⟨rfl, hnil⟩ := List.cons.inj hpaths
            have hnone : pathsOf (es ++ [e]) = [] := by
              rw [pathsOf_eq_nil_iff] at hnil ⊢
              intro x hx
              obtain hx | hx := List.mem_append.mp hx
              · exact hnil x hx
              · rw [List.mem_singleton.mp hx, hkey]
                decide
            rw [if_pos ⟨hnil, hkey⟩, hnone]
            rfl
        | cons p init =>
            obtain ⟨rfl, hrest⟩ := List.cons.inj hpaths
            have hsome : pathsOf es ≠ [] := by
              rw [hrest]
              exact List.append_ne_nil_of_right_ne_nil init (List.cons_ne_nil _ _)
            rw [if_neg fun hboth => hsome hboth.1, ih hrest]
            rfl
      · rw [if_neg hserver] at hpaths ⊢
        exact ih hpaths

/-- No other line touches the paths. -/
theorem pathsOf_concat_other (es : List Entry) {e : Entry} (hserver : e.key ≠ some .server)
    (hport : e.key ≠ some .port) : pathsOf (es ++ [e]) = pathsOf es := by
  induction es with
  | nil => simp only [List.nil_append, pathsOf, if_neg hserver]
  | cons first es ih =>
      rw [List.cons_append, pathsOf, pathsOf, ih, portInForce_concat_of_ne es hport]

/-! ## One line more -/

theorem significant_append (lines lines' : List (List UInt8)) :
    significant (lines ++ lines') = significant lines ++ significant lines' := by
  unfold significant
  rw [List.map_append, List.filter_append]

theorem significant_singleton_of_skipped {line : List UInt8} (hskip : Skipped (trim line)) :
    significant [line] = [] := by
  simp only [significant, List.map_cons, List.map_nil, List.filter_cons, hskip, not_true,
    decide_false, Bool.false_eq_true, if_false, List.filter_nil]

theorem significant_singleton {line : List UInt8} (hskip : ¬ Skipped (trim line)) :
    significant [line] = [trim line] := by
  simp only [significant, List.map_cons, List.map_nil, List.filter_cons, hskip, not_false_iff,
    decide_true, if_true, List.filter_nil]

theorem entries_append (lines lines' : List (List UInt8)) :
    entries (lines ++ lines') = entries lines ++ entries lines' := by
  unfold entries
  rw [significant_append, List.filterMap_append]

/-- What is promised of a file is promised of the lines already read. -/
theorem Posed.left {lines lines' : List (List UInt8)} (hposed : Posed (lines ++ lines')) :
    Posed lines where
  keyed line hline := hposed.keyed line (List.mem_append_left lines' hline)
  ports_follow before e after hsplit hport := by
    apply hposed.ports_follow before e (after ++ entries lines')
    · rw [entries_append, hsplit, List.append_assoc, List.cons_append]
    · exact hport
  numbers_fit := by
    have hsub : ∀ known, ∀ value ∈ values (entries lines) known,
        value ∈ values (entries (lines ++ lines')) known := by
      intro known value hvalue
      rw [entries_append, values_append]
      exact List.mem_append_left _ hvalue
    exact ⟨fun value hvalue => hposed.numbers_fit.mtu value (hsub .mtu value hvalue),
      fun value hvalue => hposed.numbers_fit.port value (hsub .port value hvalue)⟩

end Conf
end Muon
