import Mathlib.Data.List.DropRight
import Mathlib.Logic.Function.Basic
import Muon.Conf
import Muon.Conf.CString

/-!
# Reading the configuration file

`conf_t` of `conf.h` and `read_conf` of `conf.c` on Linux.  `fgets` hands the file
over in pieces of at most 1023 bytes, each ending at a newline; a piece is trimmed,
split at its first `'='` and stored under its key.

Two array accesses of `read_conf` can leave their array: `p[-1]`, when the `'='` is
the first byte of the buffer, and the path of a `port` line that comes before any
`server` line.  What happens then is not defined, so the reading ends with an outcome
of its own.
-/

namespace Muon
namespace Conf

open Foundation

/-- `LINE_MAX`. -/
def lineMax : Nat := 1024

/-- `PATH_MAX_COUNT`. -/
def pathMaxCount : Nat := 8

/-- `MODE_SERVER`. -/
def modeServer : Int := 1

/-- `MODE_CLIENT`. -/
def modeClient : Int := 2

/-- One element of `conf->paths`. -/
structure ConfPath where
  server : CharArray 64
  /-- `port[0]`. -/
  portLow : Int
  /-- `port[1]`. -/
  portHigh : Int

/-- `conf_t` on Linux.  Only the elements of `paths` below the count are in use, and
the count never exceeds the array. -/
structure ConfT where
  mode : Int
  daemon : Int
  mtu : Int
  route : Int
  nat : Int
  pidfile : CharArray 64
  logfile : CharArray 64
  user : CharArray 16
  paths : Fin pathMaxCount → ConfPath
  pathCount : Nat
  pathCount_le : pathCount ≤ pathMaxCount
  key : CharArray 128
  klen : Nat
  tunif : CharArray 16
  address : CharArray 20
  address6 : CharArray 64

def zeroPath : ConfPath := ⟨CharArray.zero 64, 0, 0⟩

/-- `memset(conf, 0, sizeof(conf_t))`. -/
def zeroConf : ConfT where
  mode := 0
  daemon := 0
  mtu := 0
  route := 0
  nat := 0
  pidfile := CharArray.zero 64
  logfile := CharArray.zero 64
  user := CharArray.zero 16
  paths := fun _ => zeroPath
  pathCount := 0
  pathCount_le := Nat.zero_le _
  key := CharArray.zero 128
  klen := 0
  tunif := CharArray.zero 16
  address := CharArray.zero 20
  address6 := CharArray.zero 64

/-- `conf->path_count - 1`, where it is an index of `paths`. -/
def ConfT.lastPath (conf : ConfT) : Option (Fin pathMaxCount) :=
  if hcount : 0 < conf.pathCount then
    some ⟨conf.pathCount - 1, by have := conf.pathCount_le; omega⟩
  else
    none

/-- How `read_conf` ends. -/
inductive Status where
  | ok
  /-- It prints a message and returns -1. -/
  | error (message : String)
  /-- It reads `buf` at an index outside the array. -/
  | outsideBuf (index : Int)
  /-- It writes to `conf->paths` at an index outside the array. -/
  | outsidePaths (index : Int)
  deriving DecidableEq

/-- How it ends, and what it leaves in `*conf`. -/
structure Outcome where
  status : Status
  conf : ConfT

/-! ## The keys -/

/-- The keys `read_conf` knows on Linux. -/
inductive Key where
  | user | mode | server | port | key | tunif | mtu | address | address6 | route | nat
  deriving DecidableEq

def Key.name : Key → String
  | user => "user"
  | mode => "mode"
  | server => "server"
  | port => "port"
  | key => "key"
  | tunif => "tunif"
  | mtu => "mtu"
  | address => "address"
  | address6 => "address6"
  | route => "route"
  | nat => "nat"

/-- The keys in the order of the comparisons. -/
def Key.all : List Key :=
  [user, mode, server, port, key, tunif, mtu, address, address6, route, nat]

/-- The comparisons of `key` with the known names. -/
def keyOf (key : List UInt8) : Option Key :=
  Key.all.find? fun known => key == ascii known.name

/-- Each known name is found under its key. -/
theorem keyOf_name (known : Key) : keyOf (ascii known.name) = some known := by
  cases known <;> decide

/-- The value of a `mode` line. -/
def readMode (lineNum : Nat) (value : List UInt8) : Except String Int :=
  if value = ascii "server" then .ok modeServer
  else if value = ascii "client" then .ok modeClient
  else .error s!"line {lineNum}: mode must be server/client\n"

/-- The value of a `route` or `nat` line. -/
def readYesNo (field : String) (lineNum : Nat) (value : List UInt8) : Except String Int :=
  if value = ascii "yes" then .ok 1
  else if value = ascii "no" then .ok 0
  else .error s!"line {lineNum}: {field} must be yes/no\n"

/-- The text of a `port` value that is read as `port[0]`, and the one that is read as
`port[1]`: before and after the first `'-'`, or the whole value twice. -/
def portTexts (value : List UInt8) : List UInt8 × List UInt8 :=
  if hyphen ∈ value then
    (value.takeWhile (· ≠ hyphen), (value.dropWhile (· ≠ hyphen)).tail)
  else
    (value, value)

/-- The `server` branch. -/
def addServer (lineNum : Nat) (value : List UInt8) (conf : ConfT) : Outcome :=
  if hcount : conf.pathCount < pathMaxCount then
    if conf.lastPath.any fun last => (conf.paths last).portLow = 0 then
      ⟨.error s!"line {lineNum}: missing port in last server config\n", conf⟩
    else
      let count : Fin pathMaxCount := ⟨conf.pathCount, hcount⟩
      let path := conf.paths count
      ⟨.ok, { conf with
        paths := Function.update conf.paths count
          { path with server := strncpy path.server value }
        pathCount := conf.pathCount + 1
        pathCount_le := hcount }⟩
  else
    ⟨.error s!"line {lineNum}: too many server\n", conf⟩

/-- The `port` branch. -/
def setPort (lineNum : Nat) (value : List UInt8) (conf : ConfT) : Outcome :=
  let low := atoi (portTexts value).1
  let high := atoi (portTexts value).2
  if low > high then
    ⟨.error s!"line {lineNum}: port range invalid\n", conf⟩
  else
    match conf.lastPath with
    | none => ⟨.outsidePaths (-1), conf⟩
    | some last =>
        ⟨.ok, { conf with
          paths := Function.update conf.paths last
            { conf.paths last with portLow := low, portHigh := high } }⟩

/-- The `key` branch: `klen` is cut to 127, and the array gets as many bytes. -/
def setKey (value : List UInt8) (conf : ConfT) : ConfT :=
  let stored := value.take 127
  { conf with
    klen := stored.length
    key := memcpyTerminated conf.key stored
      (Nat.lt_of_le_of_lt (List.length_take_le 127 value) (by decide)) }

/-- A value that was checked is stored, or the message ends the reading. -/
def store (conf : ConfT) (checked : Except String Int) (assign : Int → ConfT) : Outcome :=
  match checked with
  | .ok value => ⟨.ok, assign value⟩
  | .error message => ⟨.error message, conf⟩

/-- The branches on `key`, once the line is split.  An unknown key falls through. -/
def assign (lineNum : Nat) (key value : List UInt8) (conf : ConfT) : Outcome :=
  match keyOf key with
  | some .user => ⟨.ok, { conf with user := strncpy conf.user value }⟩
  | some .mode =>
      store conf (readMode lineNum value) fun mode => { conf with mode := mode }
  | some .server => addServer lineNum value conf
  | some .port => setPort lineNum value conf
  | some .key => ⟨.ok, setKey value conf⟩
  | some .tunif => ⟨.ok, { conf with tunif := strncpy conf.tunif value }⟩
  | some .mtu =>
      -- stored before it is checked
      let conf := { conf with mtu := atoi value }
      store conf (readMtu lineNum (atoi value)) fun _ => conf
  | some .address => ⟨.ok, { conf with address := strncpy conf.address value }⟩
  | some .address6 => ⟨.ok, { conf with address6 := strncpy conf.address6 value }⟩
  | some .route =>
      store conf (readYesNo "route" lineNum value) fun route => { conf with route := route }
  | some .nat =>
      store conf (readYesNo "nat" lineNum value) fun nat => { conf with nat := nat }
  | none => ⟨.ok, conf⟩

/-! ## Lines -/

/-- The white space before a line, which is in the buffer and is skipped. -/
def lead (buf : List UInt8) : List UInt8 := (cString buf).takeWhile isspace

/-- The line, without the white space on either side. -/
def trim (buf : List UInt8) : List UInt8 :=
  ((cString buf).dropWhile isspace).rdropWhile isspace

/-- What stands before the first `'='` of a line. -/
def keyText (line : List UInt8) : List UInt8 := line.takeWhile (· ≠ equalsSign)

/-- What stands after it. -/
def valueText (line : List UInt8) : List UInt8 := (line.dropWhile (· ≠ equalsSign)).tail

/-- The line is blank or a comment. -/
def Skipped (line : List UInt8) : Prop := line.head? = some numberSign ∨ line = []

instance (line : List UInt8) : Decidable (Skipped line) := inferInstanceAs (Decidable (_ ∨ _))

/-- The body of the loop of `read_conf`, on what `fgets` left in `buf`. -/
def readLine (lineNum : Nat) (buf : List UInt8) (conf : ConfT) : Outcome :=
  let line := trim buf
  if Skipped line then
    ⟨.ok, conf⟩
  else if equalsSign ∉ line then
    ⟨.error s!"line {lineNum}: no '=\\ found\n", conf⟩
  else
    -- `p[-1]` is the last byte before the `'='` in the buffer, not in the line
    match (lead buf ++ keyText line).getLast? with
    | none => ⟨.outsideBuf (-1), conf⟩
    | some before =>
        -- after an empty value `p[1]` is the NUL
        if isspace before ∨ isspace ((valueText line).headD 0) then
          ⟨.error s!"line {lineNum}: do not put space before/after '='\n", conf⟩
        else
          assign lineNum (keyText line) (valueText line) conf

/-- `fgets(buf, n + 1, f)`: the bytes it stores before the NUL, and the rest of the
stream. -/
def fgets : (n : Nat) → (stream : List UInt8) → List UInt8 × List UInt8
  | 0, stream => ([], stream)
  | _ + 1, [] => ([], [])
  | n + 1, b :: stream =>
      if b = newline then ([b], stream)
      else (b :: (fgets n stream).1, (fgets n stream).2)

/-- The buffers of the successive calls of `fgets`, up to the one that returns `NULL`.
Each call takes at least one byte, so the length of the stream is enough fuel. -/
def chunks : (fuel : Nat) → (stream : List UInt8) → List (List UInt8)
  | 0, _ => []
  | _ + 1, [] => []
  | fuel + 1, stream =>
      (fgets (lineMax - 1) stream).1 :: chunks fuel (fgets (lineMax - 1) stream).2

/-- The buffers `read_conf` sees of a file. -/
def bufs (file : List UInt8) : List (List UInt8) := chunks file.length file

/-- The loop of `read_conf`, after `lineNum` lines. -/
def readLines : (lineNum : Nat) → (bufs : List (List UInt8)) → ConfT → Outcome
  | _, [], conf => ⟨.ok, conf⟩
  | lineNum, buf :: bufs, conf =>
      match readLine (lineNum + 1) buf conf with
      | ⟨.ok, conf⟩ => readLines (lineNum + 1) bufs conf
      | outcome => outcome

/-- `read_conf(file, conf)`, where `fopen` finds the given file. -/
def readConf (file : Option (List UInt8)) (conf : ConfT) : Outcome :=
  match file with
  | none => ⟨.error "failed to open config file\n", conf⟩
  | some file => readLines 0 (bufs file) conf

end Conf
end Muon
