import Mathlib.Logic.Function.Basic
import Muon.Foundation.MachineInteger

/-!
# The context of the tunnel

`ctx_t` of `vpn.h` and the part of `vpn_init` that fills it from the
configuration.  Everything else in the context starts as zero bytes: no socket,
an all-zero address, a token of 0 and a pool of zeroes.

Coroutines share the context and write one path at a time; `updatePath` is that
write, and the lemmas below it say what it leaves alone.
-/

namespace Muon
namespace Vpn

open Foundation

/-- `MODE_SERVER` and `MODE_CLIENT`. -/
inductive Mode where
  | server
  | client
  deriving DecidableEq, Repr

/-- One element of `conf->paths`. -/
structure ConfPath where
  server : String
  /-- `port[0]`. -/
  portLow : Int
  /-- `port[1]`. -/
  portHigh : Int

/-- The fields of an accepted configuration that `vpn_init` reads. -/
structure Conf where
  mode : Mode
  mtu : Int
  route : Bool
  paths : List ConfPath
  tunif : String
  address : String
  address6 : String

/-- An `ipaddr` of libmill: a host and a port. -/
structure IpAddr where
  host : Nat
  port : Int
  deriving DecidableEq, Repr

/-- `POOL`. -/
def pool : Nat := 40

/-- One element of `ctx.paths`.  A socket is known by the number of the
`udp_worker` that opened it. -/
structure PathCtx where
  server : String
  portStart : Int
  portRange : Int
  alive : Int
  token : Int
  sock : Option Nat
  remote : IpAddr
  /-- The array `valid_tokens[POOL]`. -/
  validTokens : Nat → Int

/-- `ctx`. -/
structure Ctx where
  mode : Mode
  mtu : Int
  pathCount : Nat
  paths : Nat → PathCtx
  outPackets : Nat
  outBytes : Nat
  inPackets : Nat
  inBytes : Nat

/-- A path after `memset(&ctx, 0, sizeof(ctx))`. -/
def zeroPath : PathCtx where
  server := ""
  portStart := 0
  portRange := 0
  alive := 0
  token := 0
  sock := none
  remote := ⟨0, 0⟩
  validTokens := fun _ => 0

/-- A path as `vpn_init` fills it. -/
def initPath (path : ConfPath) : PathCtx :=
  { zeroPath with
    server := path.server
    portStart := path.portLow
    portRange := toInt32 (path.portHigh - path.portLow) }

/-- The context `vpn_init` leaves. -/
def initCtx (conf : Conf) : Ctx where
  mode := conf.mode
  mtu := conf.mtu
  pathCount := conf.paths.length
  paths := fun i => (conf.paths[i]?).elim zeroPath initPath
  outPackets := 0
  outBytes := 0
  inPackets := 0
  inBytes := 0

theorem initCtx_sock (conf : Conf) (i : Nat) : ((initCtx conf).paths i).sock = none := by
  cases hpath : conf.paths[i]? <;> simp [initCtx, initPath, zeroPath, hpath]

theorem initCtx_alive (conf : Conf) (i : Nat) : ((initCtx conf).paths i).alive = 0 := by
  cases hpath : conf.paths[i]? <;> simp [initCtx, initPath, zeroPath, hpath]

theorem initCtx_validTokens (conf : Conf) (i slot : Nat) :
    ((initCtx conf).paths i).validTokens slot = 0 := by
  cases hpath : conf.paths[i]? <;> simp [initCtx, initPath, zeroPath, hpath]

namespace Ctx

/-- Assignments to the fields of one path. -/
def updatePath (ctx : Ctx) (path : Nat) (assign : PathCtx → PathCtx) : Ctx :=
  { ctx with paths := Function.update ctx.paths path (assign (ctx.paths path)) }

variable (ctx : Ctx) (path : Nat) (assign : PathCtx → PathCtx)

@[simp] theorem paths_updatePath_same :
    (ctx.updatePath path assign).paths path = assign (ctx.paths path) :=
  Function.update_self _ _ _

@[simp] theorem paths_updatePath_of_ne {other : Nat} (hne : other ≠ path) :
    (ctx.updatePath path assign).paths other = ctx.paths other :=
  Function.update_of_ne hne _ _

/-- A field that the assignments leave alone is the same on every path. -/
theorem field_updatePath {α : Type} (field : PathCtx → α)
    (hassign : field (assign (ctx.paths path)) = field (ctx.paths path)) (i : Nat) :
    field ((ctx.updatePath path assign).paths i) = field (ctx.paths i) := by
  rcases eq_or_ne i path with rfl | hne
  · rw [paths_updatePath_same, hassign]
  · rw [paths_updatePath_of_ne _ _ _ hne]

@[simp] theorem mode_updatePath : (ctx.updatePath path assign).mode = ctx.mode := rfl

@[simp] theorem mtu_updatePath : (ctx.updatePath path assign).mtu = ctx.mtu := rfl

@[simp] theorem pathCount_updatePath :
    (ctx.updatePath path assign).pathCount = ctx.pathCount := rfl

end Ctx

end Vpn
end Muon
