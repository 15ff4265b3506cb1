import Muon.Conf.ReadConf

/-!
# What a line leaves alone

Each branch of `read_conf` writes the fields of its own key: a line with another key, or
with none that is known, leaves a field as it was.  A `server` line writes the first
element of `paths` that is not in use, a `port` line the last one that is.
-/

namespace Muon
namespace Conf

variable {conf conf' : ConfT} {lineNum : Nat} {key value : List UInt8}

/-- Nothing but the fields of a key differs. -/
structure KeepsOthers (own : Option Key) (conf conf' : ConfT) : Prop where
  user : own ≠ some .user → conf'.user = conf.user
  mode : own ≠ some .mode → conf'.mode = conf.mode
  path_count : own ≠ some .server → conf'.pathCount = conf.pathCount
  servers : ∀ i : Fin pathMaxCount, (own = some .server → i.val ≠ conf.pathCount) →
    (conf'.paths i).server = (conf.paths i).server
  port_low : ∀ i, (own = some .port → conf.lastPath ≠ some i) →
    (conf'.paths i).portLow = (conf.paths i).portLow
  port_high : ∀ i, (own = some .port → conf.lastPath ≠ some i) →
    (conf'.paths i).portHigh = (conf.paths i).portHigh
  key : own ≠ some .key → conf'.key = conf.key
  klen : own ≠ some .key → conf'.klen = conf.klen
  tunif : own ≠ some .tunif → conf'.tunif = conf.tunif
  mtu : own ≠ some .mtu → conf'.mtu = conf.mtu
  address : own ≠ some .address → conf'.address = conf.address
  address6 : own ≠ some .address6 → conf'.address6 = conf.address6
  route : own ≠ some .route → conf'.route = conf.route
  nat : own ≠ some .nat → conf'.nat = conf.nat
  daemon : conf'.daemon = conf.daemon
  pidfile : conf'.pidfile = conf.pidfile
  logfile : conf'.logfile = conf.logfile

theorem KeepsOthers.refl (own : Option Key) (conf : ConfT) : KeepsOthers own conf conf := by
  constructor <;> intros <;> rfl

/-- Only `server` and `port` lines touch the paths. -/
theorem KeepsOthers.paths {own : Option Key} (hkeeps : KeepsOthers own conf conf')
    (hserver : own ≠ some .server) (hport : own ≠ some .port) : conf'.paths = conf.paths := by
  funext i
  have hname := hkeeps.servers i fun heq => absurd heq hserver
  have hlow := hkeeps.port_low i fun heq => absurd heq hport
  have hhigh := hkeeps.port_high i fun heq => absurd heq hport
  calc conf'.paths i
      = ⟨(conf'.paths i).server, (conf'.paths i).portLow, (conf'.paths i).portHigh⟩ := rfl
    _ = ⟨(conf.paths i).server, (conf.paths i).portLow, (conf.paths i).portHigh⟩ := by
        rw [hname, hlow, hhigh]

/-- A field that one element keeps is kept by all of them. -/
theorem field_update {α : Type} (field : ConfPath → α) (paths : Fin pathMaxCount → ConfPath)
    {i : Fin pathMaxCount} {path : ConfPath} (hfield : field path = field (paths i))
    (j : Fin pathMaxCount) : field (Function.update paths i path j) = field (paths j) := by
  by_cases hj : j = i
  · rw [hj, Function.update_self, hfield]
  · rw [Function.update_of_ne hj]

theorem addServer_keepsOthers :
    KeepsOthers (some .server) conf (addServer lineNum value conf).conf := by
  unfold addServer
  split
  · next hcount =>
      split
      · exact .refl _ conf
      · -- one element is written, and of it the name only
        constructor
        case servers =>
          intro i hne
          have hi : i ≠ ⟨conf.pathCount, hcount⟩ := fun heq => hne rfl (congrArg Fin.val heq)
          exact congrArg ConfPath.server (Function.update_of_ne hi _ _)
        case port_low =>
          intro i _
          apply field_update ConfPath.portLow
          rfl
        case port_high =>
          intro i _
          apply field_update ConfPath.portHigh
          rfl
        case path_count => exact fun hne => absurd rfl hne
        all_goals
          intros
          rfl
  · exact .refl _ conf

theorem setPort_keepsOthers :
    KeepsOthers (some .port) conf (setPort lineNum value conf).conf := by
  unfold setPort
  dsimp only
  split
  · exact .refl _ conf
  · cases hlast : conf.lastPath with
    | none => exact .refl _ conf
    | some last =>
        have hother : ∀ i (path : ConfPath), (some Key.port = some .port → conf.lastPath ≠ some i) →
            Function.update conf.paths last path i = conf.paths i := by
          intro i path hne
          apply Function.update_of_ne
          intro heq
          exact hne rfl (heq ▸ hlast)
        constructor
        case servers =>
          intro i _
          apply field_update ConfPath.server
          rfl
        case port_low => exact fun i hne => congrArg ConfPath.portLow (hother i _ hne)
        case port_high => exact fun i hne => congrArg ConfPath.portHigh (hother i _ hne)
        all_goals
          intros
          rfl

/-- **A line changes the fields of its own key only**, whether it is accepted or not. -/
theorem assign_keepsOthers (lineNum : Nat) (key value : List UInt8) (conf : ConfT) :
    KeepsOthers (keyOf key) conf (assign lineNum key value conf).conf := by
  unfold assign
  cases hkey : keyOf key with
  | none => exact .refl _ conf
  | some own =>
      cases own with
      | server => exact addServer_keepsOthers
      | port => exact setPort_keepsOthers
      | user | key | tunif | address | address6 =>
          constructor <;> intros <;> first | rfl | exact absurd rfl ‹_›
      | mode | mtu | route | nat =>
          dsimp only [store]
          split
          all_goals
            constructor <;> intros <;> first | rfl | exact absurd rfl ‹_›

end Conf
end Muon
