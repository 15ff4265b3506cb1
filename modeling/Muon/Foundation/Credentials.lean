import Mathlib.Tactic.Common

/-!
# User and group ids

A process has three user ids and three group ids.  `setegid` and `seteuid` change the
effective ones only: a privileged process may take any id, another one only those it has.
What it has is never lost that way, so an id that is real or saved can always be taken
back.
-/

namespace Muon
namespace Foundation

/-- The ids of one kind. -/
structure Ids where
  real : Nat
  effective : Nat
  saved : Nat
  deriving DecidableEq, Repr

/-- The credentials of a process. -/
structure Credentials where
  user : Ids
  group : Ids
  /-- The supplementary groups. -/
  groups : List Nat
  deriving DecidableEq, Repr

namespace Ids

/-- The id is one of the three. -/
def Has (ids : Ids) (id : Nat) : Prop := id = ids.real ∨ id = ids.effective ∨ id = ids.saved

instance (ids : Ids) (id : Nat) : Decidable (ids.Has id) :=
  inferInstanceAs (Decidable (_ ∨ _ ∨ _))

/-- Another effective id. -/
def take (ids : Ids) (id : Nat) : Ids := { ids with effective := id }

end Ids

namespace Credentials

/-- The effective user is root. -/
def Privileged (credentials : Credentials) : Prop := credentials.user.effective = 0

instance (credentials : Credentials) : Decidable credentials.Privileged :=
  inferInstanceAs (Decidable (_ = _))

/-- Other effective ids. -/
def act (credentials : Credentials) (uid gid : Nat) : Credentials :=
  { credentials with user := credentials.user.take uid, group := credentials.group.take gid }

@[simp] theorem act_self (credentials : Credentials) :
    credentials.act credentials.user.effective credentials.group.effective = credentials := rfl

@[simp] theorem act_act (credentials : Credentials) (uid gid uid' gid' : Nat) :
    (credentials.act uid gid).act uid' gid' = credentials.act uid' gid' := rfl

/-- `setegid(gid)`, or `none` when it fails. -/
def setegid (gid : Nat) (credentials : Credentials) : Option Credentials :=
  if credentials.Privileged ∨ credentials.group.Has gid then
    some { credentials with group := credentials.group.take gid }
  else
    none

/-- `seteuid(uid)`, or `none` when it fails. -/
def seteuid (uid : Nat) (credentials : Credentials) : Option Credentials :=
  if credentials.Privileged ∨ credentials.user.Has uid then
    some { credentials with user := credentials.user.take uid }
  else
    none

/-- Both calls succeed, one after the other, for root and for a process that has the ids.
The group comes first: the user that is left may not be allowed to set it. -/
theorem exists_act {uid gid : Nat} {credentials : Credentials}
    (hallowed : credentials.Privileged ∨ credentials.group.Has gid ∧ credentials.user.Has uid) :
    ∃ between, credentials.setegid gid = some between ∧
      between.seteuid uid = some (credentials.act uid gid) := by
  have hgroup : credentials.Privileged ∨ credentials.group.Has gid := hallowed.imp_right And.left
  have huser : credentials.Privileged ∨ credentials.user.Has uid := hallowed.imp_right And.right
  exact ⟨_, if_pos hgroup, if_pos huser⟩

end Credentials

end Foundation
end Muon
