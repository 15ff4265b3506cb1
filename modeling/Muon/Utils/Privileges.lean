import Muon.Foundation.Credentials

/-!
# `runas`

The function that drops the privileges of root and takes them back.  A user it does not
know is no error: it returns 0 and leaves the process as it was.
-/

namespace Muon
namespace Utils

open Foundation

/-- The fields of `struct passwd` that `runas` reads. -/
structure Passwd where
  uid : Nat
  gid : Nat
  deriving DecidableEq, Repr

/-- `runas(user)`: the status and the credentials.  `getpwnam` looks in the password
database. -/
def runas (getpwnam : String → Option Passwd) (user : String) (credentials : Credentials) :
    Int × Credentials :=
  match getpwnam user with
  | none => (0, credentials)
  | some entry =>
      match credentials.setegid entry.gid with
      | none => (-1, credentials)
      | some credentials =>
          match credentials.seteuid entry.uid with
          | none => (-1, credentials)
          | some credentials => (0, credentials)

/-- The credentials of a process that acts for a user, if there is one of that name. -/
def actingFor (getpwnam : String → Option Passwd) (user : String) (credentials : Credentials) :
    Credentials :=
  (getpwnam user).elim credentials fun entry => credentials.act entry.uid entry.gid

variable {getpwnam : String → Option Passwd} {user : String} {credentials : Credentials}

/-- Root can act for everyone. -/
theorem runas_of_privileged (hprivileged : credentials.Privileged) :
    runas getpwnam user credentials = (0, actingFor getpwnam user credentials) := by
  unfold runas actingFor
  cases getpwnam user with
  | none => rfl
  | some entry =>
      obtain ⟨between, hgroup, huser⟩ :=
        @Credentials.exists_act entry.uid entry.gid credentials (Or.inl hprivileged)
      simp only [hgroup, huser, Option.elim_some]

/-- A process can act for a user whose ids it has. -/
theorem runas_of_has {entry : Passwd} (hknown : getpwnam user = some entry)
    (hgroup : credentials.group.Has entry.gid) (huser : credentials.user.Has entry.uid) :
    runas getpwnam user credentials = (0, credentials.act entry.uid entry.gid) := by
  obtain ⟨between, hset, hset'⟩ := Credentials.exists_act (Or.inr ⟨hgroup, huser⟩)
  simp only [runas, hknown, hset, hset']

end Utils
end Muon
