import Mathlib.Data.List.Perm.Basic
import Mathlib.Logic.Function.Basic
import Muon.Utils.Shell

/-!
# Address translation

`nat` of `utils.c`.  Turned on it appends five rules to the tables of the host,
turned off it deletes five.  The rules are written twice, and the first one is not
the same: it is appended as `-s address -j MASQUERADE` and deleted as
`-s address ! -d address -j MASQUERADE`.  `iptables -D` looks for the rule as
written, so whatever the tables held before, turning `nat` off never undoes turning
it on.
-/

namespace Muon
namespace Utils

/-- The tables of `iptables`. -/
inductive Table where
  | filter
  | nat
  | mangle
  | raw
  | security
  deriving DecidableEq, Repr

/-- The built-in chains of a table, and those a user has added. -/
inductive Chain where
  | prerouting
  | input
  | forward
  | output
  | postrouting
  | user (name : String)
  deriving DecidableEq, Repr

/-- `-A` and `-D`. -/
inductive ChainAction where
  | append
  | delete
  deriving DecidableEq, Repr

/-- A command of `nat`. -/
inductive NatCommand where
  /-- `sysctl -w net.ipv4.ip_forward=1`. -/
  | ipForward
  /-- An `iptables` command: the rule is the text behind the name of the chain. -/
  | iptables (table : Table) (action : ChainAction) (chain : Chain) (rule : String)
  deriving DecidableEq, Repr

namespace NatCommand

/-- The option that selects a table; `filter` is the default. -/
def tableText : Table → String
  | .filter => ""
  | .nat => "-t nat "
  | .mangle => "-t mangle "
  | .raw => "-t raw "
  | .security => "-t security "

def actionText : ChainAction → String
  | .append => "-A"
  | .delete => "-D"

def chainText : Chain → String
  | .prerouting => "PREROUTING"
  | .input => "INPUT"
  | .forward => "FORWARD"
  | .output => "OUTPUT"
  | .postrouting => "POSTROUTING"
  | .user name => name

/-- The string `nat` passes to `system`. -/
def text : NatCommand → String
  | .ipForward => "/bin/sh -c 'sysctl -w net.ipv4.ip_forward=1 >/dev/null'"
  | .iptables table action chain rule =>
      let table := tableText table
      let action := actionText action
      let chain := chainText chain
      s!"/bin/sh -c 'iptables {table}{action} {chain} {rule}'"

end NatCommand

/-- The rules of the host, for each table and chain. -/
abbrev Rules := Table → Chain → List String

namespace Rules

/-- One chain gets other rules. -/
def set (rules : Rules) (table : Table) (chain : Chain) (list : List String) : Rules :=
  Function.update rules table (Function.update (rules table) chain list)

variable (rules : Rules) (table : Table) (chain : Chain) (list : List String)

@[simp] theorem set_same : rules.set table chain list table chain = list := by
  simp [set]

theorem set_of_ne {table' : Table} {chain' : Chain} (hne : ¬ (table' = table ∧ chain' = chain)) :
    rules.set table chain list table' chain' = rules table' chain' := by
  unfold set
  by_cases htable : table' = table
  · subst htable
    have hchain : chain' ≠ chain := fun heq => hne ⟨rfl, heq⟩
    rw [Function.update_self, Function.update_of_ne hchain]
  · rw [Function.update_of_ne htable]

end Rules

/-- `system` on a command of `nat`.  A rule is appended, or the first rule with
exactly this text is deleted; when there is none `iptables` exits with 1, which
`system` reports as 256. -/
def systemNat : NatCommand → Rules → Int × Rules
  | .ipForward, rules => (0, rules)
  | .iptables table .append chain rule, rules =>
      (0, rules.set table chain (rules table chain ++ [rule]))
  | .iptables table .delete chain rule, rules =>
      if rule ∈ rules table chain then
        (0, rules.set table chain ((rules table chain).erase rule))
      else
        (256, rules)

/-- Commands one after the other, up to the first that fails. -/
def shellAll : List NatCommand → Rules → Int × Rules
  | [], rules => (0, rules)
  | cmd :: cmds, rules =>
      match shell systemNat cmd rules with
      | .error result => result
      | .ok rules => shellAll cmds rules

/-- The commands of `nat(address, on)`. -/
def natCommands (address : String) (on : Bool) : List NatCommand :=
  if on then
    [.ipForward,
      .iptables .nat .append .postrouting s!"-s {address} -j MASQUERADE",
      .iptables .filter .append .forward s!"-s {address} -j ACCEPT",
      .iptables .filter .append .forward s!"-d {address} -j ACCEPT",
      .iptables .mangle .append .forward
        s!"-s {address} -p tcp -m tcp --tcp-flags SYN,RST SYN -j TCPMSS --clamp-mss-to-pmtu",
      .iptables .mangle .append .forward
        s!"-d {address} -p tcp -m tcp --tcp-flags SYN,RST SYN -j TCPMSS --clamp-mss-to-pmtu"]
  else
    -- The command that would reset `ip_forward` is commented out.
    [.iptables .nat .delete .postrouting s!"-s {address} ! -d {address} -j MASQUERADE",
      .iptables .filter .delete .forward s!"-s {address} -j ACCEPT",
      .iptables .filter .delete .forward s!"-d {address} -j ACCEPT",
      .iptables .mangle .delete .forward
        s!"-s {address} -p tcp -m tcp --tcp-flags SYN,RST SYN -j TCPMSS --clamp-mss-to-pmtu",
      .iptables .mangle .delete .forward
        s!"-d {address} -p tcp -m tcp --tcp-flags SYN,RST SYN -j TCPMSS --clamp-mss-to-pmtu"]

/-- `nat(address, on)`: the status and the rules. -/
def nat (address : String) (on : Bool) (rules : Rules) : Int × Rules :=
  shellAll (natCommands address on) rules

/-- If `nat(address, 1)` returned 0, then `nat(address, 0)` returns 0 and restores
the rules of every table and chain, in some order. -/
def NatRestores (address : String) (rules : Rules) : Prop :=
  (nat address true rules).1 = 0 →
    (nat address false (nat address true rules).2).1 = 0 ∧
      ∀ table chain,
        ((nat address false (nat address true rules).2).2 table chain).Perm
          (rules table chain)

/-! ## What the commands do -/

/-- Commands that leave a chain alone. -/
def NatCommand.Spares (table : Table) (chain : Chain) : NatCommand → Prop
  | .ipForward => True
  | .iptables table' _ chain' _ => ¬ (table = table' ∧ chain = chain')

theorem shell_delete (table : Table) (chain : Chain) (rule : String) (rules : Rules) :
    shell systemNat (.iptables table .delete chain rule) rules =
      if rule ∈ rules table chain then
        .ok (rules.set table chain ((rules table chain).erase rule))
      else .error (256, rules) := by
  simp only [shell, systemNat]
  by_cases hmem : rule ∈ rules table chain
  · simp [hmem]
  · simp [hmem]

theorem shell_systemNat_spares {cmd : NatCommand} {rules rules' : Rules} {table : Table}
    {chain : Chain} (hspares : cmd.Spares table chain)
    (hshell : shell systemNat cmd rules = .ok rules') :
    rules' table chain = rules table chain := by
  cases cmd with
  | ipForward =>
      cases hshell
      rfl
  | iptables table' action chain' rule =>
      cases action with
      | append =>
          cases hshell
          exact Rules.set_of_ne _ _ _ _ hspares
      | delete =>
          rw [shell_delete] at hshell
          split at hshell
          · cases hshell
            exact Rules.set_of_ne _ _ _ _ hspares
          · cases hshell

/-- Commands that all succeed leave a chain they spare as it was. -/
theorem shellAll_spares {cmds : List NatCommand} {rules : Rules} {table : Table}
    {chain : Chain} (hspares : ∀ cmd ∈ cmds, cmd.Spares table chain)
    (hsucceeds : (shellAll cmds rules).1 = 0) :
    (shellAll cmds rules).2 table chain = rules table chain := by
  induction cmds generalizing rules with
  | nil => rfl
  | cons cmd cmds ih =>
      obtain ⟨hfirst, hrest⟩ := List.forall_mem_cons.mp hspares
      simp only [shellAll] at hsucceeds ⊢
      cases hshell : shell systemNat cmd rules with
      | error result =>
          rw [hshell] at hsucceeds
          exact absurd hsucceeds (shell_error hshell)
      | ok rules' =>
          rw [hshell] at hsucceeds
          exact (ih hrest hsucceeds).trans (shell_systemNat_spares hfirst hshell)

/-- A rule that is deleted first was there, and is there once less. -/
theorem shellAll_delete {cmds : List NatCommand} {rules : Rules} {table : Table}
    {chain : Chain} {rule : String} (hspares : ∀ cmd ∈ cmds, cmd.Spares table chain)
    (hsucceeds : (shellAll (.iptables table .delete chain rule :: cmds) rules).1 = 0) :
    rule ∈ rules table chain ∧
      (shellAll (.iptables table .delete chain rule :: cmds) rules).2 table chain =
        (rules table chain).erase rule := by
  simp only [shellAll, shell_delete] at hsucceeds ⊢
  by_cases hmem : rule ∈ rules table chain
  · rw [if_pos hmem] at hsucceeds ⊢
    refine ⟨hmem, ?_⟩
    rw [shellAll_spares hspares hsucceeds, Rules.set_same]
  · rw [if_neg hmem] at hsucceeds
    cases hsucceeds

/-! ## The rule that is not deleted -/

/-- The rule `nat(address, 1)` appends to `POSTROUTING`. -/
def masqueradeOn (address : String) : String := s!"-s {address} -j MASQUERADE"

/-- The rule `nat(address, 0)` deletes from `POSTROUTING`. -/
def masqueradeOff (address : String) : String :=
  s!"-s {address} ! -d {address} -j MASQUERADE"

theorem masquerade_ne (address : String) : masqueradeOff address ≠ masqueradeOn address := by
  intro heq
  have hlength := congrArg String.length heq
  have htext : (toString " ! -d ").length = 6 := by decide
  simp [masqueradeOn, masqueradeOff] at hlength
  omega

/-- Turning `nat` on always succeeds, and appends its rule to `POSTROUTING`. -/
theorem nat_on (address : String) (rules : Rules) :
    (nat address true rules).1 = 0 ∧
      (nat address true rules).2 .nat .postrouting =
        rules .nat .postrouting ++ [masqueradeOn address] := by
  have hspares : ∀ cmd ∈ (natCommands address true).drop 2,
      cmd.Spares .nat .postrouting := by
    simp [natCommands, NatCommand.Spares]
  have hsucceeds : (nat address true rules).1 = 0 := rfl
  refine ⟨hsucceeds, ?_⟩
  have hsucceedsRest : (shellAll ((natCommands address true).drop 2)
      (rules.set .nat .postrouting (rules .nat .postrouting ++ [masqueradeOn address]))).1 =
      0 := rfl
  have hrest := shellAll_spares hspares hsucceedsRest
  rw [Rules.set_same] at hrest
  exact hrest

/-- Without the rule that it deletes first, `nat(address, 0)` fails at its first command. -/
theorem nat_off_first {address : String} {rules : Rules}
    (habsent : masqueradeOff address ∉ rules .nat .postrouting) :
    nat address false rules = (256, rules) := by
  show (match shell systemNat
      (.iptables .nat .delete .postrouting (masqueradeOff address)) rules with
    | .error result => result
    | .ok rules => shellAll ((natCommands address false).drop 1) rules) = _
  rw [shell_delete, if_neg habsent]

/-- Unless a rule of the host happens to be the one it deletes, `nat(address, 0)`
fails at its first command and deletes nothing. -/
theorem nat_off_of_absent (address : String) {rules : Rules}
    (habsent : masqueradeOff address ∉ rules .nat .postrouting) :
    nat address false (nat address true rules).2 = (256, (nat address true rules).2) := by
  obtain ⟨-, hchain⟩ := nat_on address rules
  apply nat_off_first
  rw [hchain, List.mem_append, List.mem_singleton, not_or]
  exact ⟨habsent, masquerade_ne address⟩

/-- **Turning `nat` off never undoes turning it on.** -/
theorem not_natRestores (address : String) (rules : Rules) : ¬ NatRestores address rules := by
  intro hrestores
  obtain ⟨hon, hchain⟩ := nat_on address rules
  obtain ⟨hoff, hsame⟩ := hrestores hon
  have hspares : ∀ cmd ∈ (natCommands address false).drop 1,
      cmd.Spares .nat .postrouting := by
    simp [natCommands, NatCommand.Spares]
  obtain ⟨hmem, herased⟩ := shellAll_delete hspares hoff
  change masqueradeOff address ∈ (nat address true rules).2 .nat .postrouting at hmem
  change (nat address false (nat address true rules).2).2 .nat .postrouting =
    ((nat address true rules).2 .nat .postrouting).erase (masqueradeOff address) at herased
  -- The deleted rule is another one, which was there before.
  have hne := masquerade_ne address
  rw [hchain, List.mem_append, List.mem_singleton, or_iff_left hne] at hmem
  have hcount := (hsame .nat .postrouting).count_eq (masqueradeOff address)
  rw [herased, hchain, List.count_erase_self, List.count_append,
    List.count_singleton, if_neg fun heq => hne (beq_iff_eq.mp heq).symm] at hcount
  have hpos := List.count_pos_iff.mpr hmem
  omega

/-- On a host without rules the five rules of a server stay behind. -/
theorem exists_not_natRestores :
    ¬ ∀ (address : String) (rules : Rules), NatRestores address rules := by
  intro hall
  let noRules : Rules := fun _ _ => []
  have habsent : masqueradeOff "10.0.1.1/24" ∉ noRules .nat .postrouting := List.not_mem_nil
  have hfails := nat_off_of_absent "10.0.1.1/24" habsent
  have hstatus := (hall "10.0.1.1/24" noRules (nat_on "10.0.1.1/24" noRules).1).1
  rw [hfails] at hstatus
  cases hstatus

end Utils
end Muon
