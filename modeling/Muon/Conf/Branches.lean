import Muon.Conf.Grammar

/-!
# The branches of `read_conf`

One line of the file, after it has been split: exactly when its branch accepts it, and
what the configuration holds afterwards, when it held what the entries before stand
for.
-/

namespace Muon
namespace Conf

open Foundation Packet

variable {start conf : ConfT} {es : List Entry} {lineNum : Nat} {key value : List UInt8}

/-! ## What the branches accept -/

/-- What an entry has to be, after the entries `es`. -/
structure EntryAllowed (es : List Entry) (e : Entry) : Prop where
  mode : e.key = some .mode → e.value = ascii "server" ∨ e.value = ascii "client"
  route : e.key = some .route → e.value = ascii "yes" ∨ e.value = ascii "no"
  nat : e.key = some .nat → e.value = ascii "yes" ∨ e.value = ascii "no"
  mtu : e.key = some .mtu → 1024 ≤ decimal e.value ∧ decimal e.value ≤ payloadMax
  port : e.key = some .port →
    decimal (portTexts e.value).1 ≤ decimal (portTexts e.value).2
  server : e.key = some .server →
    (pathsOf es).length < pathMaxCount ∧ ∀ path ∈ (pathsOf es).getLast?, path.low ≠ 0

theorem forall_values_concat (es : List Entry) (e : Entry) (known : Key)
    (P : List UInt8 → Prop) :
    (∀ value ∈ values (es ++ [e]) known, P value) ↔
      (∀ value ∈ values es known, P value) ∧ (e.key = some known → P e.value) := by
  by_cases hkey : e.key = some known
  · rw [values_append, values_singleton_of_eq hkey, List.forall_mem_append,
      List.forall_mem_singleton]
    exact and_congr_right fun _ => ⟨fun hvalue _ => hvalue, fun hvalue => hvalue hkey⟩
  · rw [values_concat_of_ne es hkey]
    exact ⟨fun hall => ⟨hall, fun heq => absurd heq hkey⟩, fun hboth => hboth.1⟩

theorem length_values_server (es : List Entry) :
    (values es .server).length = (pathsOf es).length := by
  rw [← map_server_pathsOf, List.length_map]

theorem forall_mem_iff_dropLast (paths : List PathText) (P : PathText → Prop) :
    (∀ path ∈ paths, P path) ↔
      (∀ path ∈ paths.dropLast, P path) ∧ ∀ path ∈ paths.getLast?, P path := by
  obtain rfl | ⟨init, last, rfl⟩ := List.eq_nil_or_concat paths
  · simp only [List.not_mem_nil, false_implies, implies_true, List.dropLast_nil,
      List.getLast?_nil, Option.mem_def, reduceCtorEq, and_self]
  · rw [List.concat_eq_append, List.forall_mem_append, List.dropLast_concat,
      List.getLast?_concat, List.forall_mem_singleton]
    simp only [Option.mem_def, Option.some.injEq, forall_eq']

/-- Only a `server` line makes a path one that is not the last. -/
theorem dropLast_pathsOf_concat (es : List Entry) {e : Entry} (hserver : e.key ≠ some .server) :
    (pathsOf (es ++ [e])).dropLast = (pathsOf es).dropLast := by
  by_cases hport : e.key = some .port
  · obtain hnil | ⟨init, last, hpaths⟩ := List.eq_nil_or_concat (pathsOf es)
    · have hnone : pathsOf (es ++ [e]) = [] := by
        rw [pathsOf_eq_nil_iff] at hnil ⊢
        rw [List.forall_mem_append, List.forall_mem_singleton]
        exact ⟨hnil, hserver⟩
      rw [hnone, hnil]
    · rw [List.concat_eq_append] at hpaths
      rw [pathsOf_concat_port es hport hpaths, hpaths, List.dropLast_concat,
        List.dropLast_concat]
  · rw [pathsOf_concat_other es hserver hport]

/-- One entry more is accepted when it is allowed after the others. -/
theorem entriesAccepted_concat (es : List Entry) (e : Entry) :
    EntriesAccepted (es ++ [e]) ↔ EntriesAccepted es ∧ EntryAllowed es e := by
  -- the two clauses that look at other entries
  have hservers : (values (es ++ [e]) .server).length ≤ pathMaxCount ∧
      (∀ path ∈ (pathsOf (es ++ [e])).dropLast, path.low ≠ 0) ↔
        ((values es .server).length ≤ pathMaxCount ∧
          ∀ path ∈ (pathsOf es).dropLast, path.low ≠ 0) ∧
        (e.key = some .server →
          (pathsOf es).length < pathMaxCount ∧ ∀ path ∈ (pathsOf es).getLast?, path.low ≠ 0) := by
    by_cases hserver : e.key = some .server
    · rw [length_values_server, length_values_server, pathsOf_concat_server es hserver,
        List.dropLast_concat, List.length_append, forall_mem_iff_dropLast]
      constructor
      · rintro ⟨hlength, hinit, hlast⟩
        exact ⟨⟨Nat.le_of_succ_le hlength, hinit⟩, fun _ => ⟨hlength, hlast⟩⟩
      · rintro ⟨⟨-, hinit⟩, hentry⟩
        exact ⟨(hentry hserver).1, hinit, (hentry hserver).2⟩
    · rw [values_concat_of_ne es hserver, dropLast_pathsOf_concat es hserver]
      exact ⟨fun hall => ⟨hall, fun heq => absurd heq hserver⟩, fun hboth => hboth.1⟩
  constructor
  · intro haccepted
    obtain ⟨hold, hserver⟩ := hservers.mp ⟨haccepted.servers, haccepted.ported⟩
    have hmode := (forall_values_concat es e .mode _).mp haccepted.mode
    have hroute := (forall_values_concat es e .route _).mp haccepted.route
    have hnat := (forall_values_concat es e .nat _).mp haccepted.nat
    have hmtu := (forall_values_concat es e .mtu _).mp haccepted.mtu
    have hport := (forall_values_concat es e .port _).mp haccepted.port
    exact ⟨⟨hmode.1, hroute.1, hnat.1, hmtu.1, hport.1, hold.1, hold.2⟩,
      ⟨hmode.2, hroute.2, hnat.2, hmtu.2, hport.2, hserver⟩⟩
  · rintro ⟨hold, hentry⟩
    obtain ⟨hlength, hported⟩ := hservers.mpr ⟨⟨hold.servers, hold.ported⟩, hentry.server⟩
    exact
      { mode := (forall_values_concat es e .mode _).mpr ⟨hold.mode, hentry.mode⟩
        route := (forall_values_concat es e .route _).mpr ⟨hold.route, hentry.route⟩
        nat := (forall_values_concat es e .nat _).mpr ⟨hold.nat, hentry.nat⟩
        mtu := (forall_values_concat es e .mtu _).mpr ⟨hold.mtu, hentry.mtu⟩
        port := (forall_values_concat es e .port _).mpr ⟨hold.port, hentry.port⟩
        servers := hlength
        ported := hported }

/-! ## When a branch accepts -/

/-- The last path of the array stands where the last one of the entries does. -/
theorem lastPath_cases (hcount : conf.pathCount = (pathsOf es).length) :
    (pathsOf es = [] ∧ conf.lastPath = none) ∨
      ∃ (init : List PathText) (last : PathText) (i : Fin pathMaxCount),
        pathsOf es = init ++ [last] ∧ conf.lastPath = some i ∧ i.val = init.length := by
  have hle := conf.pathCount_le
  obtain hnil | ⟨init, last, hpaths⟩ := List.eq_nil_or_concat (pathsOf es)
  · rw [hnil] at hcount
    exact Or.inl ⟨hnil, dif_neg (by rw [hcount]; exact Nat.lt_irrefl 0)⟩
  · rw [List.concat_eq_append] at hpaths
    rw [hpaths, List.length_append, List.length_singleton] at hcount
    have hlast : conf.lastPath = some ⟨conf.pathCount - 1, by omega⟩ := dif_pos (by omega)
    refine Or.inr ⟨init, last, _, hpaths, hlast, ?_⟩
    simp only [hcount, Nat.add_sub_cancel]

theorem Computes.lastPath_eq_none (hcomputes : Computes start es conf) (hnil : pathsOf es = []) :
    conf.lastPath = none := by
  obtain ⟨-, hnone⟩ | ⟨init, last, i, hpaths, -⟩ := lastPath_cases hcomputes.pathCount
  · exact hnone
  · rw [hnil] at hpaths
    exact absurd hpaths.symm (List.append_ne_nil_of_right_ne_nil init (List.cons_ne_nil last []))

theorem Computes.lastPath_eq_some (hcomputes : Computes start es conf) {init : List PathText}
    {last : PathText} (hpaths : pathsOf es = init ++ [last]) :
    ∃ i : Fin pathMaxCount, conf.lastPath = some i ∧ i.val = init.length ∧
      PathHolds (conf.paths i) last := by
  obtain ⟨hnil, -⟩ | ⟨init', last', i, hpaths', hlast, hi⟩ := lastPath_cases hcomputes.pathCount
  · rw [hnil] at hpaths
    exact absurd hpaths.symm (List.append_ne_nil_of_right_ne_nil init (List.cons_ne_nil last []))
  · obtain ⟨rfl, -⟩ := List.append_inj' (hpaths'.symm.trans hpaths) rfl
    refine ⟨i, hlast, hi, hcomputes.paths i last ?_⟩
    rw [hpaths, hi, List.getElem?_concat_length]

/-- What an entry has to be for `read_conf` to take it, when it has computed `conf`. -/
structure EntryFits (conf : ConfT) (e : Entry) : Prop where
  mode : e.key = some .mode → e.value = ascii "server" ∨ e.value = ascii "client"
  route : e.key = some .route → e.value = ascii "yes" ∨ e.value = ascii "no"
  nat : e.key = some .nat → e.value = ascii "yes" ∨ e.value = ascii "no"
  mtu : e.key = some .mtu → 1024 ≤ atoi e.value ∧ atoi e.value ≤ payloadMax
  port : e.key = some .port →
    conf.lastPath ≠ none ∧ atoi (portTexts e.value).1 ≤ atoi (portTexts e.value).2
  server : e.key = some .server →
    conf.pathCount < pathMaxCount ∧ ∀ last ∈ conf.lastPath, (conf.paths last).portLow ≠ 0

theorem readMode_ok_iff :
    (∃ mode, readMode lineNum value = .ok mode) ↔
      value = ascii "server" ∨ value = ascii "client" := by
  unfold readMode
  split
  · next hserver => exact ⟨fun _ => Or.inl hserver, fun _ => ⟨modeServer, rfl⟩⟩
  · next hserver =>
      split
      · next hclient => exact ⟨fun _ => Or.inr hclient, fun _ => ⟨modeClient, rfl⟩⟩
      · next hclient =>
          exact ⟨nofun,
            fun heither => absurd heither (not_or.mpr ⟨hserver, hclient⟩)⟩

theorem readYesNo_ok_iff (field : String) :
    (∃ flag, readYesNo field lineNum value = .ok flag) ↔
      value = ascii "yes" ∨ value = ascii "no" := by
  unfold readYesNo
  split
  · next hyes => exact ⟨fun _ => Or.inl hyes, fun _ => ⟨1, rfl⟩⟩
  · next hyes =>
      split
      · next hno => exact ⟨fun _ => Or.inr hno, fun _ => ⟨0, rfl⟩⟩
      · next hno =>
          exact ⟨nofun,
            fun heither => absurd heither (not_or.mpr ⟨hyes, hno⟩)⟩

theorem store_status_iff {checked : Except String Int} {assign : Int → ConfT} :
    (store conf checked assign).status = .ok ↔ ∃ stored, checked = .ok stored := by
  cases checked with
  | ok stored => exact ⟨fun _ => ⟨stored, rfl⟩, fun _ => rfl⟩
  | error message => exact ⟨nofun, nofun⟩

theorem addServer_status_iff :
    (addServer lineNum value conf).status = .ok ↔
      conf.pathCount < pathMaxCount ∧ ∀ last ∈ conf.lastPath, (conf.paths last).portLow ≠ 0 := by
  have hmissing : (conf.lastPath.any fun last => (conf.paths last).portLow = 0) = true ↔
      ¬ ∀ last ∈ conf.lastPath, (conf.paths last).portLow ≠ 0 := by
    rw [Option.any_eq_true]
    push Not
    simp only [decide_eq_true_eq, Option.mem_def]
  unfold addServer
  by_cases hcount : conf.pathCount < pathMaxCount
  · rw [dif_pos hcount]
    split
    · next hany =>
        refine iff_of_false ?_ fun hboth => hmissing.mp hany hboth.2
        intro hok
        cases hok
    · next hany =>
        exact iff_of_true rfl ⟨hcount, not_not.mp fun hnot => hany (hmissing.mpr hnot)⟩
  · rw [dif_neg hcount]
    refine iff_of_false ?_ fun hboth => hcount hboth.1
    intro hok
    cases hok

theorem setPort_status_iff :
    (setPort lineNum value conf).status = .ok ↔
      conf.lastPath ≠ none ∧ atoi (portTexts value).1 ≤ atoi (portTexts value).2 := by
  unfold setPort
  dsimp only
  split
  · next hrange =>
      refine iff_of_false ?_ fun hboth => Int.not_le.mpr hrange hboth.2
      intro hok
      cases hok
  · next hrange =>
      cases hlast : conf.lastPath with
      | none =>
          refine iff_of_false ?_ fun hboth => hboth.1 rfl
          intro hok
          cases hok
      | some last => exact iff_of_true rfl ⟨Option.some_ne_none last, Int.not_lt.mp hrange⟩

theorem readMtu_ok_iff (mtu : Int) :
    (∃ stored, readMtu lineNum mtu = .ok stored) ↔ 1024 ≤ mtu ∧ mtu ≤ payloadMax := by
  unfold readMtu
  split
  · next hsmall => exact ⟨nofun, fun hboth => by omega⟩
  · split
    · next hlarge => exact ⟨nofun, fun hboth => by omega⟩
    · exact ⟨fun _ => ⟨by omega, by omega⟩, fun _ => ⟨mtu, rfl⟩⟩

/-- The branches accept exactly what fits. -/
theorem assign_status_iff :
    (assign lineNum key value conf).status = .ok ↔ EntryFits conf ⟨keyOf key, value⟩ := by
  unfold assign
  cases hkey : keyOf key with
  | none => exact iff_of_true rfl ⟨nofun, nofun, nofun, nofun, nofun, nofun⟩
  | some known =>
      cases known with
      | user | key | tunif | address | address6 =>
          exact iff_of_true rfl ⟨nofun, nofun, nofun, nofun, nofun, nofun⟩
      | mode =>
          rw [store_status_iff, readMode_ok_iff]
          exact ⟨fun hvalue => ⟨fun _ => hvalue, nofun, nofun, nofun, nofun, nofun⟩,
            fun hfits => hfits.mode rfl⟩
      | route =>
          rw [store_status_iff, readYesNo_ok_iff]
          exact ⟨fun hvalue => ⟨nofun, fun _ => hvalue, nofun, nofun, nofun, nofun⟩,
            fun hfits => hfits.route rfl⟩
      | nat =>
          rw [store_status_iff, readYesNo_ok_iff]
          exact ⟨fun hvalue => ⟨nofun, nofun, fun _ => hvalue, nofun, nofun, nofun⟩,
            fun hfits => hfits.nat rfl⟩
      | mtu =>
          dsimp only
          rw [store_status_iff, readMtu_ok_iff]
          exact ⟨fun hvalue => ⟨nofun, nofun, nofun, fun _ => hvalue, nofun, nofun⟩,
            fun hfits => hfits.mtu rfl⟩
      | port =>
          dsimp only
          rw [setPort_status_iff]
          exact ⟨fun hvalue => ⟨nofun, nofun, nofun, nofun, fun _ => hvalue, nofun⟩,
            fun hfits => hfits.port rfl⟩
      | server =>
          dsimp only
          rw [addServer_status_iff]
          exact ⟨fun hvalue => ⟨nofun, nofun, nofun, nofun, nofun, fun _ => hvalue⟩,
            fun hfits => hfits.server rfl⟩

/-! ## What fits, in the words of the entries before -/

theorem lastPath_ne_none_iff (hcount : conf.pathCount = (pathsOf es).length) :
    conf.lastPath ≠ none ↔ pathsOf es ≠ [] := by
  obtain ⟨hnil, hnone⟩ | ⟨init, last, i, hpaths, hlast, -⟩ := lastPath_cases hcount
  · rw [hnil, hnone]
    exact iff_of_false (fun hne => hne rfl) fun hne => hne rfl
  · rw [hpaths, hlast]
    exact iff_of_true (Option.some_ne_none i)
      (List.append_ne_nil_of_right_ne_nil init (List.cons_ne_nil last []))

/-- `low` is what the last path of the array has for its first port. -/
theorem forall_lastPath_iff (hcount : conf.pathCount = (pathsOf es).length)
    (low : PathText → Int) (hlow : ∀ path ∈ (pathsOf es).getLast?, ∀ i ∈ conf.lastPath,
      (conf.paths i).portLow = low path) :
    (∀ last ∈ conf.lastPath, (conf.paths last).portLow ≠ 0) ↔
      ∀ path ∈ (pathsOf es).getLast?, low path ≠ 0 := by
  obtain ⟨hnil, hnone⟩ | ⟨init, last, i, hpaths, hlast, -⟩ := lastPath_cases hcount
  · rw [hnil, hnone]
    simp only [Option.mem_def, reduceCtorEq, false_implies, implies_true, List.getLast?_nil]
  · rw [hpaths, List.getLast?_concat, hlast] at hlow ⊢
    simp only [Option.mem_def, Option.some.injEq, forall_eq'] at hlow ⊢
    rw [hlow]

/-- What an entry that is read next is promised to be. -/
structure EntryPosed (es : List Entry) (e : Entry) : Prop where
  follows : e.key = some .port → pathsOf es ≠ []
  mtu : e.key = some .mtu → FitsInt (decimal e.value)
  port : e.key = some .port →
    FitsInt (decimal (portTexts e.value).1) ∧ FitsInt (decimal (portTexts e.value).2)

/-- An entry that is posed fits exactly when it is allowed. -/
theorem Computes.entryFits_iff (hcomputes : Computes start es conf) {e : Entry}
    (hposed : EntryPosed es e) : EntryFits conf e ↔ EntryAllowed es e := by
  have hports := forall_lastPath_iff hcomputes.pathCount PathText.low (by
    intro path hpath i hi
    obtain ⟨init, hpaths⟩ := List.getLast?_eq_some_iff.mp hpath
    obtain ⟨i', hlast, -, hholds⟩ := hcomputes.lastPath_eq_some hpaths
    obtain rfl : i' = i := Option.some.inj (hlast.symm.trans hi)
    exact hholds.low)
  have hmtu : e.key = some .mtu → atoi e.value = decimal e.value :=
    fun hkey => atoi_of_fits (hposed.mtu hkey)
  have hrange : e.key = some .port →
      ((conf.lastPath ≠ none ∧ atoi (portTexts e.value).1 ≤ atoi (portTexts e.value).2) ↔
        decimal (portTexts e.value).1 ≤ decimal (portTexts e.value).2) := by
    intro hkey
    obtain ⟨hlow, hhigh⟩ := hposed.port hkey
    rw [atoi_of_fits hlow, atoi_of_fits hhigh, lastPath_ne_none_iff hcomputes.pathCount]
    exact and_iff_right (hposed.follows hkey)
  constructor
  · intro hfits
    exact
      { mode := hfits.mode
        route := hfits.route
        nat := hfits.nat
        mtu := fun hkey => hmtu hkey ▸ hfits.mtu hkey
        port := fun hkey => (hrange hkey).mp (hfits.port hkey)
        server := by
          rw [← hcomputes.pathCount, ← hports]
          exact hfits.server }
  · intro hallowed
    exact
      { mode := hallowed.mode
        route := hallowed.route
        nat := hallowed.nat
        mtu := fun hkey => (hmtu hkey).symm ▸ hallowed.mtu hkey
        port := fun hkey => (hrange hkey).mpr (hallowed.port hkey)
        server := by
          rw [hcomputes.pathCount, hports]
          exact hallowed.server }

end Conf
end Muon
