import Muon.Utils.Route
import Muon.Vpn.Context

/-!
# Routes for several servers

The client's `vpn_init` calls `route` once for each path.  Each call keeps its
own server out of the tunnel and covers every other address, so two paths with
different servers defeat each other: the block that separates the second server
from the first is added for the first and contains the second.
-/

namespace Muon
namespace Vpn

open Utils

/-- The routes `vpn_init` sets up.  A status other than 0 is only logged. -/
def initRoutes (fuel : Nat) (ipremote : String → Option UInt32) (conf : Conf)
    (table : RouteTable) : Option RouteTable :=
  if conf.mode = .client ∧ conf.route = true then
    conf.paths.foldlM (fun table path =>
      (route fuel ipremote conf.tunif path.server (!conf.address.isEmpty)
        (!conf.address6.isEmpty) table).map Prod.snd) table
  else
    some table

/-- `vpn_init` returns, and no block it added to the routing table contains the
address of a server. -/
def ServersOutside (fuel : Nat) (ipremote : String → Option UInt32) (conf : Conf)
    (table : RouteTable) : Prop :=
  ∃ after, initRoutes fuel ipremote conf table = some after ∧
    ∀ entry ∈ after.drop table.length, ∀ subnet, entry.destination = .subnet subnet →
      ∀ path ∈ conf.paths, ∀ ip, ipremote path.server = some ip →
        ¬ subnet.Contains ip.toNat

/-- The calls for a list of paths append entries of their splittings only. -/
theorem foldlM_route_appends (ipremote : String → Option UInt32) (tunif : String)
    (ipv4 ipv6 : Bool) {fuel : Nat} (hfuel : 65 ≤ fuel) (paths : List ConfPath)
    (table : RouteTable) :
    ∃ added, paths.foldlM (fun table path =>
        (route fuel ipremote tunif path.server ipv4 ipv6 table).map Prod.snd) table =
          some (table ++ added) ∧
      ∀ entry ∈ added, ∃ path ∈ paths,
        RouteEntry ipremote path.server ipv4 entry.destination := by
  induction paths generalizing table with
  | nil => exact ⟨[], by simp, by simp⟩
  | cons path paths ih =>
      obtain ⟨status, first, hfirst, hfirstFrom⟩ :=
        route_appends ipremote tunif path.server ipv4 ipv6 hfuel table
      obtain ⟨rest, hrest, hrestFrom⟩ := ih (table ++ first)
      refine ⟨first ++ rest, ?_, fun entry hentry => ?_⟩
      · simp only [List.foldlM_cons, hfirst, Option.map_some, Option.bind_eq_bind,
          Option.bind_some, hrest, List.append_assoc]
      · rcases List.mem_append.mp hentry with hold | hnew
        · exact ⟨path, List.mem_cons_self, hfirstFrom entry hold⟩
        · obtain ⟨other, hother, hfrom⟩ := hrestFrom entry hnew
          exact ⟨other, List.mem_cons_of_mem _ hother, hfrom⟩

/-- Without an IPv4 address, or with one server for all paths, every server stays
outside whatever the table held before. -/
theorem serversOutside_of_uniform {ipremote : String → Option UInt32} {conf : Conf}
    {fuel : Nat} (hfuel : 65 ≤ fuel) (hclient : conf.mode = .client)
    (hroute : conf.route = true)
    (huniform : conf.address = "" ∨ ∀ path ∈ conf.paths, ∀ path' ∈ conf.paths,
      ipremote path.server = ipremote path'.server) (table : RouteTable) :
    ServersOutside fuel ipremote conf table := by
  obtain ⟨added, hadded, hfrom⟩ := foldlM_route_appends ipremote conf.tunif
    (!conf.address.isEmpty) (!conf.address6.isEmpty) hfuel conf.paths table
  refine ⟨table ++ added, by rw [initRoutes, if_pos ⟨hclient, hroute⟩, hadded], ?_⟩
  rw [List.drop_left]
  intro entry hentry subnet hsubnet path hpath ip hip
  obtain ⟨source, hsource, hplanned⟩ := hfrom entry hentry
  rw [hsubnet] at hplanned
  rcases hplanned with hipv6 | ⟨sourceIp, block, hipv4, hsourceIp, hblock, heq⟩
  · cases hipv6
  · cases heq
    rcases huniform with hempty | hsame
    · simp [hempty] at hipv4
    · have hip' : sourceIp = ip := by
        rw [hsame source hsource path hpath, hip] at hsourceIp
        exact (Option.some.inj hsourceIp).symm
      subst hip'
      exact not_contains_of_mem_splitting hblock

/-- On a table with no block of the first server's splitting, two different
servers leave one of them inside. -/
theorem uniform_of_serversOutside {ipremote : String → Option UInt32} {conf : Conf}
    {fuel : Nat} (hfuel : 65 ≤ fuel) (hclient : conf.mode = .client)
    (hroute : conf.route = true)
    (hresolve : ∀ path ∈ conf.paths, ∃ ip, ipremote path.server = some ip)
    {table : RouteTable}
    (hfresh : ∀ path ∈ conf.paths.head?, ∀ ip, ipremote path.server = some ip →
      ∀ subnet ∈ splitting ip.toNat, ¬ table.Present (.subnet subnet))
    (houtside : ServersOutside fuel ipremote conf table) :
    conf.address = "" ∨ ∀ path ∈ conf.paths, ∀ path' ∈ conf.paths,
      ipremote path.server = ipremote path'.server := by
  by_cases hempty : conf.address = ""
  · exact Or.inl hempty
  right
  obtain ⟨after, hafter, houtside⟩ := houtside
  rw [initRoutes, if_pos ⟨hclient, hroute⟩] at hafter
  cases hpaths : conf.paths with
  | nil => simp
  | cons path paths =>
      rw [hpaths] at hresolve hfresh hafter houtside
      obtain ⟨ip, hip⟩ := hresolve path List.mem_cons_self
      have hipv4 : (!conf.address.isEmpty) = true := by simpa using hempty
      obtain ⟨status, first, hfirst, hall⟩ := route_fresh ipremote conf.tunif hip
        (!conf.address6.isEmpty) hfuel (hfresh path rfl ip hip)
      obtain ⟨rest, hrest, -⟩ := foldlM_route_appends ipremote conf.tunif
        (!conf.address.isEmpty) (!conf.address6.isEmpty) hfuel paths (table ++ first)
      rw [List.foldlM_cons, hipv4, hfirst] at hafter
      rw [hipv4] at hrest
      simp only [Option.map_some, Option.bind_eq_bind, Option.bind_some, hrest,
        Option.some.injEq] at hafter
      -- Every server is the first one: another would lie in a block added for it.
      have hsame : ∀ other ∈ path :: paths, ipremote other.server = some ip := by
        intro other hother
        obtain ⟨otherIp, hotherIp⟩ := hresolve other hother
        by_contra hne
        have hdiffer : otherIp.toNat ≠ ip.toNat := by
          intro heq
          rw [hotherIp, UInt32.toNat_inj.mp heq] at hne
          exact hne rfl
        obtain ⟨subnet, hsubnet, hcontains⟩ :=
          exists_mem_splitting_contains ip.toNat_lt otherIp.toNat_lt hdiffer
        have hentry : (⟨.subnet subnet, conf.tunif⟩ : RouteAdd) ∈
            after.drop table.length := by
          rw [← hafter, List.append_assoc, List.drop_left]
          exact List.mem_append_left _ (hall subnet hsubnet)
        exact houtside _ hentry subnet rfl other hother otherIp hotherIp hcontains
      intro left hleft right hright
      rw [hsame left hleft, hsame right hright]

/-- **When the routes keep every server outside the tunnel.**  Whatever the table
holds before, exactly when no IPv4 address is configured or all paths have the
same server. -/
theorem initRoutes_serversOutside_iff (ipremote : String → Option UInt32) (conf : Conf)
    (hclient : conf.mode = .client) (hroute : conf.route = true)
    (hresolve : ∀ path ∈ conf.paths, ∃ ip, ipremote path.server = some ip)
    (fuel : Nat) (hfuel : 65 ≤ fuel) :
    (∀ table, ServersOutside fuel ipremote conf table) ↔
      conf.address = "" ∨ ∀ path ∈ conf.paths, ∀ path' ∈ conf.paths,
        ipremote path.server = ipremote path'.server := by
  constructor
  · intro houtside
    refine uniform_of_serversOutside hfuel hclient hroute hresolve ?_ (houtside [])
    rintro path - ip - subnet - ⟨entry, hentry, -⟩
    exact absurd hentry List.not_mem_nil
  · exact fun huniform table => serversOutside_of_uniform hfuel hclient hroute huniform table

/-- A client with IPv4 and the given servers. -/
def routedClient (servers : List String) : Conf where
  mode := .client
  mtu := 1400
  route := true
  paths := servers.map fun server => ⟨server, 1200, 1299⟩
  tunif := "vpn0"
  address := "10.0.1.2/24"
  address6 := ""

/-- The addresses of two servers. -/
def resolveTwo (server : String) : Option UInt32 :=
  if server = "192.0.2.1" then some 0xc0000201
  else if server = "198.51.100.7" then some 0xc6336407
  else none

/-- One server on two paths stays outside. -/
theorem initRoutes_serversOutside_oneServer :
    ServersOutside 65 resolveTwo (routedClient ["192.0.2.1", "192.0.2.1"]) [] :=
  (initRoutes_serversOutside_iff resolveTwo (routedClient ["192.0.2.1", "192.0.2.1"]) rfl rfl
    (by simp [routedClient, resolveTwo]) 65 (Nat.le_refl 65)).mpr
    (Or.inr (by simp [routedClient])) []

/-- Two servers do not. -/
theorem exists_not_serversOutside :
    ¬ ∀ (ipremote : String → Option UInt32) (conf : Conf), conf.mode = .client →
        conf.route = true →
        (∀ path ∈ conf.paths, ∃ ip, ipremote path.server = some ip) →
        ∀ table, ServersOutside 65 ipremote conf table := by
  intro hall
  have houtside := hall resolveTwo (routedClient ["192.0.2.1", "198.51.100.7"]) rfl rfl
    (by simp [routedClient, resolveTwo]) []
  have huniform := uniform_of_serversOutside (Nat.le_refl 65) rfl rfl
    (by simp [routedClient, resolveTwo])
    (by
      rintro path - ip - subnet - ⟨entry, hentry, -⟩
      exact absurd hentry List.not_mem_nil)
    houtside
  simp [routedClient, resolveTwo] at huniform

end Vpn
end Muon
