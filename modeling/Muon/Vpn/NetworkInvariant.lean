import Muon.Vpn.Network

/-!
# The invariant of client and server

The three values a peer needs to reach the other one (its socket, the remote
address and the token) are written at different times on the two sides.  The
invariant ties them to the endpoints of the client: every triple of the client is
that of one of its bound endpoints, every path that a server answers on names a
bound endpoint of the client with the same token, and every datagram ever sent
carries the token of the client's endpoint it comes from or goes to.
-/

namespace Muon
namespace Vpn

open Foundation Packet Totp

variable {crypto : Crypto} {deployment : Deployment} {net : Network}
  {process process' : Process} {outputs : List Output}

/-! ## The invariant -/

/-- What holds of a client by itself. -/
structure ClientInv (deployment : Deployment) (process : Process) : Prop where
  inRange : ∀ e ∈ endpoints process, InRange deployment.client e.path e.token
  port : ∀ e ∈ endpoints process,
    (⟨deployment.host e.path, e.port⟩ : IpAddr) = deployment.address e.path e.token
  notServer : ∀ e ∈ endpoints process, ∀ bound, e.bound = some bound →
    ∀ path token, InRange deployment.client path token →
      bound ≠ deployment.address path token
  distinct : ∀ e ∈ endpoints process, ∀ e' ∈ endpoints process, ∀ bound,
    e.bound = some bound → e'.bound = some bound → e = e'
  triple : ∀ path sock, (process.ctx.paths path).sock = some sock →
    ∃ e bound, (endpoints process)[sock]? = some e ∧ e.bound = some bound ∧
      e.path = path ∧ e.token = (process.ctx.paths path).token ∧
      (process.ctx.paths path).remote = deployment.address path e.token

/-- A bound endpoint of the client with a path, a token and an address. -/
def ClientSocket (sockets : List Endpoint) (path : Nat) (token : Int) (address : IpAddr) :
    Prop :=
  ∃ e ∈ sockets, e.path = path ∧ e.token = token ∧ e.bound = some address

/-- What holds of a server, given the endpoints of the client. -/
structure ServerInv (deployment : Deployment) (sockets : List Endpoint)
    (process : Process) : Prop where
  inRange : ∀ e ∈ endpoints process, InRange deployment.client e.path e.token
  bound : ∀ e ∈ endpoints process, e.bound = some (deployment.address e.path e.token)
  answer : ∀ path, 0 < (process.ctx.paths path).alive →
    ∃ sock e, (process.ctx.paths path).sock = some sock ∧
      (endpoints process)[sock]? = some e ∧ e.path = path ∧
      e.token = (process.ctx.paths path).token ∧
      ClientSocket sockets path (process.ctx.paths path).token
        (process.ctx.paths path).remote

/-- A datagram carries the token of the client socket it comes from or goes to. -/
def Traceable (crypto : Crypto) (deployment : Deployment) (sockets : List Endpoint)
    (datagram : Datagram) : Prop :=
  ∃ path token address, ClientSocket sockets path token address ∧
    Carries crypto token deployment.client.mtu datagram.bytes ∧
    ((datagram.source = address ∧ datagram.target = deployment.address path token) ∨
      datagram.target = address)

/-- What holds of both peers and the network. -/
structure NetworkInv (crypto : Crypto) (deployment : Deployment) (net : Network) : Prop where
  client : ClientInv deployment net.client
  server : ServerInv deployment (endpoints net.client) net.server
  sent : ∀ datagram ∈ net.sent, Traceable crypto deployment (endpoints net.client) datagram

/-! ## Endpoints of the client stay -/

/-- Bound endpoints are still there. -/
def Grows (sockets sockets' : List Endpoint) : Prop :=
  ∀ e ∈ sockets, e.bound ≠ none → e ∈ sockets'

theorem Grows.refl (sockets : List Endpoint) : Grows sockets sockets := fun _ he _ => he

theorem ClientSocket.grow {sockets sockets' : List Endpoint} {path : Nat} {token : Int}
    {address : IpAddr} (hsocket : ClientSocket sockets path token address)
    (hgrows : Grows sockets sockets') : ClientSocket sockets' path token address := by
  obtain ⟨e, he, hpath, htoken, hbound⟩ := hsocket
  refine ⟨e, hgrows e he ?_, hpath, htoken, hbound⟩
  rw [hbound]
  exact Option.some_ne_none _

theorem ServerInv.grow {sockets sockets' : List Endpoint}
    (hinv : ServerInv deployment sockets process) (hgrows : Grows sockets sockets') :
    ServerInv deployment sockets' process where
  inRange := hinv.inRange
  bound := hinv.bound
  answer := by
    intro path halive
    obtain ⟨sock, e, hsock, he, hpath, htoken, hsocket⟩ := hinv.answer path halive
    exact ⟨sock, e, hsock, he, hpath, htoken, hsocket.grow hgrows⟩

theorem Traceable.grow {sockets sockets' : List Endpoint} {datagram : Datagram}
    (htraceable : Traceable crypto deployment sockets datagram)
    (hgrows : Grows sockets sockets') : Traceable crypto deployment sockets' datagram := by
  obtain ⟨path, token, address, hsocket, hcarries, hends⟩ := htraceable
  exact ⟨path, token, address, hsocket.grow hgrows, hcarries, hends⟩

/-! ## The client -/

/-- Endpoints and triples are all that the invariant of a client is about. -/
theorem ClientInv.of_same (hinv : ClientInv deployment process)
    (hendpoints : endpoints process' = endpoints process)
    (htriples : SameTriples process.ctx process'.ctx) : ClientInv deployment process' where
  inRange := by rw [hendpoints]; exact hinv.inRange
  port := by rw [hendpoints]; exact hinv.port
  notServer := by rw [hendpoints]; exact hinv.notServer
  distinct := by rw [hendpoints]; exact hinv.distinct
  triple := by
    intro path sock hsock
    rw [htriples.sock] at hsock
    rw [hendpoints, htriples.token, htriples.remote]
    exact hinv.triple path sock hsock

/-- `client_hop` adds an unbound endpoint. -/
theorem ClientInv.hopped (hinv : ClientInv deployment process) {e : Endpoint}
    (hendpoints : endpoints process' = endpoints process ++ [e])
    (hctx : process'.ctx = process.ctx) (hbound : e.bound = none)
    (hrange : InRange deployment.client e.path e.token)
    (hport : (⟨deployment.host e.path, e.port⟩ : IpAddr) =
      deployment.address e.path e.token) :
    ClientInv deployment process' := by
  -- the new endpoint is the only one that was not there, and it has no address yet
  have hcases : ∀ e' ∈ endpoints process', e' ∈ endpoints process ∨ e' = e := by
    intro e' he'
    rw [hendpoints, List.mem_append, List.mem_singleton] at he'
    exact he'
  have hold : ∀ e' ∈ endpoints process', ∀ bound, e'.bound = some bound →
      e' ∈ endpoints process := by
    intro e' he' bound hsome
    rcases hcases e' he' with hmem | rfl
    · exact hmem
    · rw [hbound] at hsome
      cases hsome
  refine ⟨?_, ?_, ?_, ?_, ?_⟩
  · intro e' he'
    rcases hcases e' he' with hmem | rfl
    · exact hinv.inRange e' hmem
    · exact hrange
  · intro e' he'
    rcases hcases e' he' with hmem | rfl
    · exact hinv.port e' hmem
    · exact hport
  · intro e' he' bound hsome
    exact hinv.notServer e' (hold e' he' bound hsome) bound hsome
  · intro e' he' e'' he'' bound hsome hsome'
    exact hinv.distinct e' (hold e' he' bound hsome) e'' (hold e'' he'' bound hsome') bound
      hsome hsome'
  · intro path sock hsock
    rw [hctx] at hsock ⊢
    obtain ⟨e', bound, he', hrest⟩ := hinv.triple path sock hsock
    refine ⟨e', bound, ?_, hrest⟩
    rw [hendpoints, List.getElem?_append_left (List.getElem?_eq_some_iff.mp he').1]
    exact he'

/-- A worker that binds its socket at a new address. -/
theorem ClientInv.resolved (hinv : ClientInv deployment net.client) {index : Nat}
    {worker : Worker} {bound : IpAddr}
    (hworker : net.client.workers[index]? = some worker)
    (hstate : worker.state = .resolving) (hfresh : Fresh deployment net bound) :
    let process' := resolveWorker net.client index worker
      ⟨deployment.host worker.path, worker.port⟩ (some bound)
    ClientInv deployment process' ∧ Grows (endpoints net.client) (endpoints process') := by
  obtain ⟨hendpoints, hsockNew, hremoteNew, htokenNew, hothers⟩ :=
    resolveWorker_bound net.client index worker
      ⟨deployment.host worker.path, worker.port⟩ bound
  have hget := endpoints_getElem? hworker
  have hmem := endpoint_mem hworker
  have hunbound : worker.endpoint.bound = none := by simp [Worker.endpoint, hstate]
  have hlength : index < (endpoints net.client).length :=
    (List.getElem?_eq_some_iff.mp hget).1
  -- the worker was unbound, so no bound endpoint is overwritten
  have hkeep : ∀ sock e, (endpoints net.client)[sock]? = some e → e.bound ≠ none →
      sock ≠ index := by
    rintro sock e he hne rfl
    rw [hget] at he
    cases he
    exact hne hunbound
  intro process'
  have hcases : ∀ e ∈ endpoints process', e ∈ endpoints net.client ∨
      e = { worker.endpoint with bound := some bound } := by
    intro e he
    rw [hendpoints] at he
    exact List.mem_or_eq_of_mem_set he
  refine ⟨⟨?_, ?_, ?_, ?_, ?_⟩, ?_⟩
  · intro e he
    rcases hcases e he with hold | rfl
    · exact hinv.inRange e hold
    · exact hinv.inRange worker.endpoint hmem
  · intro e he
    rcases hcases e he with hold | rfl
    · exact hinv.port e hold
    · exact hinv.port worker.endpoint hmem
  · intro e he address hsome
    rcases hcases e he with hold | rfl
    · exact hinv.notServer e hold address hsome
    · cases hsome
      exact fun path token hrange => hfresh.ne_address hrange
  · intro e he e' he' address hsome hsome'
    rcases hcases e he with hold | rfl
    · rcases hcases e' he' with hold' | rfl
      · exact hinv.distinct e hold e' hold' address hsome hsome'
      · -- another endpoint cannot have the new address
        cases hsome'
        exact absurd hsome (hfresh.1 e hold)
    · rcases hcases e' he' with hold' | rfl
      · cases hsome
        exact absurd hsome' (hfresh.1 e' hold')
      · rfl
  · intro path sock hsock
    rcases eq_or_ne path worker.path with rfl | hne
    · rw [hsockNew] at hsock
      cases hsock
      refine ⟨{ worker.endpoint with bound := some bound }, bound, ?_, rfl, rfl,
        htokenNew.symm, ?_⟩
      · rw [hendpoints, List.getElem?_set_self hlength]
      · rw [hremoteNew]
        exact hinv.port worker.endpoint hmem
    · rw [hothers path hne] at hsock ⊢
      obtain ⟨e, address, he, hsome, hrest⟩ := hinv.triple path sock hsock
      refine ⟨e, address, ?_, hsome, hrest⟩
      have hother := hkeep sock e he (by rw [hsome]; exact Option.some_ne_none _)
      rw [hendpoints, List.getElem?_set_ne (Ne.symm hother)]
      exact he
  · intro e he hne
    obtain ⟨sock, hsock⟩ := List.getElem?_of_mem he
    refine List.mem_of_getElem? (i := sock) ?_
    rw [hendpoints, List.getElem?_set_ne (Ne.symm (hkeep sock e hsock hne))]
    exact hsock

/-- **Every event of the client keeps its invariant and its endpoints.** -/
theorem ClientInv.step (hreach : Reachable (network crypto deployment) net)
    (hinv : ClientInv deployment net.client) {event : Event}
    (hworld : ClientWorld deployment net event)
    (hstep : step crypto net.client event = some (.ok (process', outputs))) :
    ClientInv deployment process' ∧ Grows (endpoints net.client) (endpoints process') := by
  have hconf := client_sameConf hreach
  have hmode : net.client.ctx.mode = .client := hconf.mode.trans deployment.client_mode
  have hmtu : 0 ≤ net.client.ctx.mtu := by
    rw [hconf.mtu]
    exact deployment.mtu_nonneg
  have hsame : endpoints process' = endpoints net.client →
      SameTriples net.client.ctx process'.ctx →
      ClientInv deployment process' ∧ Grows (endpoints net.client) (endpoints process') := by
    intro hendpoints htriples
    refine ⟨hinv.of_same hendpoints htriples, ?_⟩
    rw [hendpoints]
    exact .refl _
  cases event with
  | start stack now listen =>
      obtain ⟨start, starts, hstarts, rfl, -⟩ := step_start hstep
      cases start with
      | udpWorker path port =>
          -- `vpn_run` of a client starts no worker itself
          have hmem : .udpWorker path port ∈ net.client.starts := by
            rw [hstarts]
            exact List.mem_cons_self
          have hserver := (udpWorker_mem_starts
            ((starts_of_reachable (client_reachable hreach)).1 hmem)).1
          rw [deployment.client_mode] at hserver
          cases hserver
      | clientHop => exact hsame rfl (SameSockets.refl _).toSameTriples
      | tunWorker => exact hsame rfl (SameSockets.refl _).toSameTriples
      | heartbeat => exact hsame rfl (SameSockets.refl _).toSameTriples
  | hop clock stack now =>
      obtain ⟨path, -, hpath, rfl, -⟩ := step_hop hstep
      have hcount : path < deployment.client.paths.length := by
        rw [hconf.pathCount] at hpath
        exact hpath
      obtain ⟨hlow, hhigh⟩ := deployment.portRange_bounds hcount
      obtain ⟨hendpoints, hctx⟩ := startWorker_client
        { net.client with hopNext := some (path + 1) } hmode path
        (totp crypto (net.client.ctx.paths path).portRange clock 0) 5000 now stack none
      have hrange : InRange deployment.client path
          (totp crypto (net.client.ctx.paths path).portRange clock 0) := by
        rw [hconf.portRange]
        exact ⟨hcount, totp_bounds crypto hlow hhigh clock 0⟩
      refine ⟨hinv.hopped hendpoints hctx rfl hrange ?_, ?_⟩
      · exact deployment.workerPort_eq (hconf.portStart path) hrange
      · rw [hendpoints]
        exact fun e he _ => List.mem_append_left _ he
  | resolved index remote listen =>
      obtain ⟨worker, hworker, hstate, rfl, -⟩ := step_resolved hstep
      simp only [ClientWorld, Resolved, hworker] at hworld
      cases listen with
      -- the network of this module binds every socket
      | none => exact hworld.elim
      | some bound =>
          obtain ⟨rfl, hfresh⟩ := hworld
          exact hinv.resolved hworker hstate hfresh
  | received index source bytes =>
      obtain ⟨worker, hworker, -, hreceive⟩ := step_received hstep
      obtain ⟨pbuf, ⟨rfl, -⟩ | ⟨n, data, -, -, -, -, -, rfl, -⟩⟩ :=
        receiveDatagram_cases hreceive
      · exact hsame (map_endpoint_set hworker rfl) (SameSockets.refl _).toSameTriples
      · exact hsame (map_endpoint_set hworker rfl) (acceptDatagram_client hmode _ _ _ _)
  | hopWake | receiveError | timeout | tunRead | tunReadError | heartbeat =>
      obtain ⟨hendpoints, hsockets⟩ := step_kept hstep id hmtu
      exact hsame hendpoints hsockets.toSameTriples

/-! ## Deliveries -/

/-- A datagram for an address of the server comes from a socket of the client
with the path and the token of that address. -/
theorem NetworkInv.delivered_server (hinv : NetworkInv crypto deployment net) {index : Nat}
    {worker : Worker} {source : IpAddr} {bytes : List UInt8}
    (hworker : net.server.workers[index]? = some worker)
    (hstate : worker.state = .receiving)
    (hsent : ⟨source, worker.bound, bytes⟩ ∈ net.sent) :
    ClientSocket (endpoints net.client) worker.path worker.token source ∧
      Carries crypto worker.token deployment.client.mtu bytes := by
  have hmem := endpoint_mem hworker
  have hrange := hinv.server.inRange _ hmem
  have hbound : worker.bound = deployment.address worker.path worker.token := by
    have heq := hinv.server.bound _ hmem
    rw [endpoint_bound_receiving hstate] at heq
    exact Option.some.inj heq
  obtain ⟨path, token, address, hsocket, hcarries, hends⟩ := hinv.sent _ hsent
  obtain ⟨e, he, rfl, rfl, hsome⟩ := hsocket
  rcases hends with ⟨hsource, htarget⟩ | htarget
  · have hsource : source = address := hsource
    have htarget : worker.bound = deployment.address e.path e.token := htarget
    obtain ⟨hpath, htoken⟩ := deployment.address_inj hrange (hinv.client.inRange e he)
      (hbound.symm.trans htarget)
    have hpath : worker.path = e.path := hpath
    have htoken : worker.token = e.token := htoken
    rw [hpath, htoken, hsource]
    exact ⟨⟨e, he, rfl, rfl, hsome⟩, hcarries⟩
  · have htarget : worker.bound = address := htarget
    exact absurd (htarget.symm.trans hbound)
      (hinv.client.notServer e he address hsome _ _ hrange)

/-- A datagram for an address of the client carries the token of the worker that
owns it. -/
theorem NetworkInv.delivered_client (hinv : NetworkInv crypto deployment net) {index : Nat}
    {worker : Worker} {source : IpAddr} {bytes : List UInt8}
    (hworker : net.client.workers[index]? = some worker)
    (hstate : worker.state = .receiving)
    (hsent : ⟨source, worker.bound, bytes⟩ ∈ net.sent) :
    Carries crypto worker.token deployment.client.mtu bytes := by
  have hmem := endpoint_mem hworker
  have hbound := endpoint_bound_receiving hstate
  obtain ⟨path, token, address, hsocket, hcarries, hends⟩ := hinv.sent _ hsent
  obtain ⟨e, he, rfl, rfl, hsome⟩ := hsocket
  rcases hends with ⟨-, htarget⟩ | htarget
  · have htarget : worker.bound = deployment.address e.path e.token := htarget
    exact absurd htarget (hinv.client.notServer _ hmem _ hbound _ _
      (hinv.client.inRange e he))
  · have htarget : worker.bound = address := htarget
    rw [htarget] at hbound
    have heq := hinv.client.distinct _ hmem e he address hbound hsome
    have htoken : worker.token = e.token := congrArg Endpoint.token heq
    rw [htoken]
    exact hcarries

/-! ## The server -/

theorem ServerInv.of_same {sockets : List Endpoint}
    (hinv : ServerInv deployment sockets process)
    (hendpoints : endpoints process' = endpoints process)
    (hsame : SameSockets process.ctx process'.ctx) :
    ServerInv deployment sockets process' where
  inRange := by rw [hendpoints]; exact hinv.inRange
  bound := by rw [hendpoints]; exact hinv.bound
  answer := by
    intro path halive
    rw [hsame.sock, hsame.token, hsame.remote, hendpoints]
    exact hinv.answer path (hsame.alive path halive)

/-- A worker of the server starts; until it receives, its path answers nobody. -/
theorem ServerInv.started {sockets : List Endpoint}
    (hinv : ServerInv deployment sockets process) {path : Nat} {token port : Int}
    (hrange : InRange deployment.client path token)
    (hendpoints : endpoints process' =
      endpoints process ++ [⟨path, token, port, some (deployment.address path token)⟩])
    (hdead : (process'.ctx.paths path).alive = 0)
    (hothers : ∀ i, i ≠ path → process'.ctx.paths i = process.ctx.paths i) :
    ServerInv deployment sockets process' where
  inRange := by
    intro e he
    rw [hendpoints, List.mem_append, List.mem_singleton] at he
    rcases he with hold | rfl
    · exact hinv.inRange e hold
    · exact hrange
  bound := by
    intro e he
    rw [hendpoints, List.mem_append, List.mem_singleton] at he
    rcases he with hold | rfl
    · exact hinv.bound e hold
    · rfl
  answer := by
    intro i halive
    rcases eq_or_ne i path with rfl | hne
    · omega
    · rw [hothers i hne] at halive ⊢
      obtain ⟨sock, e, hsock, he, hrest⟩ := hinv.answer i halive
      refine ⟨sock, e, hsock, ?_, hrest⟩
      rw [hendpoints, List.getElem?_append_left (List.getElem?_eq_some_iff.mp he).1]
      exact he

/-- A worker of the server accepts a datagram of a socket of the client. -/
theorem ServerInv.accepted {sockets : List Endpoint}
    (hinv : ServerInv deployment sockets process) {index : Nat} {worker : Worker}
    {source : IpAddr} (hworker : process.workers[index]? = some worker)
    (hclient : ClientSocket sockets worker.path worker.token source)
    (hendpoints : endpoints process' = endpoints process)
    (hsock : (process'.ctx.paths worker.path).sock = some index)
    (hremote : (process'.ctx.paths worker.path).remote = source)
    (htoken : (process'.ctx.paths worker.path).token = worker.token)
    (hothers : ∀ i, i ≠ worker.path → process'.ctx.paths i = process.ctx.paths i) :
    ServerInv deployment sockets process' where
  inRange := by rw [hendpoints]; exact hinv.inRange
  bound := by rw [hendpoints]; exact hinv.bound
  answer := by
    intro i halive
    rw [hendpoints]
    rcases eq_or_ne i worker.path with rfl | hne
    · rw [hremote, htoken]
      exact ⟨index, worker.endpoint, hsock, endpoints_getElem? hworker, rfl, rfl, hclient⟩
    · rw [hothers i hne] at halive ⊢
      exact hinv.answer i halive

/-- **Every event of the server keeps its invariant.** -/
theorem ServerInv.step (hreach : Reachable (network crypto deployment) net)
    (hinv : NetworkInv crypto deployment net) {event : Event}
    (hworld : ServerWorld deployment net event)
    (hstep : step crypto net.server event = some (.ok (process', outputs))) :
    ServerInv deployment (endpoints net.client) process' := by
  obtain ⟨hmode, hmtuEq, hportStart⟩ := server_sameConf hreach
  have hmtu : 0 ≤ net.server.ctx.mtu := by
    rw [hmtuEq]
    exact deployment.mtu_nonneg
  obtain ⟨hstartsSubset, hnoHop⟩ := starts_of_reachable (server_reachable hreach)
  cases event with
  | start stack now listen =>
      obtain ⟨start, starts, hstarts, rfl, -⟩ := step_start hstep
      cases start with
      | udpWorker path port =>
          obtain ⟨-, hpath, hlow, hhigh⟩ := udpWorker_mem_starts
            (hstartsSubset (by rw [hstarts]; exact List.mem_cons_self))
          have hrange : InRange deployment.client path port := by
            rw [deployment.same_paths] at hpath
            rw [deployment.initCtx_server] at hhigh
            exact ⟨hpath, hlow, hhigh⟩
          obtain rfl : listen = some (deployment.address path port) := by
            simp only [ServerWorld, Listens, hstarts] at hworld
            rw [hworld, deployment.workerPort_eq (hportStart path) hrange]
          obtain ⟨hendpoints, hdead, hothers⟩ := startWorker_server
            { net.server with starts := starts } hmode path port (-1) now stack
            (some (deployment.address path port))
          exact hinv.server.started hrange hendpoints hdead hothers
      | clientHop => exact hinv.server.of_same rfl (.refl _)
      | tunWorker => exact hinv.server.of_same rfl (.refl _)
      | heartbeat => exact hinv.server.of_same rfl (.refl _)
  | hop clock stack now =>
      obtain ⟨path, hhop, -⟩ := step_hop hstep
      rw [hnoHop (clientHop_not_mem_starts deployment.server_mode)] at hhop
      cases hhop
  | resolved index remote listen =>
      obtain ⟨worker, hworker, hstate, -⟩ := step_resolved hstep
      have hbound := hinv.server.bound _ (endpoint_mem hworker)
      simp [Worker.endpoint, hstate] at hbound
  | received index source bytes =>
      obtain ⟨worker, hworker, hstate, hreceive⟩ := step_received hstep
      have hsent := (delivered_iff hworker).mp hworld
      obtain ⟨pbuf, ⟨rfl, -⟩ | ⟨n, data, -, -, -, -, -, rfl, -⟩⟩ :=
        receiveDatagram_cases hreceive
      · exact hinv.server.of_same (map_endpoint_set hworker rfl) (.refl _)
      · obtain ⟨hsock, hremote, htoken, hothers⟩ := acceptDatagram_server hmode index
          { worker with pbuf := pbuf } source n
        exact hinv.server.accepted hworker (hinv.delivered_server hworker hstate hsent).1
          (map_endpoint_set hworker rfl) hsock hremote htoken hothers
  | hopWake | receiveError | timeout | tunRead | tunReadError | heartbeat =>
      obtain ⟨hendpoints, hsockets⟩ := step_kept hstep id hmtu
      exact hinv.server.of_same hendpoints hsockets

end Vpn
end Muon
