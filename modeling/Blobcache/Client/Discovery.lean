import Blobcache.Coordinator.HostIndex
import Blobcache.Coordinator.NodeStore
import Blobcache.Client.Membership

/-!
# Discovery

`discovery.go`, with what it rests on: the heartbeat of the hosts (`HostKeepAlive` of
`server.go`), `GetAvailableHosts` of the coordinator, reached through `CoordinatorClientRemote`,
and the host map of the client. In each round a client asks the coordinator for the hosts of
its locality, asks every host it does not know for its state, all at once, and puts those that
answer with its own version into the host map.

Any number of hosts and clients run at a time, in any localities. They share Redis and the
network: what a host says of itself is set and read one Redis command at a time, keepalive keys
expire at any moment, and what answers at an address may change at any moment as well. Every
command, call and connection may fail.

Whoever is in a client's host map is then a host that runs in the client's locality, under that
id and those addresses, and one of the client's own questions to it has been answered
(`members_are_running_hosts`).
-/

namespace Blobcache.Client
set_option autoImplicit false
open Execution Interleaving
open Coordinator (Connection)
open Coordinator.HostIndex
open Redis (TypedKeyspace)

/-! ## Hosts and their state -/

/-- `BlobCacheHost`. -/
structure Host extends DiscoveredHost where
  rtt : Int
  capacityUsagePct : Rat
  deriving DecidableEq

/-- What is left of a host that is sent as a message: its id and its addresses. -/
def Host.received (host : Host) : Host := ⟨host.toDiscoveredHost, 0, 0⟩

structure GetStateResponse where
  version : String
  capacityUsagePct : Rat

def blobCacheVersion : String := "dev"

/-- What `GetState` is answered at each address, or why it is not. -/
abbrev Network := String → Except String GetStateResponse

/-- `GetHostState`. It is always the private address that is dialled. -/
def getHostState (network : Network) (host : Host) : Except String Host :=
  match network host.privateAddr with
  | .error err => .error err
  | .ok resp =>
    if resp.version ≠ blobCacheVersion then
      .error ("version mismatch: " ++ resp.version ++ " != " ++ blobCacheVersion)
    else .ok { host with rtt := 0, capacityUsagePct := resp.capacityUsagePct }

/-- What the hosts and the clients of all localities share. -/
structure Region where
  redis : TypedKeyspace Host
  network : Network

inductive RegionEvent where
  | expire (key : String)
  /-- A server starts, stops or is replaced at the address. -/
  | network (addr : String) (answer : Except String GetStateResponse)

def Region.event (e : RegionEvent) (s : Region) : Region :=
  match e with
  | .expire key => { s with redis := s.redis.set key none }
  | .network addr answer => { s with network := Function.update s.network addr answer }

/-! ## A host -/

/-- The heartbeat of a `CacheService`. -/
structure HostService where
  locality : String
  coordinator : Connection
  currentHost : Host
  beat : Beat

/-- What the coordinator client stores of the host. -/
def storedHost : Connection → Host → Host
  | .direct, host => host
  | .remote, host => host.received

/-- The next command of `HostKeepAlive`, which looks at no error. A periodic round begins with the usage of
the moment. -/
def HostService.move (usage : Rat) (fails : Bool) (s : Region) (h : HostService) : Region × HostService :=
  let host := if h.beat = .idle then { h.currentHost with capacityUsagePct := usage } else h.currentHost
  let next := hostKeepAlive h.locality host.hostId (storedHost h.coordinator host) ⟨s.redis, h.beat⟩
  (if fails then s else { s with redis := next.redis }, { h with currentHost := host, beat := next.beat })

/-! ## A client -/

/-- Where a round of `Start` is. -/
inductive Round where
  | idle
  /-- In `GetAvailableHosts`, at the coordinator. -/
  | listing (l : Listing Host)
  /-- In `discoverHosts`: the hosts that the loop has still to look at, those that a goroutine is asking, and
  `filteredHosts`. -/
  | asking (rest asked found : List Host)
  /-- In `updateHostMap`. -/
  | updating (rest : List Host)

structure DiscoveryClient where
  locality : String
  views : Views
  round : Round

/-- What moves in a client, and what it meets. -/
inductive ClientMove where
  | begin
  /-- The next Redis command of `GetAvailableHosts`. -/
  | command (order : List String)
  | commandFails (err : String)
  /-- The call of the coordinator fails. -/
  | callFails
  /-- The loop goes on to its next host, or the wait for the goroutines is over. -/
  | next
  /-- A goroutine gets its answer, or its time is over. -/
  | answer (i : Nat) (timeout : Option String)
  /-- `Set` of the next host. -/
  | set (dial : String → Option String)
  /-- The host's `monitorHost` removes it. -/
  | remove (host : DiscoveredHost)

/-- A Redis command of `GetAvailableHosts` fails: only the first one matters to the call. -/
def listingFails (err : String) (l : Listing Host) : Listing Host :=
  match l.pc with
  | .members => { l with pc := .done (.error err) }
  | .get _ rest => l.continue rest
  | .remove hostId rest => { l with pc := .callback hostId rest }
  | .callback _ rest => l.continue rest
  | .done _ => l

/-- The answer of `CoordinatorClientRemote`, which does not look at `Ok`. -/
def receivedHosts : Except String (List Host) → List Host
  | .ok hosts => hosts.map Host.received
  | .error _ => []

namespace DiscoveryClient

/-- After a command of `GetAvailableHosts`. -/
def listed (c : DiscoveryClient) (l : Listing Host) : DiscoveryClient :=
  match l.pc with
  | .done answer => { c with round := .asking (receivedHosts answer) [] [] }
  | _ => { c with round := .listing l }

/-- Hosts that the client knows already are not asked. -/
def next (c : DiscoveryClient) : DiscoveryClient :=
  match c.round with
  | .asking (host :: rest) asked found =>
    if (c.views.hostMap host.hostId).isSome then { c with round := .asking rest asked found }
    else { c with round := .asking rest (asked ++ [host]) found }
  | .asking [] [] found => { c with round := .updating found }
  | _ => c

/-- The goroutine with this number is answered. -/
def answer (network : Network) (i : Nat) (timeout : Option String) (c : DiscoveryClient) : DiscoveryClient :=
  match c.round with
  | .asking rest asked found =>
    match asked[i]?, timeout with
    | none, _ => c
    | some _, some _ => { c with round := .asking rest (asked.eraseIdx i) found }
    | some host, none =>
      match getHostState network host with
      | .error _ => { c with round := .asking rest (asked.eraseIdx i) found }
      | .ok hostState => { c with round := .asking rest (asked.eraseIdx i) (found ++ [hostState]) }
  | _ => c

def set (dial : String → Option String) (c : DiscoveryClient) : DiscoveryClient :=
  match c.round with
  | .updating (host :: rest) => { c with views := c.views.set dial host.toDiscoveredHost, round := .updating rest }
  | .updating [] => { c with round := .idle }
  | _ => c

def remove (host : DiscoveredHost) (c : DiscoveryClient) : DiscoveryClient :=
  if host ∈ c.views.monitors then { c with views := c.views.remove host } else c

/-- A client moves. -/
def move (m : ClientMove) (s : Region) (c : DiscoveryClient) : Region × DiscoveryClient :=
  match m, c.round with
  | .begin, .idle => (s, { c with round := .listing ⟨c.locality, [], .members⟩ })
  | .command order, .listing l =>
    let moved := l.move order ⟨s.redis, .idle⟩
    ({ s with redis := moved.1.redis }, c.listed moved.2)
  | .commandFails err, .listing l => (s, c.listed (listingFails err l))
  | .callFails, .listing _ => (s, { c with round := .idle })
  | .next, _ => (s, c.next)
  | .answer i timeout, _ => (s, c.answer s.network i timeout)
  | .set dial, _ => (s, c.set dial)
  | .remove host, _ => (s, c.remove host)
  | _, _ => (s, c)

def new (locality : String) : DiscoveryClient := ⟨locality, .new, .idle⟩

end DiscoveryClient

/-! ## All together -/

inductive Party where
  | host (h : HostService)
  | client (c : DiscoveryClient)
  /-- A call of `GetAvailableHosts` that is not part of a round, or whose client has given up. -/
  | call (l : Listing Host)

inductive PartyMove where
  | beat (usage : Rat) (fails : Bool)
  | client (m : ClientMove)
  | call (order : List String)
  | callFails (err : String)

def Party.move (m : PartyMove) (s : Region) (party : Party) : Region × Party :=
  match party, m with
  | .host h, .beat usage fails => ((h.move usage fails s).1, .host (h.move usage fails s).2)
  | .client c, .client m => ((c.move m s).1, .client (c.move m s).2)
  | .call l, .call order =>
    let moved := l.move order ⟨s.redis, .idle⟩
    ({ s with redis := moved.1.redis }, .call moved.2)
  | .call l, .callFails err => (s, .call (listingFails err l))
  | _, _ => (s, party)

abbrev Parties := Pool Region Party

abbrev PartyAct := Action Party RegionEvent PartyMove

def Parties.step : PartyAct → Parties → Parties := Pool.step Region.event Party.move

/-- Every party begins at its beginning. Redis keys tell localities apart that have no percent sign. -/
inductive Party.Starts : Party → Prop where
  | host {h : HostService} (first : h.beat = .starts) (plain : '%' ∉ h.locality.toList) : Starts (.host h)
  | client {locality : String} (plain : '%' ∉ locality.toList) : Starts (.client (.new locality))
  | call (locality : String) : Starts (.call ⟨locality, [], .members⟩)

def Parties.Starting (_ : Parties) : PartyAct → Prop
  | .spawn party => party.Starts
  | _ => True

/-- Nobody is there yet, and Redis is empty. -/
def Parties.start (network : Network) : Parties := ⟨⟨.empty, network⟩, []⟩

/-! ## What the commands of a party do to Redis -/

theorem takeWhile_plain {l : String} (plain : '%' ∉ l.toList) (rest : List Char) :
    (l.toList ++ '%' :: rest).takeWhile (· ≠ '%') = l.toList := by
  rw [List.takeWhile_append_of_pos, List.takeWhile_cons_of_neg (by simp), List.append_nil]
  exact fun c member => decide_eq_true fun this => plain (this ▸ member)

/-- What a percent sign separates can be told apart. -/
theorem percent_separates {front mark back l l' id id' : String} (plain : '%' ∉ l.toList) (plain' : '%' ∉ l'.toList)
    (marked : ∃ t, mark.toList = '%' :: t)
    (same : front ++ l ++ mark ++ id ++ back = front ++ l' ++ mark ++ id' ++ back) :
    l = l' ∧ id = id' := by
  obtain ⟨t, marked⟩ := marked
  have chars := congrArg String.toList same
  simp only [String.toList_append, List.append_assoc] at chars
  rw [marked, List.append_cancel_left_eq, List.cons_append, List.cons_append] at chars
  have locality : l = l' := by
    have firsts := congrArg (List.takeWhile (· ≠ '%')) chars
    rw [takeWhile_plain plain, takeWhile_plain plain'] at firsts
    exact String.toList_inj.mp firsts
  subst locality
  rw [List.append_cancel_left_eq, List.cons_inj_right, List.append_cancel_left_eq, List.append_cancel_right_eq] at chars
  exact ⟨rfl, String.toList_inj.mp chars⟩

/-- The keepalive keys of different hosts are different. -/
theorem metadataHostKeepAlive_injective {l l' id id' : String} (plain : '%' ∉ l.toList) (plain' : '%' ∉ l'.toList)
    (same : metadataHostKeepAlive l id = metadataHostKeepAlive l' id') : l = l' ∧ id = id' :=
  percent_separates plain plain' (by simp) same

theorem move_strings (l : Listing Host) (order : List String) (s : Fleet Host) :
    (l.move order s).1.redis.strings = s.redis.strings := by
  rcases l with ⟨locality, hosts, pc⟩
  cases pc with
  | get id rest =>
    simp only [Listing.move]
    split
    · rfl
    · rfl
  | _ => rfl

theorem move_locality (l : Listing Host) (order : List String) (s : Fleet Host) :
    (l.move order s).2.locality = l.locality := by
  have continued (l : Listing Host) (rest : List String) : (l.continue rest).locality = l.locality := by
    cases rest with
    | nil => rfl
    | cons id rest => rfl
  rcases l with ⟨locality, hosts, pc⟩
  cases pc with
  | members => exact continued ..
  | get id rest =>
    simp only [Listing.move]
    split
    · rfl
    · exact continued ..
  | callback id rest => exact continued ..
  | _ => rfl

/-- A host is unaltered in what it says of itself. -/
theorem HostService.move_host (usage : Rat) (fails : Bool) (s : Region) (h : HostService) :
    (h.move usage fails s).2.locality = h.locality ∧
      (h.move usage fails s).2.currentHost.toDiscoveredHost = h.currentHost.toDiscoveredHost := by
  refine ⟨rfl, ?_⟩
  simp only [HostService.move]
  split
  · rfl
  · rfl

theorem storedHost_discovered (via : Connection) (host : Host) :
    (storedHost via host).toDiscoveredHost = host.toDiscoveredHost := by
  cases via with
  | direct => rfl
  | remote => rfl

/-- A command of the heartbeat fails, adds the host to the index or sets its own key. -/
theorem HostService.move_redis (usage : Rat) (fails : Bool) (s : Region) (h : HostService) :
    (h.move usage fails s).1.redis = s.redis ∨
      (h.move usage fails s).1.redis = addHostToIndex s.redis h.locality h.currentHost.hostId ∨
      ∃ said : Host, said.toDiscoveredHost = h.currentHost.toDiscoveredHost ∧
        (h.move usage fails s).1.redis = setHostKeepAlive s.redis h.locality said.hostId said := by
  cases fails with
  | true => exact .inl rfl
  | false =>
    have same : (if h.beat = .idle then { h.currentHost with capacityUsagePct := usage }
        else h.currentHost).toDiscoveredHost = h.currentHost.toDiscoveredHost := by
      split
      · rfl
      · rfl
    simp only [HostService.move, Bool.false_eq_true, if_false]
    generalize (if h.beat = .idle then { h.currentHost with capacityUsagePct := usage } else h.currentHost) = host
      at same ⊢
    have said := storedHost_discovered h.coordinator host
    rw [← congrArg (·.hostId) said, ← congrArg (·.hostId) (said.trans same)]
    cases h.beat with
    | starts => exact .inr (.inr ⟨_, said.trans same, rfl⟩)
    | startsSet => exact .inr (.inl rfl)
    | idle => exact .inr (.inl rfl)
    | added => exact .inr (.inr ⟨_, said.trans same, rfl⟩)

/-! ## Members are hosts that run -/

/-- A server of the client's version answers at the address. -/
def Region.Answers (s : Region) (addr : String) : Prop :=
  ∃ resp, s.network addr = .ok resp ∧ resp.version = blobCacheVersion

theorem getHostState_ok {network : Network} {host hostState : Host} (ok : getHostState network host = .ok hostState) :
    hostState.toDiscoveredHost = host.toDiscoveredHost ∧
      ∃ resp, network host.privateAddr = .ok resp ∧ resp.version = blobCacheVersion := by
  simp only [getHostState] at ok
  split at ok
  · cases ok
  · rename_i resp reached
    split at ok
    · cases ok
    · rename_i version
      cases ok
      exact ⟨rfl, resp, reached, not_not.mp version⟩

/-- The goroutine with this number asks the host, and a server of the client's version answers at the host's
private address. -/
def DiscoveryClient.Answered (c : DiscoveryClient) (s : Region) (i : Nat) (host : DiscoveredHost) : Prop :=
  ∃ rest asked found said, c.round = .asking rest asked found ∧ asked[i]? = some said ∧
    said.toDiscoveredHost = host ∧ s.Answers host.privateAddr

/-- With this action the client with this number gets the answer of the host. -/
def Parties.Answered (p : Parties) (a : PartyAct) (k : Nat) (host : DiscoveredHost) : Prop :=
  ∃ c i, a = .move k (.client (.answer i none)) ∧ p.threads[k]? = some (.client c) ∧ c.Answered p.shared i host

/-- The host runs in the locality, with this id and these addresses. -/
def Parties.Runs (p : Parties) (locality : String) (host : DiscoveredHost) : Prop :=
  ∃ h, .host h ∈ p.threads ∧ h.locality = locality ∧ h.currentHost.toDiscoveredHost = host

/-- The host is in one of the client's views. -/
inductive Views.Member (v : Views) (host : DiscoveredHost) : Prop where
  | known (found : v.hostMap host.hostId = some host)
  | hashed (found : host ∈ v.hasher)
  | monitored (found : host ∈ v.monitors)

section

-- who runs in a locality, and which hosts have answered
variable (runs : String → DiscoveredHost → Prop) (answered : DiscoveredHost → Prop)

/-- What is under a keepalive key was said by the host with that id. -/
def GenuineKeys (r : TypedKeyspace Host) : Prop :=
  ∀ locality hostId said, '%' ∉ locality.toList →
    r.strings (metadataHostKeepAlive locality hostId) = some said →
    said.hostId = hostId ∧ runs locality said.toDiscoveredHost

/-- The hosts of a call were read, and they are its answer. -/
structure GenuineListing (locality : String) (l : Listing Host) : Prop where
  here : l.locality = locality
  hosts : ∀ host ∈ l.hosts, runs locality host.toDiscoveredHost
  answer : ∀ hosts, l.pc = .done (.ok hosts) → hosts = l.hosts

/-- The hosts of a round run; those found have answered. -/
def GenuineRound (locality : String) : Round → Prop
  | .idle => True
  | .listing l => GenuineListing runs locality l
  | .asking rest asked found =>
    (∀ host ∈ rest ++ asked, runs locality host.toDiscoveredHost) ∧
      ∀ host ∈ found, runs locality host.toDiscoveredHost ∧ answered host.toDiscoveredHost
  | .updating rest => ∀ host ∈ rest, runs locality host.toDiscoveredHost ∧ answered host.toDiscoveredHost

structure GenuineClient (c : DiscoveryClient) : Prop where
  plain : '%' ∉ c.locality.toList
  members : ∀ host, c.views.Member host → runs c.locality host ∧ answered host
  round : GenuineRound runs answered c.locality c.round

def GenuineParty : Party → Prop
  | .host h => '%' ∉ h.locality.toList ∧ runs h.locality h.currentHost.toDiscoveredHost
  | .client c => GenuineClient runs answered c
  | .call _ => True

end

theorem Views.Member.of_set {v : Views} {dial : String → Option String} {host other : DiscoveredHost}
    (member : (v.set dial host).Member other) : v.Member other ∨ other = host := by
  by_cases known : v.Known host.hostId
  · rw [Views.set_known known] at member
    exact .inl member
  rw [Views.set_new known] at member
  have mapped (found : Function.update v.hostMap host.hostId (some host) other.hostId = some other) :
      v.Member other ∨ other = host := by
    by_cases same : other.hostId = host.hostId
    · rw [same, Function.update_self] at found
      exact .inr (Option.some.inj found).symm
    · rw [Function.update_of_ne same] at found
      exact .inl (.known found)
  have appended {hosts : List DiscoveredHost} (old : other ∈ hosts → v.Member other) (found : other ∈ hosts ++ [host]) :
      v.Member other ∨ other = host :=
    (List.mem_append.mp found).imp old List.mem_singleton.mp
  simp only [addHost] at member
  split at member
  · cases member with
    | known found => exact mapped found
    | hashed found => exact .inl (.hashed found)
    | monitored found => exact .inl (.monitored found)
  · cases member with
    | known found => exact mapped found
    | hashed found => exact appended .hashed found
    | monitored found => exact appended .monitored found

theorem Views.Member.of_remove {v : Views} {host other : DiscoveredHost} (member : (v.remove host).Member other) :
    v.Member other := by
  cases member with
  | known found =>
    rw [Views.remove_hostMap] at found
    by_cases same : other.hostId = host.hostId
    · rw [same, Function.update_self] at found
      cases found
    · rw [Function.update_of_ne same] at found
      exact .known found
  | hashed found => exact .hashed (List.mem_of_mem_filter found)
  | monitored found => exact .monitored (List.mem_of_mem_erase found)

section

variable {runs : String → DiscoveredHost → Prop} {answered : DiscoveredHost → Prop}

theorem GenuineKeys.of_strings {r r' : TypedKeyspace Host} (h : GenuineKeys runs r) (same : r'.strings = r.strings) :
    GenuineKeys runs r' := by
  intro locality hostId said plain found
  exact h locality hostId said plain (by rwa [← same])

theorem GenuineKeys.expire {r : TypedKeyspace Host} (h : GenuineKeys runs r) (key : String) :
    GenuineKeys runs (r.set key none) := by
  intro locality hostId said plain found
  by_cases same : metadataHostKeepAlive locality hostId = key
  · rw [same, TypedKeyspace.set_self] at found
    cases found
  · rw [TypedKeyspace.set_other _ _ same] at found
    exact h locality hostId said plain found

/-- A host sets its own key. -/
theorem GenuineKeys.keepAlive {r : TypedKeyspace Host} (h : GenuineKeys runs r) {locality : String}
    (plain : '%' ∉ locality.toList) {said : Host} (running : runs locality said.toDiscoveredHost) :
    GenuineKeys runs (setHostKeepAlive r locality said.hostId said) := by
  intro l hostId other plain' found
  by_cases same : metadataHostKeepAlive l hostId = metadataHostKeepAlive locality said.hostId
  · rw [setHostKeepAlive, same, TypedKeyspace.set_self] at found
    obtain ⟨rfl, rfl⟩ := metadataHostKeepAlive_injective plain' plain same
    cases found
    exact ⟨rfl, running⟩
  · rw [setHostKeepAlive, TypedKeyspace.set_other _ _ same] at found
    exact h l hostId other plain' found

theorem GenuineKeys.beat {s : Region} (keys : GenuineKeys runs s.redis) {h : HostService}
    (plain : '%' ∉ h.locality.toList) (running : runs h.locality h.currentHost.toDiscoveredHost) (usage : Rat)
    (fails : Bool) : GenuineKeys runs (h.move usage fails s).1.redis := by
  rcases h.move_redis usage fails s with same | added | ⟨said, discovered, set⟩
  · exact same ▸ keys
  · exact keys.of_strings (by rw [added]; rfl)
  · rw [set]
    exact keys.keepAlive plain (discovered ▸ running)

/-- On to the next host id, or to the answer. -/
theorem GenuineListing.continue {locality : String} {l : Listing Host} (here : l.locality = locality)
    (hosts : ∀ host ∈ l.hosts, runs locality host.toDiscoveredHost) (rest : List String) :
    GenuineListing runs locality (l.continue rest) := by
  cases rest with
  | cons id rest => exact ⟨here, hosts, fun _ at_ => by cases at_⟩
  | nil =>
    refine ⟨here, hosts, fun answer at_ => ?_⟩
    simp only [Listing.continue, ListPc.done.injEq] at at_
    split at at_
    · cases at_
    · cases at_
      rfl

theorem GenuineListing.move {locality : String} {l : Listing Host} (h : GenuineListing runs locality l)
    (plain : '%' ∉ locality.toList) {s : Fleet Host} (keys : GenuineKeys runs s.redis) (order : List String) :
    GenuineListing runs locality (l.move order s).2 := by
  obtain ⟨rfl, hosts, answer⟩ := h
  rcases l with ⟨locality, found, pc⟩
  cases pc with
  | members => exact .continue rfl hosts _
  | get id rest =>
    cases read : s.redis.strings (metadataHostKeepAlive locality id) with
    | none =>
      simp only [Listing.move, read]
      exact ⟨rfl, hosts, fun _ at_ => by cases at_⟩
    | some host =>
      simp only [Listing.move, read]
      refine GenuineListing.continue (l := ⟨locality, found ++ [host], .get id rest⟩) rfl (fun other member => ?_) rest
      rcases List.mem_append.mp member with old | new
      · exact hosts other old
      · rw [List.mem_singleton.mp new]
        exact (keys locality id host plain read).2
  | remove id rest => exact ⟨rfl, hosts, fun _ at_ => by cases at_⟩
  | callback id rest => exact .continue rfl hosts rest
  | done _ => exact ⟨rfl, hosts, answer⟩

theorem GenuineListing.fails {locality : String} {l : Listing Host} (h : GenuineListing runs locality l) (err : String) :
    GenuineListing runs locality (listingFails err l) := by
  obtain ⟨rfl, hosts, answer⟩ := h
  rcases l with ⟨locality, found, pc⟩
  cases pc with
  | members => exact ⟨rfl, hosts, fun _ at_ => by cases at_⟩
  | get id rest => exact .continue rfl hosts rest
  | remove id rest => exact ⟨rfl, hosts, fun _ at_ => by cases at_⟩
  | callback id rest => exact .continue rfl hosts rest
  | done _ => exact ⟨rfl, hosts, answer⟩

namespace GenuineClient

variable {c : DiscoveryClient} (h : GenuineClient runs answered c)
include h

/-- Only the round has changed. -/
theorem of_round {round : Round} (genuine : GenuineRound runs answered c.locality round) :
    GenuineClient runs answered { c with round } :=
  ⟨h.plain, h.members, genuine⟩

theorem listed {l : Listing Host} (genuine : GenuineListing runs c.locality l) :
    GenuineClient runs answered (c.listed l) := by
  simp only [DiscoveryClient.listed]
  split
  · rename_i answer at_
    refine h.of_round ⟨fun host member => ?_, fun host member => by cases member⟩
    rw [List.append_nil] at member
    cases answer with
    | error err => cases member
    | ok hosts =>
      obtain ⟨said, read, rfl⟩ := List.mem_map.mp member
      rw [genuine.answer hosts at_] at read
      exact genuine.hosts said read
  · exact h.of_round genuine

theorem next : GenuineClient runs answered c.next := by
  have before := h.round
  simp only [DiscoveryClient.next]
  split
  · rename_i host rest asked found at_
    rw [at_] at before
    split
    · exact h.of_round ⟨fun other member => before.1 other (List.mem_cons_of_mem _ member), before.2⟩
    · refine h.of_round ⟨fun other member => before.1 other ?_, before.2⟩
      simp only [List.mem_append, List.mem_cons, List.not_mem_nil, or_false, List.cons_append] at member ⊢
      tauto
  · rename_i found at_
    rw [at_] at before
    exact h.of_round before.2
  · exact h

theorem answer {s : Region} {i : Nat} {timeout : Option String}
    (checked : timeout = none → ∀ host, c.Answered s i host → answered host) :
    GenuineClient runs answered (c.answer s.network i timeout) := by
  have before := h.round
  simp only [DiscoveryClient.answer]
  split
  · rename_i rest asked found at_
    rw [at_] at before
    have fewer : ∀ host ∈ rest ++ asked.eraseIdx i, runs c.locality host.toDiscoveredHost := by
      intro host member
      refine before.1 host (List.mem_append.mpr ((List.mem_append.mp member).imp_right fun left => ?_))
      exact List.mem_of_mem_eraseIdx left
    split
    · exact h
    · exact h.of_round ⟨fewer, before.2⟩
    · rename_i host asking
      split
      · exact h.of_round ⟨fewer, before.2⟩
      · rename_i hostState answers
        refine h.of_round ⟨fewer, fun other member => ?_⟩
        rcases List.mem_append.mp member with old | new
        · exact before.2 other old
        · rw [List.mem_singleton.mp new]
          have running := before.1 host (List.mem_append_right _ (List.mem_of_getElem? asking))
          obtain ⟨same, reached⟩ := getHostState_ok answers
          rw [same]
          exact ⟨running, checked rfl _ ⟨rest, asked, found, host, at_, asking, rfl, reached⟩⟩
  · exact h

theorem set (dial : String → Option String) : GenuineClient runs answered (c.set dial) := by
  have before := h.round
  simp only [DiscoveryClient.set]
  split
  · rename_i host rest at_
    rw [at_] at before
    refine ⟨h.plain, fun other member => ?_, fun other member => before other (List.mem_cons_of_mem _ member)⟩
    rcases member.of_set with old | rfl
    · exact h.members other old
    · exact before host List.mem_cons_self
  · exact h.of_round trivial
  · exact h

theorem remove (host : DiscoveredHost) : GenuineClient runs answered (c.remove host) := by
  simp only [DiscoveryClient.remove]
  split
  · exact ⟨h.plain, fun other member => h.members other member.of_remove, h.round⟩
  · exact h

/-- The client moves, over keys that are genuine. -/
theorem move {s : Region} (keys : GenuineKeys runs s.redis) {m : ClientMove}
    (checked : ∀ i host, m = .answer i none → c.Answered s i host → answered host) :
    GenuineKeys runs (c.move m s).1.redis ∧ GenuineClient runs answered (c.move m s).2 := by
  have before := h.round
  simp only [DiscoveryClient.move]
  split
  -- the round begins
  · exact ⟨keys, h.of_round ⟨rfl, fun _ member => (by cases member), fun _ at_ => by cases at_⟩⟩
  -- in `GetAvailableHosts`
  · rename_i order l at_
    rw [at_] at before
    exact ⟨keys.of_strings (move_strings ..), h.listed (before.move h.plain (s := ⟨s.redis, .idle⟩) keys order)⟩
  · rename_i err l at_
    rw [at_] at before
    exact ⟨keys, h.listed (before.fails err)⟩
  · exact ⟨keys, h.of_round trivial⟩
  -- in `discoverHosts` and `updateHostMap`
  · exact ⟨keys, h.next⟩
  · rename_i i timeout
    exact ⟨keys, h.answer fun waited host => checked i host (by rw [waited])⟩
  · exact ⟨keys, h.set _⟩
  · exact ⟨keys, h.remove _⟩
  · exact ⟨keys, h⟩

end GenuineClient

theorem GenuineParty.move {s : Region} {party : Party} (h : GenuineParty runs answered party)
    (keys : GenuineKeys runs s.redis) {m : PartyMove}
    (checked : ∀ c i host, party = .client c → m = .client (.answer i none) → c.Answered s i host → answered host) :
    GenuineKeys runs (party.move m s).1.redis ∧ GenuineParty runs answered (party.move m s).2 := by
  simp only [Party.move]
  split
  · rename_i host usage fails
    obtain ⟨here, same⟩ := host.move_host usage fails s
    refine ⟨keys.beat h.1 h.2 usage fails, ?_⟩
    simp only [GenuineParty, here, same]
    exact h
  · exact GenuineClient.move h keys fun i host waited => checked _ i host rfl (by rw [waited])
  · exact ⟨keys.of_strings (move_strings ..), trivial⟩
  · exact ⟨keys, trivial⟩
  · exact ⟨keys, h⟩

theorem GenuineParty.starts {party : Party} (starts : party.Starts)
    (running : ∀ h, party = .host h → runs h.locality h.currentHost.toDiscoveredHost) :
    GenuineParty runs answered party := by
  cases starts with
  | host first plain => exact ⟨plain, running _ rfl⟩
  | client plain =>
    refine ⟨plain, fun host member => ?_, trivial⟩
    cases member with
    | known found => cases found
    | hashed found => cases found
    | monitored found => cases found
  | call locality => trivial

end

/-- A keepalive key holds what a host with that id has said, whichever it is. -/
abbrev OwnKeys : TypedKeyspace Host → Prop := GenuineKeys fun _ _ => True

abbrev PlainParty : Party → Prop := GenuineParty (fun _ _ => True) fun _ => True

theorem Parties.starting_of {p : Parties} {a : PartyAct} (starts : ∀ party, .spawn party = a → party.Starts) :
    p.Starting a := by
  cases a with
  | spawn party => exact starts party rfl
  | env e => trivial
  | move t m => trivial

/-- What every run keeps, for whoever runs in the end and whatever has answered whom on the way. -/
theorem genuine_run {runs : String → DiscoveredHost → Prop} {answered : Nat → DiscoveredHost → Prop}
    {first last : Parties}
    (run : Trace Parties.step (fun p a => p.Starting a ∧
      (∀ h, a = .spawn (.host h) → runs h.locality h.currentHost.toDiscoveredHost) ∧
      ∀ k host, p.Answered a k host → answered k host) first last)
    (keys : GenuineKeys runs first.shared.redis)
    (parties : ∀ (k : Nat) (party), first.threads[k]? = some party → GenuineParty runs (answered k) party) :
    GenuineKeys runs last.shared.redis ∧
      ∀ (k : Nat) (party), last.threads[k]? = some party → GenuineParty runs (answered k) party := by
  refine Pool.invariant_indexed (I := fun s : Region => GenuineKeys runs s.redis)
    (L := fun k _ => GenuineParty runs (answered k)) ?_ ?_ ?_ run keys parties
  · intro p e _ keys
    refine ⟨?_, fun _ _ kept => kept⟩
    cases e with
    | expire key => exact keys.expire key
    | network addr answer => exact keys
  · intro p party admitted _ _ _
    exact .starts admitted.1 fun h at_ => admitted.2.1 h (by rw [at_])
  · intro p t m party admitted found keys genuine
    have moved := genuine.move keys (m := m) fun c i host client waited answers =>
      admitted.2.2 t host ⟨c, i, by rw [waited], by rw [found, client], answers⟩
    exact ⟨moved.1, moved.2, fun _ _ kept => kept⟩

/-- A host that runs goes on running. -/
theorem Parties.Runs.step {p : Parties} {locality : String} {host : DiscoveredHost} (runs : p.Runs locality host)
    (a : PartyAct) : (Parties.step a p).Runs locality host := by
  obtain ⟨h, member, here⟩ := runs
  obtain ⟨i, found⟩ := List.mem_iff_getElem?.mp member
  have stays : ∃ party, (Parties.step a p).threads[i]? = some party ∧
      ∃ h, party = .host h ∧ h.locality = locality ∧ h.currentHost.toDiscoveredHost = host := by
    refine Pool.thread_step (fun m s party same => ?_) found ⟨h, rfl, here⟩ a
    obtain ⟨h, rfl, rfl, rfl⟩ := same
    cases m with
    | beat usage fails => exact ⟨_, rfl, h.move_host usage fails s⟩
    | _ => exact ⟨h, rfl, rfl, rfl⟩
  obtain ⟨_, found', h', rfl, here'⟩ := stays
  exact ⟨h', List.mem_of_getElem? found', here'⟩

theorem Parties.Runs.later {p : Parties} {locality : String} {host : DiscoveredHost} (runs : p.Runs locality host)
    (acts : List PartyAct) : (after Parties.step acts p).Runs locality host := by
  induction acts generalizing p with
  | nil => exact runs
  | cons a acts ih => exact ih (runs.step a)

/-- **The members of a client are hosts that run.** Whoever is in a client's host map, hasher or monitors at the end
of a list of actions runs in the client's locality, with exactly this id and these addresses. One of the actions
is the answer to a question of this client to this host, and when it was taken a server of the client's version
answered at the host's private address. -/
theorem members_are_running_hosts {network : Network} {acts : List PartyAct}
    (starts : ∀ party, .spawn party ∈ acts → party.Starts) {k : Nat} {c : DiscoveryClient}
    (client : (after Parties.step acts (.start network)).threads[k]? = some (.client c)) {host : DiscoveredHost}
    (member : c.views.Member host) :
    (after Parties.step acts (.start network)).Runs c.locality host ∧
      ∃ earlier a later, acts = earlier ++ a :: later ∧
        (after Parties.step earlier (.start network)).Answered a k host := by
  have run : Trace Parties.step (fun q a => q.Starting a ∧
      (∀ h, a = .spawn (.host h) →
        (after Parties.step acts (.start network)).Runs h.locality h.currentHost.toDiscoveredHost) ∧
      ∀ k host, q.Answered a k host → ∃ earlier a later, acts = earlier ++ a :: later ∧
        (after Parties.step earlier (.start network)).Answered a k host)
      (.start network) (after Parties.step acts (.start network)) := by
    refine Trace.of_splits acts _ fun earlier a later whole => ⟨?_, fun h at_ => ?_, fun k host answers => ?_⟩
    · exact Parties.starting_of fun party spawned => starts party (by rw [whole, spawned]; simp)
    · -- the host is there from this action on, and the rest of the list keeps it
      have spawned : (Parties.step a (after Parties.step earlier (.start network))).Runs h.locality
          h.currentHost.toDiscoveredHost := by
        rw [at_]
        exact ⟨h, List.mem_append_right _ List.mem_cons_self, rfl, rfl⟩
      rw [whole, after_append]
      exact spawned.later later
    · exact ⟨earlier, a, later, whole, answers⟩
  obtain ⟨-, genuine⟩ := genuine_run run (fun _ _ _ _ found => by cases found) fun _ _ none => by cases none
  exact (genuine k _ client).members host member

def Parties.clientAt (p : Parties) (k : Nat) : Option DiscoveryClient :=
  match p.threads[k]? with
  | some (.client c) => some c
  | _ => none

def Round.isIdle : Round → Bool
  | .idle => true
  | _ => false

/-- One host answers. -/
def oneHostNetwork : Network := fun addr =>
  if addr = Views.someHost.privateAddr then .ok ⟨blobCacheVersion, 1 / 2⟩ else .error "connection refused"

/-- The host starts. -/
def hostStarts : List PartyAct :=
  [.spawn (.host ⟨"l", .remote, ⟨Views.someHost, 0, 0⟩, .starts⟩), .move 0 (.beat 0 false), .move 0 (.beat 0 false)]

/-- A client begins a round. -/
def roundBegins : List PartyAct := [.spawn (.client (.new "l")), .move 1 (.client .begin)]

/-- The client asks the coordinator and then the host, and sets the host. -/
def clientRound : List ClientMove :=
  [.command [], .command [], .next, .answer 0 none, .next, .set Views.dialsAll, .set Views.dialsAll]

def wholeRound : List PartyAct := clientRound.map fun m => .move 1 (.client m)

def beginning : Parties := after Parties.step (hostStarts ++ roundBegins) (.start oneHostNetwork)

def ending : Parties := after Parties.step wholeRound beginning

theorem Parties.clientAt_eq_some {p : Parties} {k : Nat} {c : DiscoveryClient} (found : p.clientAt k = some c) :
    p.threads[k]? = some (.client c) := by
  simp only [Parties.clientAt] at found
  split at found
  · rename_i here
    cases found
    exact here
  · cases found

theorem Parties.clientAt_any {p : Parties} {k : Nat} {f : DiscoveryClient → Bool} (any : (p.clientAt k).any f = true) :
    ∃ c, p.threads[k]? = some (.client c) ∧ f c = true := by
  obtain ⟨c, found, holds⟩ := Option.any_eq_true _ _ |>.mp any
  exact ⟨c, p.clientAt_eq_some found, holds⟩

theorem Parties.idle_client {p : Parties} {k : Nat} (any : (p.clientAt k).any (·.round.isIdle) = true) :
    ∃ c, p.threads[k]? = some (.client c) ∧ c.round = .idle := by
  obtain ⟨c, found, idle⟩ := clientAt_any any
  refine ⟨c, found, ?_⟩
  cases at_ : c.round with
  | idle => rfl
  | _ =>
    rw [at_] at idle
    cases idle

/-- A list of actions of which none begins anywhere but at its beginning. -/
theorem Parties.after_run (acts : List PartyAct) (p : Parties) (starts : ∀ party, .spawn party ∈ acts → party.Starts) :
    Trace Parties.step Parties.Starting p (after Parties.step acts p) :=
  Trace.of_splits acts p fun _ _ _ whole => starting_of fun party spawned => starts party (by rw [whole, spawned]; simp)

theorem beginning_starts (party : Party) (spawned : .spawn party ∈ hostStarts ++ roundBegins) : party.Starts := by
  simp only [hostStarts, roundBegins, List.cons_append, List.nil_append, List.mem_cons, List.not_mem_nil, reduceCtorEq,
    Action.spawn.injEq, or_false, false_or] at spawned
  rcases spawned with rfl | rfl
  · exact .host rfl (by decide)
  · exact .client (by decide)

theorem wholeRound_starts (party : Party) (spawned : .spawn party ∈ wholeRound) : party.Starts := by
  simp [wholeRound, clientRound] at spawned

theorem ending_eq : ending = after Parties.step (hostStarts ++ roundBegins ++ wholeRound) (.start oneHostNetwork) :=
  (after_append ..).symm

theorem members_are_running_hosts_found :
    ∃ c, ending.threads[1]? = some (.client c) ∧ c.views.Member Views.someHost ∧
      ending.Runs c.locality Views.someHost ∧
      ∃ earlier a later, hostStarts ++ roundBegins ++ wholeRound = earlier ++ a :: later ∧
        (after Parties.step earlier (.start oneHostNetwork)).Answered a 1 Views.someHost := by
  obtain ⟨c, found, known⟩ := Parties.clientAt_any (p := ending) (k := 1)
    (f := fun c => c.views.hostMap Views.someHost.hostId = some Views.someHost) (by decide +kernel)
  have member : c.views.Member Views.someHost := .known (of_decide_eq_true known)
  have starts (party : Party) (spawned : .spawn party ∈ hostStarts ++ roundBegins ++ wholeRound) : party.Starts :=
    (List.mem_append.mp spawned).elim (beginning_starts party) (wholeRound_starts party)
  rw [ending_eq] at found ⊢
  exact ⟨c, found, member, members_are_running_hosts starts found member⟩

end Blobcache.Client
