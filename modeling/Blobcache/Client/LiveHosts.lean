import Blobcache.Client.Discovery
import Mathlib.Tactic.FinCases

/-!
# Live hosts are found

A client finds a host by reading the index of the locality and then the host's keepalive key,
and by asking the host itself, and each of these is a moment of its own. If the host is in the
index when the client begins a round, and its key is there and it answers all the while, the
client sends requests to it when the round is over, whatever the other hosts, clients and calls
do. Two things are in the way: a call that has missed the key earlier and is about to remove the
host, and a dial that failed when the client added the host in an earlier round. The host then
stays in the host map, is never asked again, and no request is sent to it.
-/

namespace Blobcache.Client
set_option autoImplicit false
open Execution Interleaving
open Coordinator.HostIndex

/-- The host's keepalive key is there, and the host answers. -/
structure Region.Lives (s : Region) (locality : String) (host : DiscoveredHost) : Prop where
  alive : ∃ said, s.redis.strings (metadataHostKeepAlive locality host.hostId) = some said ∧ said.toDiscoveredHost = host
  answers : s.Answers host.privateAddr

def Region.Listed (s : Region) (locality hostId : String) : Prop := hostId ∈ s.redis.sets (metadataHostIndex locality)

/-- The client sends requests to the host. -/
structure Views.Routes (v : Views) (hostId : String) : Prop where
  known : v.Known hostId
  hashed : ∃ host ∈ v.hasher, host.hostId = hostId
  client : hostId ∈ v.grpcClients

/-- The next command of the party removes the host from the index. -/
def Party.Removes (locality hostId : String) : Party → Prop
  | .host _ => False
  | .client c => ∃ l, c.round = .listing l ∧ Coordinator.HostIndex.Removes locality hostId l
  | .call l => Coordinator.HostIndex.Removes locality hostId l

/-- Nothing fails for the client, as far as the host is concerned. Another host may be removed, unless its
address is this one's id. -/
def ClientMove.Faultless (host : DiscoveredHost) : ClientMove → Prop
  | .commandFails _ => False
  | .callFails => False
  | .answer _ timeout => timeout = none
  | .set dial => ∀ addr, dial addr = none
  | .remove other => other.hostId ≠ host.hostId ∧ other.addr ≠ host.hostId
  | _ => True

/-- The host lives, and nothing fails for the client with this number. -/
structure Parties.Undisturbed (k : Nat) (locality : String) (host : DiscoveredHost) (p : Parties) (a : PartyAct) :
    Prop where
  starting : p.Starting a
  lives : p.shared.Lives locality host
  faultless : ∀ m, a = .move k (.client m) → m.Faultless host

section

variable {locality : String} {host : DiscoveredHost}

theorem not_removes_continue (l : Listing Host) (rest : List String) :
    ¬ Coordinator.HostIndex.Removes locality host.hostId (l.continue rest) := by
  intro removes
  cases rest with
  | nil => cases removes
  | cons id rest => cases removes

/-- The key of the host is there, so no call comes to remove it. -/
theorem not_removes_move {l : Listing Host} (not_removes : ¬ Coordinator.HostIndex.Removes locality host.hostId l)
    {s : Fleet Host} (alive : ∃ said, s.redis.strings (metadataHostKeepAlive locality host.hostId) = some said)
    (order : List String) : ¬ Coordinator.HostIndex.Removes locality host.hostId (l.move order s).2 := by
  rcases l with ⟨here, hosts, pc⟩
  cases pc with
  | members => exact not_removes_continue _ _
  | get id rest =>
    cases read : s.redis.strings (metadataHostKeepAlive here id) with
    | none =>
      simp only [Listing.move, read]
      intro removes
      cases removes
      obtain ⟨said, present⟩ := alive
      rw [present] at read
      cases read
    | some said =>
      simp only [Listing.move, read]
      exact not_removes_continue _ _
  | remove id rest =>
    intro removes
    cases removes
    exact not_removes (.remove hosts rest)
  | callback id rest => exact not_removes_continue _ _
  | done answer => exact not_removes

theorem not_removes_fails {l : Listing Host} (not_removes : ¬ Coordinator.HostIndex.Removes locality host.hostId l)
    (err : String) : ¬ Coordinator.HostIndex.Removes locality host.hostId (listingFails err l) := by
  rcases l with ⟨here, hosts, pc⟩
  cases pc with
  | members => exact fun removes => by cases removes
  | get id rest => exact not_removes_continue _ _
  | remove id rest =>
    intro removes
    cases removes
    exact not_removes (.remove hosts rest)
  | callback id rest => exact not_removes_continue _ _
  | done answer => exact not_removes

theorem listed_move {l : Listing Host} (not_removes : ¬ Coordinator.HostIndex.Removes locality host.hostId l)
    {s : Fleet Host} (listed : host.hostId ∈ s.redis.sets (metadataHostIndex locality)) (order : List String) :
    host.hostId ∈ (l.move order s).1.redis.sets (metadataHostIndex locality) := by
  rcases l with ⟨here, hosts, pc⟩
  cases pc with
  | members => exact listed
  | get id rest =>
    simp only [Listing.move]
    split
    · exact listed
    · exact listed
  | remove id rest =>
    refine mem_removeHostFromIndex_iff.mpr ⟨listed, ?_⟩
    rintro ⟨rfl, rfl⟩
    exact not_removes (.remove hosts rest)
  | callback id rest =>
    refine mem_removeHostFromIndex_iff.mpr ⟨listed, ?_⟩
    rintro ⟨rfl, rfl⟩
    exact not_removes (.callback hosts rest)
  | done answer => exact listed

theorem HostService.listed_move {s : Region} (listed : s.Listed locality host.hostId) (usage : Rat) (fails : Bool)
    (h : HostService) : (h.move usage fails s).1.Listed locality host.hostId := by
  rw [Region.Listed]
  rcases h.move_redis usage fails s with same | added | ⟨said, -, set⟩
  · exact same ▸ listed
  · exact added ▸ mem_addHostToIndex_iff.mpr (.inl listed)
  · exact set ▸ listed

theorem DiscoveryClient.not_removes_listed {l : Listing Host}
    (not_removes : ¬ Coordinator.HostIndex.Removes locality host.hostId l) (c : DiscoveryClient) :
    ¬ (Party.client (c.listed l)).Removes locality host.hostId := by
  rintro ⟨l', at_, removes⟩
  simp only [DiscoveryClient.listed] at at_
  split at at_
  · cases at_
  · cases at_
    exact not_removes removes

/-- The other moves of a round do not begin a call. -/
theorem DiscoveryClient.listing_of_next {c : DiscoveryClient} {l : Listing Host} (at_ : c.next.round = .listing l) :
    c.round = .listing l := by
  simp only [DiscoveryClient.next] at at_
  split at at_
  · split at at_
    · cases at_
    · cases at_
  · cases at_
  · exact at_

theorem DiscoveryClient.listing_of_answer {network : Network} {i : Nat} {timeout : Option String} {c : DiscoveryClient}
    {l : Listing Host} (at_ : (c.answer network i timeout).round = .listing l) : c.round = .listing l := by
  simp only [DiscoveryClient.answer] at at_
  split at at_
  · split at at_
    · exact at_
    · cases at_
    · split at at_
      · cases at_
      · cases at_
  · exact at_

theorem DiscoveryClient.listing_of_set {dial : String → Option String} {c : DiscoveryClient} {l : Listing Host}
    (at_ : (c.set dial).round = .listing l) : c.round = .listing l := by
  simp only [DiscoveryClient.set] at at_
  split at at_
  · cases at_
  · cases at_
  · exact at_

theorem DiscoveryClient.remove_round (host : DiscoveredHost) (c : DiscoveryClient) : (c.remove host).round = c.round := by
  simp only [DiscoveryClient.remove]
  split
  · rfl
  · rfl

/-- As long as the host lives nobody removes it from the index. -/
theorem Party.listed_move {s : Region} (lives : s.Lives locality host) (listed : s.Listed locality host.hostId)
    {party : Party} (not_removes : ¬ party.Removes locality host.hostId) (m : PartyMove) :
    (party.move m s).1.Listed locality host.hostId ∧ ¬ (party.move m s).2.Removes locality host.hostId := by
  have alive := lives.alive.imp fun _ said => said.1
  simp only [Party.move]
  split
  · exact ⟨HostService.listed_move listed .., fun removes => removes⟩
  · rename_i c m
    simp only [DiscoveryClient.move]
    split
    · refine ⟨listed, ?_⟩
      rintro ⟨l, ⟨⟩, removes⟩
      cases removes
    · rename_i order l at_
      have not_removes : ¬ Coordinator.HostIndex.Removes locality host.hostId l :=
        fun removes => not_removes ⟨l, at_, removes⟩
      exact ⟨Client.listed_move not_removes (s := ⟨s.redis, .idle⟩) listed order,
        c.not_removes_listed (not_removes_move not_removes (s := ⟨s.redis, .idle⟩) alive order)⟩
    · rename_i err l at_
      have not_removes : ¬ Coordinator.HostIndex.Removes locality host.hostId l :=
        fun removes => not_removes ⟨l, at_, removes⟩
      exact ⟨listed, c.not_removes_listed (not_removes_fails not_removes err)⟩
    · refine ⟨listed, ?_⟩
      rintro ⟨l, ⟨⟩, removes⟩
    · refine ⟨listed, ?_⟩
      rintro ⟨l, at_, removes⟩
      exact not_removes ⟨l, DiscoveryClient.listing_of_next at_, removes⟩
    · refine ⟨listed, ?_⟩
      rintro ⟨l, at_, removes⟩
      exact not_removes ⟨l, DiscoveryClient.listing_of_answer at_, removes⟩
    · refine ⟨listed, ?_⟩
      rintro ⟨l, at_, removes⟩
      exact not_removes ⟨l, DiscoveryClient.listing_of_set at_, removes⟩
    · refine ⟨listed, ?_⟩
      rintro ⟨l, at_, removes⟩
      rw [DiscoveryClient.remove_round] at at_
      exact not_removes ⟨l, at_, removes⟩
    · exact ⟨listed, not_removes⟩
  · exact ⟨Client.listed_move not_removes (s := ⟨s.redis, .idle⟩) listed _,
      not_removes_move not_removes (s := ⟨s.redis, .idle⟩) alive _⟩
  · exact ⟨listed, not_removes_fails not_removes _⟩
  · exact ⟨listed, not_removes⟩

end

/-! What a client does to its routes -/

section

variable {v : Views} {hostId : String} {dial : String → Option String}

theorem Views.set_hostMap {host : DiscoveredHost} (new : ¬ v.Known host.hostId) :
    (v.set dial host).hostMap = Function.update v.hostMap host.hostId (some host) := by
  rw [Views.set_new new, Views.addHost]
  split
  · rfl
  · rfl

theorem Views.Routes.set (h : v.Routes hostId) (host : DiscoveredHost) : (v.set dial host).Routes hostId := by
  by_cases known : v.Known host.hostId
  · rw [Views.set_known known]
    exact h
  have different : hostId ≠ host.hostId := fun same => known (same ▸ h.known)
  have kept : (v.set dial host).Known hostId := by
    rw [Views.Known, Views.set_hostMap known, Function.update_of_ne different]
    exact h.known
  rw [Views.set_new known, Views.addHost] at kept ⊢
  split at kept
  · exact ⟨kept, h.hashed, h.client⟩
  · obtain ⟨other, member, same⟩ := h.hashed
    exact ⟨kept, ⟨other, List.mem_append_left _ member, same⟩, Finset.mem_insert_of_mem h.client⟩

/-- A new host that can be dialled. -/
theorem Views.routes_set {host : DiscoveredHost} (new : ¬ v.Known host.hostId) (dialled : dial host.dialAddr = none) :
    (v.set dial host).Routes host.hostId := by
  rw [Views.set_new new, Views.addHost, dialled]
  refine ⟨?_, ⟨host, List.mem_append_right _ List.mem_cons_self, rfl⟩, Finset.mem_insert_self ..⟩
  simp [Views.Known]

theorem Views.known_of_set {host : DiscoveredHost} (different : host.hostId ≠ hostId)
    (known : (v.set dial host).Known hostId) : v.Known hostId := by
  by_cases old : v.Known host.hostId
  · rwa [Views.set_known old] at known
  · rwa [Views.Known, Views.set_hostMap old, Function.update_of_ne (Ne.symm different)] at known

theorem Views.known_remove {host : DiscoveredHost} (known : (v.remove host).Known hostId) : v.Known hostId := by
  rw [Views.Known, Views.remove_hostMap, Views.known_update] at known
  split at known
  · cases known
  · exact known

theorem Views.Routes.remove (h : v.Routes hostId) {host : DiscoveredHost} (different : host.hostId ≠ hostId)
    (other : host.addr ≠ hostId) : (v.remove host).Routes hostId := by
  obtain ⟨found, member, same⟩ := h.hashed
  refine ⟨?_, ⟨found, List.mem_filter.mpr ⟨member, ?_⟩, same⟩, Finset.mem_erase_of_ne_of_mem (Ne.symm other) h.client⟩
  · rw [Views.Known, Views.remove_hostMap, Function.update_of_ne (Ne.symm different)]
    exact h.known
  · rw [same]
    exact decide_eq_true (Ne.symm different)

end

/-! The host on its way through a round -/

/-- One of the hosts is this one. -/
def Among (host : DiscoveredHost) (hosts : List Host) : Prop := ∃ said ∈ hosts, said.toDiscoveredHost = host

/-- The call will answer with the host, as long as it finds its key. -/
def WillList (host : DiscoveredHost) (l : Listing Host) : Prop :=
  match l.pc with
  | .members => True
  | .get id rest => id = host.hostId ∨ host.hostId ∈ rest ∨ Among host l.hosts
  | .remove _ rest => host.hostId ∈ rest ∨ Among host l.hosts
  | .callback _ rest => host.hostId ∈ rest ∨ Among host l.hosts
  | .done answer => Among host (receivedHosts answer)

/-- The round will come to the host. -/
def Pending (locality : String) (host : DiscoveredHost) : Round → Prop
  | .idle => False
  | .listing l => l.locality = locality ∧ WillList host l
  | .asking rest asked found => Among host rest ∨ Among host asked ∨ Among host found
  | .updating rest => Among host rest

/-- The client sends requests to the host, or will after this round. -/
structure Finding (locality : String) (host : DiscoveredHost) (c : DiscoveryClient) : Prop where
  whole : c.views.Known host.hostId → c.views.Routes host.hostId
  pending : c.views.Routes host.hostId ∨ Pending locality host c.round

section

variable {locality : String} {host : DiscoveredHost}

theorem Among.cons {said : Host} {hosts : List Host} :
    Among host (said :: hosts) ↔ said.toDiscoveredHost = host ∨ Among host hosts := by
  simp [Among]

theorem Among.append {hosts more : List Host} : Among host (hosts ++ more) ↔ Among host hosts ∨ Among host more := by
  simp [Among, or_and_right, exists_or]

theorem Among.received {hosts : List Host} (among : Among host hosts) : Among host (receivedHosts (.ok hosts)) := by
  obtain ⟨said, member, rfl⟩ := among
  exact ⟨said.received, List.mem_map_of_mem member, rfl⟩

/-- A host that is asked for is asked by the goroutine with this number, or stays with the others. -/
theorem Among.eraseIdx {asked : List Host} (among : Among host asked) (i : Nat) :
    (∃ said, asked[i]? = some said ∧ said.toDiscoveredHost = host) ∨ Among host (asked.eraseIdx i) := by
  obtain ⟨said, member, same⟩ := among
  obtain ⟨j, found⟩ := List.mem_iff_getElem?.mp member
  by_cases here : j = i
  · exact .inl ⟨said, here ▸ found, same⟩
  · exact .inr ⟨said, List.mem_eraseIdx_iff_getElem?.mpr ⟨j, here, found⟩, same⟩

theorem WillList.continue {l : Listing Host} {rest : List String}
    (will : host.hostId ∈ rest ∨ Among host l.hosts) : WillList host (l.continue rest) := by
  cases rest with
  | cons id rest =>
    rcases will with later | found
    · exact (List.mem_cons.mp later).imp Eq.symm .inl
    · exact .inr (.inr found)
  | nil =>
    have found : Among host l.hosts := will.resolve_left (List.not_mem_nil)
    have some : l.hosts.isEmpty = false := by
      obtain ⟨said, member, -⟩ := found
      exact List.isEmpty_eq_false_iff.mpr (List.ne_nil_of_mem member)
    simp only [WillList, Listing.continue, some, Bool.false_eq_true, if_false]
    exact found.received

theorem WillList.move {l : Listing Host} (will : WillList host l) {s : Fleet Host}
    (listed : host.hostId ∈ s.redis.sets (metadataHostIndex l.locality))
    (alive : ∃ said, s.redis.strings (metadataHostKeepAlive l.locality host.hostId) = some said ∧
      said.toDiscoveredHost = host) (order : List String) : WillList host (l.move order s).2 := by
  rcases l with ⟨here, hosts, pc⟩
  cases pc with
  | members =>
    refine .continue (.inl ?_)
    split
    · rename_i perm
      exact (List.isPerm_iff.mp perm).mem_iff.mpr listed
    · exact listed
  | get id rest =>
    cases read : s.redis.strings (metadataHostKeepAlive here id) with
    | none =>
      simp only [Listing.move, read]
      refine will.resolve_left fun same => ?_
      obtain ⟨said, present, -⟩ := alive
      rw [← same, read] at present
      cases present
    | some found =>
      simp only [Listing.move, read]
      refine WillList.continue (l := ⟨here, hosts ++ [found], _⟩) ?_
      rcases will with same | later | old
      · obtain ⟨said, present, rfl⟩ := alive
        rw [← same, read] at present
        cases present
        exact .inr (Among.append.mpr (.inr ⟨_, List.mem_cons_self, rfl⟩))
      · exact .inl later
      · exact .inr (Among.append.mpr (.inl old))
  | remove id rest => exact will
  | callback id rest => exact .continue will
  | done answer => exact will

namespace Finding

variable {c : DiscoveryClient} (h : Finding locality host c)
include h

/-- Only the round has changed. -/
theorem of_round {round : Round} (pending : Pending locality host c.round → Pending locality host round) :
    Finding locality host { c with round } :=
  ⟨h.whole, h.pending.imp_right pending⟩

theorem listed {l l' : Listing Host} (at_ : c.round = .listing l)
    (will : l.locality = locality → WillList host l → l'.locality = locality ∧ WillList host l') :
    Finding locality host (c.listed l') := by
  have later (pending : Pending locality host c.round) : l'.locality = locality ∧ WillList host l' := by
    rw [at_] at pending
    exact will pending.1 pending.2
  simp only [DiscoveryClient.listed]
  split
  · rename_i answer done
    refine h.of_round fun pending => .inl ?_
    have answers := (later pending).2
    rwa [WillList, done] at answers
  · exact h.of_round later

theorem next : Finding locality host c.next := by
  simp only [DiscoveryClient.next]
  split
  · rename_i said rest asked found at_
    split
    · rename_i known
      -- a host that is skipped is routed to already
      by_cases same : said.toDiscoveredHost = host
      · exact ⟨h.whole, .inl (h.whole (same ▸ known))⟩
      · refine h.of_round fun pending => ?_
        rw [at_] at pending
        exact pending.imp_left fun among => (Among.cons.mp among).resolve_left same
    · refine h.of_round fun pending => ?_
      rw [at_] at pending
      rcases pending with among | among | among
      · rcases Among.cons.mp among with here | later
        · exact .inr (.inl (Among.append.mpr (.inr ⟨said, List.mem_cons_self, here⟩)))
        · exact .inl later
      · exact .inr (.inl (Among.append.mpr (.inl among)))
      · exact .inr (.inr among)
  · rename_i found at_
    refine h.of_round fun pending => ?_
    rw [at_] at pending
    rcases pending with ⟨_, none, _⟩ | ⟨_, none, _⟩ | among
    · cases none
    · cases none
    · exact among
  · exact h

theorem answer {network : Network}
    (answers : ∃ resp, network host.privateAddr = .ok resp ∧ resp.version = blobCacheVersion) (i : Nat) :
    Finding locality host (c.answer network i none) := by
  simp only [DiscoveryClient.answer]
  split
  · rename_i rest asked found at_
    split
    · exact h
    · rename_i impossible
      cases impossible
    · rename_i said asking _
      -- the goroutine asks this host, or the host stays with the others
      have reached (same : said.toDiscoveredHost = host) : ∃ hostState, getHostState network said = .ok hostState ∧
          hostState.toDiscoveredHost = host := by
        obtain ⟨resp, reached, version⟩ := answers
        subst same
        refine ⟨{ said with rtt := 0, capacityUsagePct := resp.capacityUsagePct }, ?_, rfl⟩
        simp only [getHostState, reached, version, ne_eq, not_true_eq_false, if_false]
      split
      · rename_i err failed
        refine h.of_round fun pending => ?_
        rw [at_] at pending
        refine pending.imp_right (Or.imp_left fun among => ?_)
        refine (among.eraseIdx i).resolve_left ?_
        rintro ⟨_, here, same⟩
        rw [asking] at here
        cases here
        obtain ⟨_, ok, -⟩ := reached same
        rw [failed] at ok
        cases ok
      · rename_i hostState ok
        refine h.of_round fun pending => ?_
        rw [at_] at pending
        rcases pending with among | among | among
        · exact .inl among
        · rcases among.eraseIdx i with ⟨_, here, same⟩ | left
          · rw [asking] at here
            cases here
            obtain ⟨_, ok', found⟩ := reached same
            rw [ok] at ok'
            cases ok'
            exact .inr (.inr (Among.append.mpr (.inr ⟨_, List.mem_cons_self, found⟩)))
          · exact .inr (.inl left)
        · exact .inr (.inr (Among.append.mpr (.inl among)))
  · exact h

theorem set {dial : String → Option String} (dialled : ∀ addr, dial addr = none) : Finding locality host (c.set dial) := by
  simp only [DiscoveryClient.set]
  split
  · rename_i said rest at_
    by_cases same : said.hostId = host.hostId
    · have routes : (c.views.set dial said.toDiscoveredHost).Routes host.hostId := by
        by_cases known : c.views.Known host.hostId
        · exact (h.whole known).set _
        · rw [← same] at known ⊢
          exact Views.routes_set known (dialled _)
      exact ⟨fun _ => routes, .inl routes⟩
    · refine ⟨fun known => (h.whole (Views.known_of_set same known)).set _, ?_⟩
      refine h.pending.imp (fun routes => routes.set _) fun pending => ?_
      rw [at_] at pending
      exact (Among.cons.mp pending).resolve_left fun this => same (congrArg (·.hostId) this)
  · rename_i at_
    refine h.of_round fun pending => ?_
    rw [at_] at pending
    obtain ⟨_, none, -⟩ := pending
    cases none
  · exact h

theorem remove {other : DiscoveredHost} (different : other.hostId ≠ host.hostId) (elsewhere : other.addr ≠ host.hostId) :
    Finding locality host (c.remove other) := by
  simp only [DiscoveryClient.remove]
  split
  · refine ⟨fun known => (h.whole (Views.known_remove known)).remove different elsewhere, ?_⟩
    exact h.pending.imp_left fun routes => routes.remove different elsewhere
  · exact h

theorem move {s : Region} (lives : s.Lives locality host) (listed : s.Listed locality host.hostId) {m : ClientMove}
    (faultless : m.Faultless host) : Finding locality host (c.move m s).2 := by
  simp only [DiscoveryClient.move]
  split
  · rename_i at_
    refine h.of_round fun pending => ?_
    rw [at_] at pending
    exact pending.elim
  · rename_i order l at_
    refine h.listed at_ fun here will => ?_
    subst here
    exact ⟨move_locality .., will.move (s := ⟨s.redis, .idle⟩) listed lives.alive order⟩
  · exact faultless.elim
  · exact faultless.elim
  · exact h.next
  · rename_i i timeout
    cases faultless
    exact h.answer lives.answers i
  · exact h.set faultless
  · exact h.remove faultless.1 faultless.2
  · exact h

end Finding

end

/-- **A live host is found.** A client begins a round while the host is in the index of the locality and no call
is about to remove it; if the client knows the host from an earlier round, it sends requests to it, so no dial has
failed then. As long as the host's keepalive key is there and the host answers, and nothing fails for the client, the
client sends requests to the host whenever it is between two rounds. -/
theorem live_host_is_found {p p' : Parties} {k : Nat} {locality : String} {host : DiscoveredHost} {c c' : DiscoveryClient}
    (begins : p.threads[k]? = some (.client c)) (round : c.round = .listing ⟨locality, [], .members⟩)
    (whole : c.views.Known host.hostId → c.views.Routes host.hostId) (listed : p.shared.Listed locality host.hostId)
    (not_removed : ∀ party ∈ p.threads, ¬ party.Removes locality host.hostId)
    (run : Trace Parties.step (Parties.Undisturbed k locality host) p p')
    (later : p'.threads[k]? = some (.client c')) (idle : c'.round = .idle) : c'.views.Routes host.hostId := by
  have kept := Pool.invariant_indexed (I := fun s : Region => s.Listed locality host.hostId)
    (L := fun i _ party => ¬ party.Removes locality host.hostId ∧
      (i = k → ∃ c, party = .client c ∧ Finding locality host c)) ?_ ?_ ?_ run listed ?_
  · obtain ⟨_, same, finding⟩ := (kept.2 k _ later).2 rfl
    cases same
    refine finding.pending.resolve_right fun pending => ?_
    rw [idle] at pending
    exact pending
  · intro q e _ listed
    cases e with
    | expire key => exact ⟨listed, fun _ _ here => here⟩
    | network addr answer => exact ⟨listed, fun _ _ here => here⟩
  · intro q party admitted _ _ longer
    obtain ⟨inside, -⟩ := List.getElem?_eq_some_iff.mp begins
    refine ⟨?_, fun same => absurd inside (by omega)⟩
    cases admitted.starting with
    | host => exact fun removes => removes
    | client => exact fun ⟨l, at_, _⟩ => by cases at_
    | call => exact fun removes => by cases removes
  · intro q t m party admitted found listed here
    obtain ⟨listed', not_removes⟩ := Party.listed_move admitted.lives listed here.1 m
    refine ⟨listed', ⟨not_removes, fun same => ?_⟩, fun _ _ other => other⟩
    obtain ⟨c, rfl, finding⟩ := here.2 same
    subst same
    cases m with
    | client m => exact ⟨_, rfl, finding.move admitted.lives listed (admitted.faultless m rfl)⟩
    | _ => exact ⟨c, rfl, finding⟩
  · intro i party found
    refine ⟨not_removed party (List.mem_of_getElem? found), fun same => ?_⟩
    subst same
    rw [begins] at found
    cases found
    refine ⟨c, rfl, whole, .inr ?_⟩
    rw [round]
    exact ⟨rfl, trivial⟩

theorem beginning_lives : beginning.shared.Lives "l" Views.someHost :=
  ⟨⟨Host.received ⟨Views.someHost, 0, 0⟩, rfl, rfl⟩, ⟨_, rfl, rfl⟩⟩

theorem live_host_is_found_first :
    ∃ c, ending.threads[1]? = some (.client c) ∧ c.round = .idle ∧ c.views.Routes Views.someHost.hostId := by
  obtain ⟨c, found, idle⟩ := Parties.idle_client (p := ending) (k := 1) (by decide +kernel)
  have shared (k : Fin wholeRound.length) :
      (after Parties.step (wholeRound.take k) beginning).shared = beginning.shared := by
    fin_cases k <;> rfl
  have run : Trace Parties.step (Parties.Undisturbed 1 "l" Views.someHost) beginning ending := by
    refine Trace.of_list wholeRound beginning fun k => ?_
    obtain ⟨m, member, at_⟩ := List.mem_map.mp (List.get_mem wholeRound k)
    rw [← at_]
    refine ⟨trivial, (shared k).symm ▸ beginning_lives, fun m' same => ?_⟩
    cases same
    simp only [clientRound, List.mem_cons, List.not_mem_nil, or_false] at member
    rcases member with rfl | rfl | rfl | rfl | rfl | rfl | rfl
    all_goals first | trivial | exact rfl | exact fun _ => rfl
  refine ⟨c, found, idle, ?_⟩
  refine live_host_is_found (c := ⟨"l", .new, .listing ⟨"l", [], .members⟩⟩) rfl rfl (fun known => by cases known)
    (by unfold Region.Listed; decide +kernel) (fun party member removes => ?_) run found idle
  have threads : beginning.threads = [.host ⟨"l", .remote, ⟨Views.someHost, 0, 0⟩, .idle⟩,
      .client ⟨"l", .new, .listing ⟨"l", [], .members⟩⟩] := rfl
  rw [threads, List.mem_cons, List.mem_singleton] at member
  rcases member with rfl | rfl
  · exact removes
  · obtain ⟨l, at_, removes⟩ := removes
    cases at_
    cases removes

end Blobcache.Client
