import Blobcache.Client.LiveHosts

/-!
# Dead hosts are forgotten

Nobody takes a host out of the index when it stops: its keepalive key expires, and the next call
of `GetAvailableHosts` that misses the key removes it. From then on the host is neither in the
index nor found by a client again. A call that fails on the way may leave the host in the index.
-/

namespace Blobcache.Client
set_option autoImplicit false
open Execution Interleaving
open Coordinator.HostIndex
open Redis (TypedKeyspace)

/-- The host has stopped, and no call fails for the client with this number. -/
structure Parties.Without (k : Nat) (locality hostId : String) (p : Parties) (a : PartyAct) : Prop where
  starting : p.Starting a
  dead : ∀ t usage fails h, a = .move t (.beat usage fails) → p.threads[t]? = some (.host h) →
    ¬ (h.locality = locality ∧ h.currentHost.hostId = hostId)
  faultless : ∀ m, a = .move k (.client m) → m ≠ .callFails ∧ ∀ err, m ≠ .commandFails err

section

variable {locality hostId : String}

/-- The call will have removed the host when it answers, and does not answer with it. -/
def FadingListing (locality hostId : String) (s : Region) (l : Listing Host) : Prop :=
  l.locality = locality ∧ (∀ said ∈ l.hosts, said.hostId ≠ hostId) ∧
    match l.pc with
    | .members => True
    | .get id rest => id = hostId ∨ hostId ∈ rest ∨ ¬ s.Listed locality hostId
    | .remove id rest => id = hostId ∨ hostId ∈ rest ∨ ¬ s.Listed locality hostId
    | .callback _ rest => hostId ∈ rest ∨ ¬ s.Listed locality hostId
    | .done answer => ¬ s.Listed locality hostId ∧ ∀ said ∈ receivedHosts answer, said.hostId ≠ hostId

def FadingRound (locality hostId : String) (s : Region) : Round → Prop
  | .idle => ¬ s.Listed locality hostId
  | .listing l => FadingListing locality hostId s l
  | .asking rest asked found =>
    ¬ s.Listed locality hostId ∧ (∀ said ∈ rest, said.hostId ≠ hostId) ∧ (∀ said ∈ asked, said.hostId ≠ hostId) ∧
      ∀ said ∈ found, said.hostId ≠ hostId
  | .updating rest => ¬ s.Listed locality hostId ∧ ∀ said ∈ rest, said.hostId ≠ hostId

/-- The client does not know the host, and its round will not find it. -/
structure Fading (locality hostId : String) (s : Region) (c : DiscoveryClient) : Prop where
  here : c.locality = locality
  unknown : ¬ c.views.Known hostId
  round : FadingRound locality hostId s c.round

/-- The host does not come back into the index. -/
theorem Fading.mono {s s' : Region} {c : DiscoveryClient} (h : Fading locality hostId s c)
    (fewer : s'.Listed locality hostId → s.Listed locality hostId) : Fading locality hostId s' c := by
  refine ⟨h.here, h.unknown, ?_⟩
  have round := h.round
  cases at_ : c.round with
  | idle =>
    rw [at_] at round
    exact mt fewer round
  | listing l =>
    rw [at_] at round
    refine ⟨round.1, round.2.1, ?_⟩
    have place := round.2.2
    rcases l with ⟨here, hosts, pc⟩
    cases pc with
    | members => trivial
    | get id rest => exact place.imp_right (Or.imp_right (mt fewer))
    | remove id rest => exact place.imp_right (Or.imp_right (mt fewer))
    | callback id rest => exact place.imp_right (mt fewer)
    | done answer => exact place.imp_left (mt fewer)
  | asking rest asked found =>
    rw [at_] at round
    exact round.imp_left (mt fewer)
  | updating rest =>
    rw [at_] at round
    exact round.imp_left (mt fewer)

/-! What the commands do to the index -/

theorem mem_of_move (l : Listing Host) (order : List String) {s : Fleet Host}
    (listed : hostId ∈ (l.move order s).1.redis.sets (metadataHostIndex locality)) :
    hostId ∈ s.redis.sets (metadataHostIndex locality) := by
  rcases l with ⟨here, hosts, pc⟩
  cases pc with
  | members => exact listed
  | get id rest =>
    simp only [Listing.move] at listed
    split at listed
    · exact listed
    · exact listed
  | remove id rest => exact (mem_removeHostFromIndex_iff.mp listed).1
  | callback id rest => exact (mem_removeHostFromIndex_iff.mp listed).1
  | done answer => exact listed

theorem HostService.mem_of_move {h : HostService} (other : ¬ (h.locality = locality ∧ h.currentHost.hostId = hostId))
    {s : Region} {usage : Rat} {fails : Bool} (listed : (h.move usage fails s).1.Listed locality hostId) :
    s.Listed locality hostId := by
  rw [Region.Listed] at listed
  rcases h.move_redis usage fails s with same | added | ⟨said, -, set⟩
  · rwa [same] at listed
  · exact (mem_addHostToIndex_iff.mp (added ▸ listed)).resolve_right fun same => other ⟨same.1.symm, same.2.symm⟩
  · rwa [set] at listed

/-- A dead host stays out of the index, and its key is not set. -/
theorem Party.dead_move {s : Region} {party : Party} {m : PartyMove} (genuine : PlainParty party)
    (plain : '%' ∉ locality.toList) (dead : ∀ usage fails h, m = .beat usage fails → party = .host h →
      ¬ (h.locality = locality ∧ h.currentHost.hostId = hostId))
    (expired : s.redis.strings (metadataHostKeepAlive locality hostId) = none) :
    ((party.move m s).1.Listed locality hostId → s.Listed locality hostId) ∧
      (party.move m s).1.redis.strings (metadataHostKeepAlive locality hostId) = none := by
  simp only [Party.move]
  split
  · rename_i h usage fails
    have other := dead usage fails h rfl rfl
    refine ⟨HostService.mem_of_move other, ?_⟩
    rcases h.move_redis usage fails s with same | added | ⟨said, discovered, set⟩
    · rwa [same]
    · rwa [added]
    · rw [set, setHostKeepAlive, TypedKeyspace.set_other]
      · exact expired
      · intro same
        obtain ⟨rfl, rfl⟩ := metadataHostKeepAlive_injective plain genuine.1 same
        exact other ⟨rfl, congrArg (·.hostId) discovered.symm⟩
  · simp only [DiscoveryClient.move]
    split
    case h_2 => exact ⟨Client.mem_of_move _ _ (s := ⟨s.redis, .idle⟩), by rwa [move_strings]⟩
    all_goals exact ⟨id, expired⟩
  · exact ⟨Client.mem_of_move _ _ (s := ⟨s.redis, .idle⟩), by rwa [move_strings]⟩
  · exact ⟨id, expired⟩
  · exact ⟨id, expired⟩

/-! The host on its way out of a round -/

theorem FadingListing.continue {s : Region} {l : Listing Host} {rest : List String} (here : l.locality = locality)
    (hosts : ∀ said ∈ l.hosts, said.hostId ≠ hostId) (will : hostId ∈ rest ∨ ¬ s.Listed locality hostId) :
    FadingListing locality hostId s (l.continue rest) := by
  cases rest with
  | cons id rest =>
    refine ⟨here, hosts, ?_⟩
    rcases will with later | gone
    · exact (List.mem_cons.mp later).imp Eq.symm .inl
    · exact .inr (.inr gone)
  | nil =>
    refine ⟨here, hosts, will.resolve_left List.not_mem_nil, fun said member => ?_⟩
    split at member
    · cases member
    · obtain ⟨read, among, rfl⟩ := List.mem_map.mp member
      exact hosts read among

theorem FadingListing.move {s : Region} {l : Listing Host} (h : FadingListing locality hostId s l)
    (plain : '%' ∉ locality.toList) (keys : OwnKeys s.redis)
    (expired : s.redis.strings (metadataHostKeepAlive locality hostId) = none) (order : List String) :
    FadingListing locality hostId { s with redis := (l.move order ⟨s.redis, .idle⟩).1.redis }
      (l.move order ⟨s.redis, .idle⟩).2 := by
  obtain ⟨rfl, hosts, place⟩ := h
  rcases l with ⟨here, found, pc⟩
  cases pc with
  | members =>
    refine .continue rfl hosts ?_
    by_cases listed : s.Listed here hostId
    · refine .inl ?_
      split
      · rename_i perm
        exact (List.isPerm_iff.mp perm).mem_iff.mpr listed
      · exact listed
    · exact .inr listed
  | get id rest =>
    cases read : s.redis.strings (metadataHostKeepAlive here id) with
    | none =>
      simp only [Listing.move, read]
      exact ⟨rfl, hosts, place⟩
    | some said =>
      simp only [Listing.move, read]
      have different : id ≠ hostId := by
        rintro rfl
        rw [expired] at read
        cases read
      refine FadingListing.continue (l := ⟨here, found ++ [said], _⟩) rfl (fun other member => ?_)
        (place.resolve_left different)
      rcases List.mem_append.mp member with old | new
      · exact hosts other old
      · rw [List.mem_singleton.mp new, (keys here id said plain read).1]
        exact different
  | remove id rest =>
    refine ⟨rfl, hosts, ?_⟩
    rcases place with rfl | later | gone
    · exact .inr fun listed => (mem_removeHostFromIndex_iff.mp listed).2 ⟨rfl, rfl⟩
    · exact .inl later
    · exact .inr fun listed => gone (mem_removeHostFromIndex_iff.mp listed).1
  | callback id rest =>
    exact .continue rfl hosts (place.imp_right (mt fun listed => (mem_removeHostFromIndex_iff.mp listed).1))
  | done answer => exact ⟨rfl, hosts, place⟩

namespace Fading

variable {s : Region} {c : DiscoveryClient} (h : Fading locality hostId s c)
include h

/-- Only the round has changed. -/
theorem of_round {round : Round} (fading : FadingRound locality hostId s round) :
    Fading locality hostId s { c with round } :=
  ⟨h.here, h.unknown, fading⟩

theorem next : Fading locality hostId s c.next := by
  have before := h.round
  simp only [DiscoveryClient.next]
  split
  · rename_i said rest asked found at_
    rw [at_] at before
    obtain ⟨gone, others, asking, answered⟩ := before
    obtain ⟨first, others⟩ := List.forall_mem_cons.mp others
    split
    · exact h.of_round ⟨gone, others, asking, answered⟩
    · exact h.of_round ⟨gone, others, List.forall_mem_append.mpr ⟨asking, List.forall_mem_singleton.mpr first⟩, answered⟩
  · rename_i found at_
    rw [at_] at before
    exact h.of_round ⟨before.1, before.2.2.2⟩
  · exact h

theorem answer (network : Network) (i : Nat) (timeout : Option String) :
    Fading locality hostId s (c.answer network i timeout) := by
  have before := h.round
  simp only [DiscoveryClient.answer]
  split
  · rename_i rest asked found at_
    rw [at_] at before
    obtain ⟨gone, others, asking, answered⟩ := before
    have fewer : ∀ said ∈ asked.eraseIdx i, said.hostId ≠ hostId := fun said member =>
      asking said (List.mem_of_mem_eraseIdx member)
    split
    · exact h
    · exact h.of_round ⟨gone, others, fewer, answered⟩
    · rename_i said here
      split
      · exact h.of_round ⟨gone, others, fewer, answered⟩
      · rename_i hostState ok
        have different : hostState.hostId ≠ hostId := by
          rw [congrArg (·.hostId) (getHostState_ok ok).1]
          exact asking said (List.mem_of_getElem? here)
        exact h.of_round ⟨gone, others, fewer, List.forall_mem_append.mpr ⟨answered, List.forall_mem_singleton.mpr different⟩⟩
  · exact h

theorem set (dial : String → Option String) : Fading locality hostId s (c.set dial) := by
  have before := h.round
  simp only [DiscoveryClient.set]
  split
  · rename_i said rest at_
    rw [at_] at before
    obtain ⟨first, others⟩ := List.forall_mem_cons.mp before.2
    exact ⟨h.here, mt (Views.known_of_set first) h.unknown, before.1, others⟩
  · rename_i at_
    rw [at_] at before
    exact h.of_round before.1
  · exact h

theorem remove (host : DiscoveredHost) : Fading locality hostId s (c.remove host) := by
  simp only [DiscoveryClient.remove]
  split
  · exact ⟨h.here, mt Views.known_remove h.unknown, h.round⟩
  · exact h

theorem move (plain : '%' ∉ locality.toList) (keys : OwnKeys s.redis)
    (expired : s.redis.strings (metadataHostKeepAlive locality hostId) = none) {m : ClientMove}
    (faultless : m ≠ .callFails ∧ ∀ err, m ≠ .commandFails err) :
    Fading locality hostId (c.move m s).1 (c.move m s).2 := by
  have before := h.round
  simp only [DiscoveryClient.move]
  split
  · refine h.of_round ⟨h.here, fun _ none => (by cases none), trivial⟩
  · rename_i order l at_
    rw [at_] at before
    have moved := before.move plain keys expired order
    simp only [DiscoveryClient.listed]
    split
    · rename_i answer done
      have place := moved.2.2
      simp only [done] at place
      exact ⟨h.here, h.unknown, place.1, place.2, fun _ none => (by cases none), fun _ none => by cases none⟩
    · exact ⟨h.here, h.unknown, moved⟩
  · rename_i err l _
    exact absurd rfl (faultless.2 err)
  · exact absurd rfl faultless.1
  · exact h.next
  · exact h.answer ..
  · exact h.set _
  · exact h.remove _
  · exact h

end Fading

end

/-- **A dead host is forgotten.** A client that does not know the host begins a round after the host's keepalive key
has expired. If the host never beats again, and no call of the client to the coordinator and no Redis command of such
a call fails, then whenever the client is between two rounds the host is not in the index of the locality, and the
client does not know it. -/
theorem dead_host_is_forgotten {network : Network} {p p' : Parties} {k : Nat} {hostId : String} {c c' : DiscoveryClient}
    (before : Trace Parties.step Parties.Starting (.start network) p) (begins : p.threads[k]? = some (.client c))
    (round : c.round = .listing ⟨c.locality, [], .members⟩) (unknown : ¬ c.views.Known hostId)
    (expired : p.shared.redis.strings (metadataHostKeepAlive c.locality hostId) = none)
    (run : Trace Parties.step (Parties.Without k c.locality hostId) p p')
    (later : p'.threads[k]? = some (.client c')) (idle : c'.round = .idle) :
    ¬ p'.shared.Listed c.locality hostId ∧ ¬ c'.views.Known hostId := by
  have genuine : OwnKeys p.shared.redis ∧ ∀ (i : Nat) (party), p.threads[i]? = some party → PlainParty party :=
    genuine_run (before.weaken fun _ _ admitted => ⟨admitted, fun _ _ => trivial, fun _ _ _ => trivial⟩)
      (fun _ _ _ _ found => by cases found) fun _ _ none => by cases none
  obtain ⟨keys, genuine⟩ := genuine
  have plain : '%' ∉ c.locality.toList := (genuine k _ begins).plain
  have stays {s s' : Region} (fewer : s'.Listed c.locality hostId → s.Listed c.locality hostId) (i : Nat) (party : Party)
      (there : PlainParty party ∧
        (i = k → ∃ c', party = .client c' ∧ Fading c.locality hostId s c')) :
      PlainParty party ∧
        (i = k → ∃ c', party = .client c' ∧ Fading c.locality hostId s' c') :=
    there.imp_right fun fading same => (fading same).imp fun _ fading => fading.imp_right fun h => h.mono fewer
  have kept := Pool.invariant_indexed
    (I := fun s : Region => OwnKeys s.redis ∧
      s.redis.strings (metadataHostKeepAlive c.locality hostId) = none)
    (L := fun i s party => PlainParty party ∧
      (i = k → ∃ c', party = .client c' ∧ Fading c.locality hostId s c')) ?_ ?_ ?_ run ⟨keys, expired⟩ ?_
  · obtain ⟨_, same, fading⟩ := (kept.2 k _ later).2 rfl
    cases same
    have gone := fading.round
    rw [idle] at gone
    exact ⟨gone, fading.unknown⟩
  · intro q e _ keys
    cases e with
    | expire key =>
      refine ⟨⟨keys.1.expire key, ?_⟩, stays fun listed => listed⟩
      simp only [Region.event, TypedKeyspace.set, Function.update_apply]
      split
      · rfl
      · exact keys.2
    | network addr answer => exact ⟨keys, stays fun listed => listed⟩
  · intro q party admitted _ _ longer
    obtain ⟨inside, -⟩ := List.getElem?_eq_some_iff.mp begins
    exact ⟨.starts admitted.starting fun _ _ => trivial, fun same => absurd inside (by omega)⟩
  · intro q t m party admitted found keys here
    obtain ⟨fewer, expired⟩ := Party.dead_move (m := m) here.1 plain
      (fun usage fails h at_ same => admitted.dead t usage fails h (by rw [at_]) (same ▸ found)) keys.2
    obtain ⟨keys', genuine'⟩ := here.1.move keys.1 (m := m) fun _ _ _ _ _ _ => trivial
    refine ⟨⟨keys', expired⟩, ⟨genuine', fun same => ?_⟩, stays fewer⟩
    obtain ⟨c', rfl, fading⟩ := here.2 same
    subst same
    cases m with
    | client m => exact ⟨_, rfl, fading.move plain keys.1 keys.2 (admitted.faultless m rfl)⟩
    | _ => exact ⟨c', rfl, fading⟩
  · intro i party found
    refine ⟨genuine i party found, fun same => ?_⟩
    subst same
    rw [begins] at found
    cases found
    refine ⟨c, rfl, rfl, unknown, ?_⟩
    rw [round]
    exact ⟨rfl, fun _ none => (by cases none), trivial⟩

/-- The host starts and stops, its key expires, and a client begins a round. -/
def deadBeginning : Parties :=
  after Parties.step (hostStarts ++ [.env (.expire (metadataHostKeepAlive "l" Views.someHost.hostId))] ++ roundBegins)
    (.start oneHostNetwork)

/-- The client finds nobody, and the coordinator removes the host. -/
def emptyRound : List PartyAct :=
  [.command [], .command [], .command [], .command [], .next, .set Views.dialsAll].map fun m => .move 1 (.client m)

def deadEnding : Parties := after Parties.step emptyRound deadBeginning

theorem deadBeginning_run : Trace Parties.step Parties.Starting (.start oneHostNetwork) deadBeginning := by
  refine Parties.after_run _ _ fun party member => ?_
  simp only [hostStarts, roundBegins, List.cons_append, List.nil_append, List.mem_cons, List.not_mem_nil, reduceCtorEq,
    Action.spawn.injEq, or_false, false_or] at member
  rcases member with rfl | rfl
  · exact .host rfl (by decide)
  · exact .client (by decide)

theorem dead_host_is_forgotten_expired :
    deadBeginning.shared.Listed "l" Views.someHost.hostId ∧ ∃ c, deadEnding.threads[1]? = some (.client c) ∧
      c.round = .idle ∧ ¬ deadEnding.shared.Listed "l" Views.someHost.hostId ∧ ¬ c.views.Known Views.someHost.hostId := by
  obtain ⟨c, found, idle⟩ := Parties.idle_client (p := deadEnding) (k := 1) (by decide +kernel)
  have run : Trace Parties.step (Parties.Without 1 "l" Views.someHost.hostId) deadBeginning deadEnding := by
    refine Trace.of_list emptyRound deadBeginning fun k => ?_
    obtain ⟨m, member, at_⟩ := List.mem_map.mp (List.get_mem emptyRound k)
    rw [← at_]
    refine ⟨trivial, fun t usage fails h same => (by cases same), fun m' same => ?_⟩
    cases same
    refine ⟨fun this => ?_, fun err this => ?_⟩
    · simp [this] at member
    · simp [this] at member
  refine ⟨by unfold Region.Listed; decide +kernel, c, found, idle, ?_⟩
  exact dead_host_is_forgotten (c := ⟨"l", .new, .listing ⟨"l", [], .members⟩⟩) deadBeginning_run rfl rfl
    (fun known => by cases known) rfl run found idle

end Blobcache.Client
