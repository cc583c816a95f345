import Blobcache.Lib.Interleaving
import Blobcache.Lib.Keyspace

/-!
# The host index

`metadata.go`, and `HostKeepAlive` of `server.go`. A host is found through two keys: the index
of its locality, a set of host ids, and its keepalive key, which expires. A host beats: once,
when it starts, it sets its keepalive key and then adds itself to the index; in every later
round it is the other way round. `GetAvailableHosts` reads the index and then the keepalive
key of each member, and when it finds none it removes the member, directly and once more
through the callback of `CoordinatorClientLocal`.

The commands of one host, of the calls and of other hosts come in any order, one Redis command
at a time. The calls check and remove in different commands, so a host that has come back in
between is removed from the index.

Redis answers every command here. What a host says of itself is stored as JSON, which is read
back as it was; it is a type parameter.
-/

namespace Blobcache.Coordinator.HostIndex
set_option autoImplicit false
open Execution Interleaving
open Redis (TypedKeyspace)

/-! ## The commands -/

variable {H : Type}

def metadataHostIndex (locality : String) : String := "blobcache:host_index:" ++ locality

/-- The format has one verb for two arguments, so the host id comes as an extra one. -/
def metadataHostKeepAlive (locality hostId : String) : String :=
  "blobcache:host:keepalive:" ++ locality ++ "%!(EXTRA string=" ++ hostId ++ ")"

def addHostToIndex (r : TypedKeyspace H) (locality hostId : String) : TypedKeyspace H :=
  r.sadd (metadataHostIndex locality) hostId

def removeHostFromIndex (r : TypedKeyspace H) (locality hostId : String) : TypedKeyspace H :=
  r.srem (metadataHostIndex locality) hostId

def setHostKeepAlive (r : TypedKeyspace H) (locality hostId : String) (host : H) : TypedKeyspace H :=
  r.set (metadataHostKeepAlive locality hostId) (some host)

/-! ## The heartbeat of a host -/

/-- Where `HostKeepAlive` is: `idle` when its last round is complete. -/
inductive Beat where
  | starts
  | startsSet
  | idle
  | added
  deriving DecidableEq, Repr

structure Fleet (H : Type) where
  redis : TypedKeyspace H
  beat : Beat

/-- What happens beside the calls. -/
inductive Event (H : Type) where
  /-- The next command of the host, which says `host` of itself. -/
  | beat (host : H)
  | expire (key : String)
  /-- The commands of other hosts. -/
  | otherAdds (locality hostId : String)
  | otherSets (locality hostId : String) (host : H)

/-- The next command of `HostKeepAlive`. -/
def hostKeepAlive (locality hostId : String) (host : H) (s : Fleet H) : Fleet H :=
  match s.beat with
  | .starts => ⟨setHostKeepAlive s.redis locality hostId host, .startsSet⟩
  | .startsSet => ⟨addHostToIndex s.redis locality hostId, .idle⟩
  | .idle => ⟨addHostToIndex s.redis locality hostId, .added⟩
  | .added => ⟨setHostKeepAlive s.redis locality hostId host, .idle⟩

def Fleet.event (locality hostId : String) (e : Event H) (s : Fleet H) : Fleet H :=
  match e with
  | .beat host => hostKeepAlive locality hostId host s
  | .expire key => { s with redis := s.redis.set key none }
  | .otherAdds l id => { s with redis := addHostToIndex s.redis l id }
  | .otherSets l id host => { s with redis := setHostKeepAlive s.redis l id host }

/-! ## `GetAvailableHosts` -/

inductive ListPc (H : Type) where
  | members
  | get (hostId : String) (rest : List String)
  | remove (hostId : String) (rest : List String)
  | callback (hostId : String) (rest : List String)
  | done (answer : Except String (List H))

/-- A call under way, with the hosts it has found. -/
structure Listing (H : Type) where
  locality : String
  hosts : List H
  pc : ListPc H

/-- On to the next host id. -/
def Listing.continue (l : Listing H) : List String → Listing H
  | hostId :: rest => { l with pc := .get hostId rest }
  | [] => { l with pc := .done (if l.hosts.isEmpty then .error "no available hosts" else .ok l.hosts) }

/-- The next command of a call. `SMEMBERS` answers in any order. -/
def Listing.move (order : List String) (s : Fleet H) (l : Listing H) : Fleet H × Listing H :=
  match l.pc with
  | .members =>
    let members := s.redis.sets (metadataHostIndex l.locality)
    (s, l.continue (if order.isPerm members then order else members))
  | .get hostId rest =>
    match s.redis.strings (metadataHostKeepAlive l.locality hostId) with
    | none => (s, { l with pc := .remove hostId rest })
    | some host => (s, { l with hosts := l.hosts ++ [host] }.continue rest)
  | .remove hostId rest =>
    ({ s with redis := removeHostFromIndex s.redis l.locality hostId }, { l with pc := .callback hostId rest })
  | .callback hostId rest =>
    ({ s with redis := removeHostFromIndex s.redis l.locality hostId }, l.continue rest)
  | .done _ => (s, l)

/-! ## Runs -/

abbrev Act (H : Type) := Action (Listing H) (Event H) (List String)

abbrev Hosts (H : Type) := Pool (Fleet H) (Listing H)

def step (locality hostId : String) : Act H → Hosts H → Hosts H :=
  Pool.step (Fleet.event locality hostId) Listing.move

/-- The host is about to start, over whatever Redis holds. -/
def Hosts.start (redis : TypedKeyspace H) : Hosts H := ⟨⟨redis, .starts⟩, []⟩

/-- The actions of every run: calls begin at their beginning, and no other host sets the keepalive key of
this one. -/
def Interleaved (locality hostId : String) (_ : Hosts H) : Act H → Prop
  | .env (.otherSets l id _) => metadataHostKeepAlive l id ≠ metadataHostKeepAlive locality hostId
  | .env _ => True
  | .spawn l => ∃ locality, l = ⟨locality, [], .members⟩
  | .move _ _ => True

/-- The host's keepalive key is there. -/
def Fleet.Alive (locality hostId : String) (s : Fleet H) : Prop :=
  (s.redis.strings (metadataHostKeepAlive locality hostId)).isSome = true

def Fleet.Listed (locality hostId : String) (s : Fleet H) : Prop :=
  hostId ∈ s.redis.sets (metadataHostIndex locality)

/-- The host's latest round is complete and its keepalive key has not expired since; then it is in the index. -/
def Discoverable (locality hostId : String) (s : Fleet H) : Prop :=
  s.beat = .idle → s.Alive locality hostId → s.Listed locality hostId

/-- The next command of the call removes the host. -/
inductive Removes (locality hostId : String) : Listing H → Prop where
  | remove (hosts : List H) (rest : List String) : Removes locality hostId ⟨locality, hosts, .remove hostId rest⟩
  | callback (hosts : List H) (rest : List String) : Removes locality hostId ⟨locality, hosts, .callback hostId rest⟩

/-- A removal does no harm: the host is not about to set its keepalive key after it has added itself, and
the key is not there, unless the host is in its first round. -/
def MayRemove (locality hostId : String) (s : Fleet H) : Prop :=
  s.beat ≠ .added ∧ (s.Alive locality hostId → s.beat = .starts ∨ s.beat = .startsSet)

/-- The actions of a run in which the host is removed only where that does no harm. -/
def RemovesAbsent (locality hostId : String) (p : Hosts H) (a : Act H) : Prop :=
  Interleaved locality hostId p a ∧
    ∀ t order l, a = .move t order → p.threads[t]? = some l → Removes locality hostId l →
      MayRemove locality hostId p.shared

/-! ## What the commands do to one host -/

section

variable {locality hostId : String}

theorem metadataHostIndex_injective {l l' : String} (same : metadataHostIndex l = metadataHostIndex l') : l = l' :=
  (String.append_right_inj _).mp same

theorem mem_addHostToIndex_iff {r : TypedKeyspace H} {l id : String} :
    hostId ∈ (addHostToIndex r l id).sets (metadataHostIndex locality) ↔
      hostId ∈ r.sets (metadataHostIndex locality) ∨ locality = l ∧ hostId = id := by
  rw [addHostToIndex, TypedKeyspace.mem_sadd_iff]
  exact or_congr_right (and_congr_left fun _ => ⟨metadataHostIndex_injective, congrArg _⟩)

theorem mem_removeHostFromIndex_iff {r : TypedKeyspace H} {l id : String} :
    hostId ∈ (removeHostFromIndex r l id).sets (metadataHostIndex locality) ↔
      hostId ∈ r.sets (metadataHostIndex locality) ∧ ¬ (locality = l ∧ hostId = id) := by
  rw [removeHostFromIndex, TypedKeyspace.mem_srem_iff]
  exact and_congr_right fun _ => not_congr (and_congr_left fun _ => ⟨metadataHostIndex_injective, congrArg _⟩)

/-! ## The invariant -/

/-- What holds between two commands. -/
structure Kept (locality hostId : String) (s : Fleet H) : Prop where
  idle : Discoverable locality hostId s
  added : s.beat = .added → s.Listed locality hostId

theorem Kept.start (redis : TypedKeyspace H) : Kept locality hostId (Hosts.start redis).shared :=
  ⟨fun pc => (by cases pc), fun pc => by cases pc⟩

/-- A command that keeps the host in the index if it is there, and does not set its keepalive key. -/
theorem Kept.of_redis {s : Fleet H} {r : TypedKeyspace H} (h : Kept locality hostId s)
    (listed : s.Listed locality hostId → hostId ∈ r.sets (metadataHostIndex locality))
    (alive : (r.strings (metadataHostKeepAlive locality hostId)).isSome = true → s.Alive locality hostId) :
    Kept locality hostId { s with redis := r } :=
  ⟨fun pc present => listed (h.idle pc (alive present)), fun pc => listed (h.added pc)⟩

theorem Kept.beat {s : Fleet H} (h : Kept locality hostId s) (host : H) :
    Kept locality hostId (hostKeepAlive locality hostId host s) := by
  cases pc : s.beat with
  | starts =>
    simp only [hostKeepAlive, pc]
    exact ⟨fun pc => (by cases pc), fun pc => by cases pc⟩
  | startsSet =>
    simp only [hostKeepAlive, pc]
    exact ⟨fun _ _ => mem_addHostToIndex_iff.mpr (.inr ⟨rfl, rfl⟩), fun pc => by cases pc⟩
  | idle =>
    simp only [hostKeepAlive, pc]
    exact ⟨fun pc => (by cases pc), fun _ => mem_addHostToIndex_iff.mpr (.inr ⟨rfl, rfl⟩)⟩
  | added =>
    simp only [hostKeepAlive, pc]
    exact ⟨fun _ _ => h.added pc, fun pc => by cases pc⟩

theorem Kept.event {s : Fleet H} (h : Kept locality hostId s) {e : Event H} {p : Hosts H}
    (admitted : Interleaved locality hostId p (.env e)) : Kept locality hostId (s.event locality hostId e) := by
  cases e with
  | beat host => exact h.beat host
  | expire key =>
    refine h.of_redis id fun present => ?_
    by_cases same : metadataHostKeepAlive locality hostId = key
    · rw [same, TypedKeyspace.set_self] at present
      cases present
    · rwa [TypedKeyspace.set_other _ _ same] at present
  | otherAdds l id =>
    exact h.of_redis (fun listed => mem_addHostToIndex_iff.mpr (.inl listed)) fun present => present
  | otherSets l id host =>
    refine h.of_redis (fun listed => listed) fun present => ?_
    rwa [setHostKeepAlive, TypedKeyspace.set_other _ _ (Ne.symm admitted)] at present

/-- A removal of the host, where it does no harm, or of another one. -/
theorem Kept.removal {s : Fleet H} (h : Kept locality hostId s) {l id : String}
    (harmless : l = locality → id = hostId → MayRemove locality hostId s) :
    Kept locality hostId { s with redis := removeHostFromIndex s.redis l id } := by
  by_cases this : locality = l ∧ hostId = id
  · obtain ⟨notAdded, first⟩ := harmless this.1.symm this.2.symm
    refine ⟨fun pc present => ?_, fun pc => absurd pc notAdded⟩
    have idle : s.beat = .idle := pc
    rcases first present with starts | starts
    · rw [idle] at starts
      cases starts
    · rw [idle] at starts
      cases starts
  · exact h.of_redis (fun listed => mem_removeHostFromIndex_iff.mpr ⟨listed, this⟩) fun present => present

theorem Kept.move {s : Fleet H} (h : Kept locality hostId s) {l : Listing H} (order : List String)
    (harmless : Removes locality hostId l → MayRemove locality hostId s) :
    Kept locality hostId (l.move order s).1 := by
  rcases l with ⟨l, hosts, pc⟩
  cases pc with
  | members => exact h
  | get id rest =>
    simp only [Listing.move]
    split
    · exact h
    · exact h
  | remove id rest =>
    refine h.removal fun sameLocality sameId => harmless ?_
    subst sameLocality sameId
    exact .remove hosts rest
  | callback id rest =>
    refine h.removal fun sameLocality sameId => harmless ?_
    subst sameLocality sameId
    exact .callback hosts rest
  | done answer => exact h

/-- **A beating host stays discoverable**, in every run in which it is removed only where that does no
harm. -/
theorem beating_host_listed {redis : TypedKeyspace H} {p : Hosts H}
    (run : Trace (step locality hostId) (RemovesAbsent locality hostId) (Hosts.start redis) p) :
    Discoverable locality hostId p.shared := by
  refine (Pool.invariant (L := fun _ => True) ?_ (fun _ _ _ => trivial) ?_ run (Kept.start redis)
    fun _ _ => trivial).1.idle
  · exact fun q e admitted h => h.event admitted.1
  · intro q t order l admitted found h _
    exact ⟨h.move order (admitted.2 t order l rfl found), trivial⟩

end

/-- The host starts, its key expires, and a call reads the index and misses the key. -/
def missed : List (Act Nat) :=
  [.env (.beat 0), .env (.beat 0), .env (.expire (metadataHostKeepAlive "l" "h")), .spawn ⟨"l", [], .members⟩,
    .move 0 [], .move 0 []]

/-- The call removes the host before its next round. -/
def cleansUp : List (Act Nat) := missed ++ [.move 0 [], .move 0 [], .env (.beat 1), .env (.beat 1)]

/-- The next round is complete before the call removes the host. -/
def cleansUpLate : List (Act Nat) := missed ++ [.env (.beat 1), .env (.beat 1), .move 0 []]

instance (locality hostId : String) (s : Fleet H) : Decidable (s.Alive locality hostId) :=
  inferInstanceAs (Decidable (_ = true))

instance (locality hostId : String) (s : Fleet H) : Decidable (s.Listed locality hostId) :=
  inferInstanceAs (Decidable (_ ∈ _))

instance (locality hostId : String) (s : Fleet H) : Decidable (MayRemove locality hostId s) :=
  inferInstanceAs (Decidable (_ ∧ (_ → _ ∨ _)))

/-- The actions that these runs consist of. -/
def Plain : Act Nat → Prop
  | .env (.otherSets _ _ _) => False
  | .env _ => True
  | .spawn l => l = ⟨"l", [], .members⟩
  | .move _ _ => True

def isMove : Act Nat → Bool
  | .move _ _ => true
  | _ => false

theorem Plain.interleaved {a : Act Nat} (plain : Plain a) (p : Hosts Nat) : Interleaved "l" "h" p a := by
  rcases a with e | l | ⟨t, order⟩
  · cases e with
    | otherSets l id host => exact plain.elim
    | _ => trivial
  · exact ⟨"l", plain⟩
  · trivial

def cleanedUp : Hosts Nat := after (step "l" "h") cleansUp (Hosts.start .empty)

theorem beating_host_listed_again : cleanedUp.shared.Alive "l" "h" ∧ cleanedUp.shared.Listed "l" "h" := by
  have run : Trace (step "l" "h") (RemovesAbsent "l" "h") (Hosts.start .empty) cleanedUp := by
    have plain : ∀ a ∈ cleansUp, Plain a := by simp [cleansUp, missed, Plain]
    have harmless : ∀ k : Fin cleansUp.length, isMove (cleansUp.get k) = true →
        MayRemove "l" "h" (after (step "l" "h") (cleansUp.take k) (Hosts.start .empty)).shared := by decide
    refine Trace.of_list cleansUp _ fun k => ⟨(plain _ (List.get_mem _ _)).interleaved _, fun t order l here _ _ => ?_⟩
    exact harmless k (by rw [here]; rfl)
  exact ⟨by decide, beating_host_listed run (by decide) (by decide)⟩

def cleanedUpLate : Hosts Nat := after (step "l" "h") cleansUpLate (Hosts.start .empty)

/-- A host whose latest round is complete and whose key is there is not in the index. -/
theorem beating_host_removed :
    Trace (step "l" "h") (Interleaved "l" "h") (Hosts.start .empty) cleanedUpLate ∧
      cleanedUpLate.shared.beat = .idle ∧ cleanedUpLate.shared.Alive "l" "h" ∧
      ¬ cleanedUpLate.shared.Listed "l" "h" := by
  refine ⟨Trace.of_list cleansUpLate _ fun k => ?_, by decide, by decide, by decide⟩
  have plain : ∀ a ∈ cleansUpLate, Plain a := by simp [cleansUpLate, missed, Plain]
  exact (plain _ (List.get_mem _ _)).interleaved _

end Blobcache.Coordinator.HostIndex
