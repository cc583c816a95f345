import Blobcache.Server.Content
import Blobcache.Storage.EndOfObject

/-!
# Choosing a host

`client.go`: `getGRPCClient` and `IsCachedNearby`. A client ranks the hosts of a routing key
with a rendezvous hasher and keeps, for each hash it has asked for, the host it asked. The
hasher is the library assumed here: it ranks the members, the same way for the same key.
The gRPC client of a host is named by the host's id.

`IsCachedNearby` runs through the indexes of the best hosts, but `getGRPCClient` looks at
the index only when the hash has no host yet, and then gives it one. So every round asks
the same host.
-/

namespace Blobcache.Client
set_option autoImplicit false
open Server Storage

structure BlobCacheHost where
  hostId : String
  deriving DecidableEq, Repr

/-- The errors of `errors.go` that the client returns, and the errors of its calls. -/
inductive ClientError where
  | hostNotFound
  | contentNotFound
  | unableToPopulateContent
  | unableToAcquireLock
  | rpc (status : Status)
  deriving DecidableEq, Repr

def ClientError.text : ClientError → String
  | .hostNotFound => "host not found"
  | .contentNotFound => "content not found"
  | .unableToPopulateContent => "unable to populate content from original source"
  | .unableToAcquireLock => "unable to acquire lock"
  | .rpc status => status.message

structure RendezvousHasher where
  members : List BlobCacheHost
  ranking : String → List BlobCacheHost
  nodup : members.Nodup
  ranks : ∀ key, (ranking key).Perm members

/-- `GetN`. -/
def RendezvousHasher.getN (hasher : RendezvousHasher) (n : Int) (key : String) : List BlobCacheHost :=
  (hasher.ranking key).take n.toNat

/-- What the client reads of its configuration. `NewBlobCacheClient` makes at least one
attempt out of any number. -/
structure ClientConfig where
  nTopHosts : Int
  minRetryLengthBytes : Int
  maxGetContentAttempts : Int
  attempts_pos : 1 ≤ maxGetContentAttempts

structure BlobCacheClient where
  config : ClientConfig
  hasher : RendezvousHasher
  /-- The ids of the hosts that have a gRPC client. -/
  grpcClients : Finset String
  localHostCache : String → Option BlobCacheHost

inductive ClientRequestType where
  | storage
  | retrieval
  deriving DecidableEq, Repr

structure ClientRequest where
  rt : ClientRequestType
  hash : String
  key : String
  hostIndex : Nat

namespace BlobCacheClient

def topHosts (c : BlobCacheClient) (key : String) : List BlobCacheHost := c.hasher.getN c.config.nTopHosts key

/-- `hosts[min(hostIndex, len(hosts)-1)]`, and `nil` of no hosts. -/
def nthHost (hosts : List BlobCacheHost) (hostIndex : Nat) : Option BlobCacheHost :=
  hosts[min hostIndex (hosts.length - 1)]?

/-- `delete(c.localHostCache, hash)`. -/
def forget (c : BlobCacheClient) (hash : String) : BlobCacheClient :=
  { c with localHostCache := Function.update c.localHostCache hash none }

def remember (c : BlobCacheClient) (hash : String) (host : BlobCacheHost) : BlobCacheClient :=
  { c with localHostCache := Function.update c.localHostCache hash (some host) }

@[simp] theorem forget_self (c : BlobCacheClient) (hash : String) : (c.forget hash).localHostCache hash = none :=
  Function.update_self ..

theorem forget_other (c : BlobCacheClient) {hash hash' : String} (other : hash' ≠ hash) :
    (c.forget hash).localHostCache hash' = c.localHostCache hash' :=
  Function.update_of_ne other ..

@[simp] theorem remember_self (c : BlobCacheClient) (hash : String) (host : BlobCacheHost) :
    (c.remember hash host).localHostCache hash = some host :=
  Function.update_self ..

theorem remember_other (c : BlobCacheClient) {hash hash' : String} (host : BlobCacheHost) (other : hash' ≠ hash) :
    (c.remember hash host).localHostCache hash' = c.localHostCache hash' :=
  Function.update_of_ne other ..

/-- The host of a request. The index counts only for a hash that has none yet. -/
def chooseHost (c : BlobCacheClient) (request : ClientRequest) : BlobCacheClient × Option BlobCacheHost :=
  match request.rt with
  | .storage => (c, nthHost (c.topHosts request.key) request.hostIndex)
  | .retrieval =>
    match c.localHostCache request.hash with
    | some cachedHost => (c, some cachedHost)
    | none =>
      match nthHost (c.topHosts request.key) request.hostIndex with
      | none => (c, none)
      | some host => (c.remember request.hash host, some host)

def getGRPCClient (c : BlobCacheClient) (request : ClientRequest) :
    BlobCacheClient × Except ClientError BlobCacheHost :=
  match c.chooseHost request with
  | (c, none) => (c, .error .hostNotFound)
  | (c, some host) =>
    if host.hostId ∈ c.grpcClients then (c, .ok host)
    else (c.forget request.hash, .error .hostNotFound)

/-- What the hosts answer to `HasContent`. -/
abbrev Answers := (hostId hash : String) → Except Status HasContentResponse

/-- The loop of `IsCachedNearby`, from one host index on. -/
def askFrom (answers : Answers) (hash routingKey : String) :
    (remaining hostIndex : Nat) → BlobCacheClient → BlobCacheClient × Except ClientError Bool
  | 0, _, c => (c, .ok false)
  | remaining + 1, hostIndex, c =>
    match c.getGRPCClient ⟨.retrieval, hash, routingKey, hostIndex⟩ with
    | (c, .error e) => (c, .error e)
    | (c, .ok host) =>
      match answers host.hostId hash with
      | .error status => (c, .error (.rpc status))
      | .ok resp =>
        if resp.found then (c, .ok true) else askFrom answers hash routingKey remaining (hostIndex + 1) c

def isCachedNearby (answers : Answers) (c : BlobCacheClient) (hash routingKey : String) :
    BlobCacheClient × Except ClientError Bool :=
  askFrom answers hash routingKey c.config.nTopHosts.toNat 0 c

/-! ## One host is asked -/

/-- The host that a read of the hash is sent to first. -/
def firstChoice (c : BlobCacheClient) (hash routingKey : String) : Option BlobCacheHost :=
  (c.localHostCache hash).or (c.topHosts routingKey).head?

/-- A host with a client, once remembered, is asked in every round left. -/
theorem askFrom_remembered {answers : Answers} {c : BlobCacheClient} {hash : String} {host : BlobCacheHost}
    {resp : HasContentResponse} (remembered : c.localHostCache hash = some host)
    (connected : host.hostId ∈ c.grpcClients) (answer : answers host.hostId hash = .ok resp)
    (routingKey : String) (remaining hostIndex : Nat) :
    askFrom answers hash routingKey remaining hostIndex c = (c, .ok (decide (0 < remaining) && resp.found)) := by
  have routed (i : Nat) : c.getGRPCClient ⟨.retrieval, hash, routingKey, i⟩ = (c, .ok host) := by
    simp only [getGRPCClient, chooseHost, remembered, if_pos connected]
  induction remaining generalizing hostIndex with
  | zero => simp [askFrom]
  | succ remaining ih =>
    simp only [askFrom, routed, answer, ih]
    cases resp.found <;> simp

/-- A request for the first host goes to the first choice, which is then remembered. -/
theorem chooseHost_first (c : BlobCacheClient) (hash routingKey : String) :
    ∃ c', c.chooseHost ⟨.retrieval, hash, routingKey, 0⟩ = (c', c.firstChoice hash routingKey) ∧
      c'.grpcClients = c.grpcClients ∧
      ∀ host, c.firstChoice hash routingKey = some host → c'.localHostCache hash = some host := by
  simp only [chooseHost, firstChoice, nthHost, Nat.zero_min, ← List.head?_eq_getElem?]
  cases remembered : c.localHostCache hash with
  | some host => exact ⟨c, rfl, rfl, fun _ same => remembered.trans same⟩
  | none =>
    cases best : (c.topHosts routingKey).head? with
    | none => exact ⟨c, rfl, rfl, fun _ same => by cases same⟩
    | some host => exact ⟨c.remember hash host, rfl, rfl, fun _ same => (c.remember_self hash host).trans same⟩

/-- Every host answers `HasContent` from its storage. -/
def answering (hosts : String → Cas) : Answers := fun hostId hash => .ok (hasContent (hosts hostId) hash)

/-- The client has a connection to its first choice, and the host has the hash. -/
def FirstChoiceHas (c : BlobCacheClient) (hosts : String → Cas) (hash routingKey : String) : Prop :=
  ∃ host, c.firstChoice hash routingKey = some host ∧ host.hostId ∈ c.grpcClients ∧
    (hosts host.hostId).existsObject hash

/-- `IsCachedNearby` finds what the first choice has, unless it checks no host at all. -/
theorem isCachedNearby_asks_first (c : BlobCacheClient) (hosts : String → Cas) (hash routingKey : String) :
    (c.isCachedNearby (answering hosts) hash routingKey).2 = .ok true ↔
      0 < c.config.nTopHosts ∧ c.FirstChoiceHas hosts hash routingKey := by
  unfold isCachedNearby
  cases rounds : c.config.nTopHosts.toNat with
  | zero =>
    have none : ¬ 0 < c.config.nTopHosts := by omega
    simp [askFrom, none]
  | succ remaining =>
    have some : 0 < c.config.nTopHosts := by omega
    obtain ⟨c', chosen, sameClients, remembered⟩ := c.chooseHost_first hash routingKey
    simp only [askFrom, getGRPCClient, chosen, FirstChoiceHas, some, true_and]
    cases first : c.firstChoice hash routingKey with
    | none => simp
    | some host =>
      by_cases connected : host.hostId ∈ c'.grpcClients
      · have answer : answering hosts host.hostId hash = .ok (hasContent (hosts host.hostId) hash) := rfl
        simp only [if_pos connected, answer,
          askFrom_remembered (remembered host first) connected answer routingKey remaining]
        rw [sameClients] at connected
        cases found : (hosts host.hostId).existsObject hash <;> simp [hasContent, found, connected]
      · simp only [if_neg connected]
        rw [sameClients] at connected
        simp [connected]

/-- The first choice speaks for the best hosts: it has the hash when one of them has, and a
host remembered from an earlier call does not stand alone with the hash. -/
structure FirstChoiceDecides (c : BlobCacheClient) (hosts : String → Cas) (hash routingKey : String) : Prop where
  misses_none : ∀ host ∈ c.topHosts routingKey, (hosts host.hostId).existsObject hash →
    c.FirstChoiceHas hosts hash routingKey
  strays_never : 0 < c.config.nTopHosts → ∀ host, c.localHostCache hash = some host → host.hostId ∈ c.grpcClients →
    (hosts host.hostId).existsObject hash →
    ∃ best ∈ c.topHosts routingKey, (hosts best.hostId).existsObject hash

theorem topHosts_pos {c : BlobCacheClient} {routingKey : String} {host : BlobCacheHost}
    (member : host ∈ c.topHosts routingKey) : 0 < c.config.nTopHosts := by
  by_contra none
  have zero : c.config.nTopHosts.toNat = 0 := by omega
  rw [topHosts, RendezvousHasher.getN, zero, List.take_zero] at member
  cases member

/-- **When `IsCachedNearby` is right.** It finds the hash just in case one of the best hosts
of the routing key has it, exactly when the first choice speaks for them. -/
theorem isCachedNearby_right_iff (c : BlobCacheClient) (hosts : String → Cas) (hash routingKey : String) :
    ((c.isCachedNearby (answering hosts) hash routingKey).2 = .ok true ↔
      ∃ host ∈ c.topHosts routingKey, (hosts host.hostId).existsObject hash) ↔
    c.FirstChoiceDecides hosts hash routingKey := by
  rw [isCachedNearby_asks_first]
  constructor
  · intro right
    constructor
    · intro host member has
      exact (right.mpr ⟨host, member, has⟩).2
    · intro checks host remembered connected has
      have first : c.firstChoice hash routingKey = some host := by rw [firstChoice, remembered, Option.some_or]
      exact right.mp ⟨checks, host, first, connected, has⟩
  · rintro ⟨misses_none, strays_never⟩
    constructor
    · rintro ⟨checks, host, first, connected, has⟩
      cases remembered : c.localHostCache hash with
      | some cached =>
        rw [firstChoice, remembered, Option.some_or] at first
        cases first
        exact strays_never checks host remembered connected has
      | none =>
        rw [firstChoice, remembered, Option.none_or] at first
        exact ⟨host, List.mem_of_mem_head? first, has⟩
    · rintro ⟨host, member, has⟩
      exact ⟨topHosts_pos member, misses_none host member has⟩

/-- A new client of two hosts that it both checks. -/
def ofTwoHosts : BlobCacheClient where
  config := ⟨2, 0, 3, by decide⟩
  hasher := ⟨[⟨"a"⟩, ⟨"b"⟩], fun _ => [⟨"a"⟩, ⟨"b"⟩], by decide, fun _ => .refl _⟩
  grpcClients := {"a", "b"}
  localHostCache := fun _ => none

/-- An object was stored on the host `b`. -/
def storedOnSecond : String → Cas := fun hostId =>
  if hostId = "b" then (Op.add "h" [7] quietStore).step oneBytePages Cas.fresh else Cas.fresh

theorem second_host_not_asked :
    (ofTwoHosts.isCachedNearby (answering storedOnSecond) "h" "h").2 = .ok false ∧
      ∃ host ∈ ofTwoHosts.topHosts "h", (storedOnSecond host.hostId).existsObject "h" :=
  ⟨by decide, ⟨"b"⟩, by decide, by decide⟩

end BlobCacheClient

end Blobcache.Client
