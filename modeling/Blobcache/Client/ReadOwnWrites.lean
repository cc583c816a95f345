import Blobcache.Server.RoundTrip
import Blobcache.Client.GetContent

/-!
# Reading what was stored

`client.go`: `StoreContent` sends the content to the first host of the routing key;
`GetContent` asks the host remembered for the hash first. The hosts here always answer and
keep what they are given, so all depends on the host that is remembered: it may be one that
never had the content, left there by a call with another routing key.
-/

namespace Blobcache.Client
set_option autoImplicit false
open Execution Server Storage

/-- The range asked for lies inside the object. -/
structure Inside (req : GetContentRequest) (object : Bytes) : Prop where
  offset : 0 ≤ req.offset
  length : 0 ≤ req.length
  fits : req.offset + req.length ≤ object.length

/-- How a host answers reads, by the object it has under the hash, if any. What it answers
outside an object is left open. -/
structure HostAnswers where
  get : Option Bytes → GetContentRequest → Except Status GetContentResponse
  stream : Option Bytes → GetContentRequest → Except Status ServerStream
  get_inside : ∀ object req, Inside req object → get (some object) req = .ok ⟨rangeOf req object, true⟩
  /-- The storage is not looked at for an empty range. -/
  get_empty : ∀ held req, req.length = 0 → get held req = .ok ⟨[], true⟩
  get_missing : ∀ req, req.length ≠ 0 → contentIn (get none req) = none
  stream_empty : ∀ held req, req.length ≤ 0 → stream held req = .ok ⟨[], .eof⟩
  stream_missing : ∀ req sent, 0 < req.length → stream none req = .ok sent →
    (receivePieces sent.messages sent.ending).2 = false

/-- A client, and the objects its hosts have. -/
structure Cluster where
  client : BlobCacheClient
  objects : (hostId hash : String) → Option Bytes

inductive ClusterCall where
  | getContent (req : GetContentRequest) (routingKey : String)
  | getContentStream (req : GetContentRequest) (routingKey : String)
  | isCachedNearby (hash routingKey : String)
  | storeContent (chunks : List Bytes) (hash routingKey : String)
  | expire (hash : String)

namespace Cluster

def responses (hosts : HostAnswers) (cl : Cluster) : Responses := fun _ hostId req =>
  hosts.get (cl.objects hostId req.hash) req

def streams (hosts : HostAnswers) (cl : Cluster) : Streams := fun _ hostId req =>
  hosts.stream (cl.objects hostId req.hash) req

def answers (cl : Cluster) : BlobCacheClient.Answers := fun hostId hash =>
  .ok ⟨(cl.objects hostId hash).isSome, true⟩

def getContent (hosts : HostAnswers) (cl : Cluster) (req : GetContentRequest) (routingKey : String) : Retrieval :=
  cl.client.getContent (cl.responses hosts) req routingKey

/-- The routing key of `StoreContent`, as `GetContent` has it. -/
def storeKey (hash routingKey : String) : String := if routingKey = "" then hash else routingKey

def putObject (objects : (hostId hash : String) → Option Bytes) (hostId hash : String) (object : Bytes) :
    (hostId hash : String) → Option Bytes :=
  fun hostId' hash' => if hostId' = hostId ∧ hash' = hash then some object else objects hostId' hash'

/-- `StoreContent`: the host keeps the content under the hash it computes, and returns it. -/
def storeContent (sha256 : Bytes → Digest) (cl : Cluster) (chunks : List Bytes) (hash routingKey : String) :
    Cluster × Except ClientError String :=
  match cl.client.getGRPCClient ⟨.storage, hash, storeKey hash routingKey, 0⟩ with
  | (client, .error e) => ({ cl with client := client }, .error e)
  | (client, .ok host) =>
    let content := chunks.flatten
    let stored := contentHash sha256 content
    (⟨client, putObject cl.objects host.hostId stored content⟩, .ok stored)

def step (hosts : HostAnswers) (sha256 : Bytes → Digest) (request : ClusterCall) (cl : Cluster) : Cluster :=
  match request with
  | .getContent req routingKey => { cl with client := (cl.getContent hosts req routingKey).client }
  | .getContentStream req routingKey =>
    { cl with client := (cl.client.getContentStream (cl.streams hosts) req routingKey).1 }
  | .isCachedNearby hash routingKey => { cl with client := (cl.client.isCachedNearby cl.answers hash routingKey).1 }
  | .storeContent chunks hash routingKey => (cl.storeContent sha256 chunks hash routingKey).1
  | .expire hash => { cl with client := cl.client.forget hash }

/-- The call as the client sees it. -/
def clientCall (hosts : HostAnswers) (cl : Cluster) : ClusterCall → ClientCall
  | .getContent req routingKey => .getContent (cl.responses hosts) req routingKey
  | .getContentStream req routingKey => .getContentStream (cl.streams hosts) req routingKey
  | .isCachedNearby hash routingKey => .isCachedNearby cl.answers hash routingKey
  | .storeContent _ hash routingKey => .store hash (storeKey hash routingKey)
  | .expire hash => .expire hash

theorem storeContent_client (sha256 : Bytes → Digest) (cl : Cluster) (chunks : List Bytes) (hash routingKey : String) :
    (cl.storeContent sha256 chunks hash routingKey).1.client =
      cl.client.call (.store hash (storeKey hash routingKey)) := by
  simp only [storeContent, BlobCacheClient.call]
  split <;> simp [*]

theorem step_client (hosts : HostAnswers) (sha256 : Bytes → Digest) (request : ClusterCall) (cl : Cluster) :
    (cl.step hosts sha256 request).client = cl.client.call (cl.clientCall hosts request) := by
  cases request with
  | storeContent chunks hash routingKey => exact storeContent_client ..
  | _ => rfl

end Cluster

/-! ## What the hosts keep -/

section

variable {sha256 : Bytes → Digest} {contents : Set Bytes} {hosts : HostAnswers}

/-- Every object is one of the contents, under its hash. -/
def Cluster.Addressed (sha256 : Bytes → Digest) (contents : Set Bytes) (cl : Cluster) : Prop :=
  ∀ hostId hash object, cl.objects hostId hash = some object → object ∈ contents ∧ contentHash sha256 object = hash

/-- What is stored is one of the contents. -/
def StoresContents (contents : Set Bytes) (_ : Cluster) : ClusterCall → Prop
  | .storeContent chunks _ _ => chunks.flatten ∈ contents
  | _ => True

theorem contentHash_injOn (noCollisions : Set.InjOn sha256 contents) : Set.InjOn (contentHash sha256) contents := by
  intro a inA b inB same
  exact noCollisions inA inB (Subtype.ext (Hex.encodeToString_injective same))

namespace Cluster

/-- What `StoreContent` does to the objects. -/
theorem storeContent_cases (sha256 : Bytes → Digest) (cl : Cluster) (chunks : List Bytes) (hash routingKey : String) :
    (cl.storeContent sha256 chunks hash routingKey).1.objects = cl.objects ∧
      (∃ e, (cl.storeContent sha256 chunks hash routingKey).2 = .error e) ∨
    ∃ host, (cl.client.topHosts (storeKey hash routingKey)).head? = some host ∧
      (cl.storeContent sha256 chunks hash routingKey).1.objects =
        putObject cl.objects host.hostId (contentHash sha256 chunks.flatten) chunks.flatten ∧
      (cl.storeContent sha256 chunks hash routingKey).2 = .ok (contentHash sha256 chunks.flatten) := by
  simp only [storeContent, BlobCacheClient.getGRPCClient, BlobCacheClient.chooseHost, BlobCacheClient.nthHost,
    Nat.zero_min, ← List.head?_eq_getElem?]
  cases best : (cl.client.topHosts (storeKey hash routingKey)).head? with
  | none => exact .inl ⟨rfl, _, rfl⟩
  | some host =>
    by_cases connected : host.hostId ∈ cl.client.grpcClients
    · simp only [if_pos connected]
      exact .inr ⟨host, rfl, rfl, trivial⟩
    · simp only [if_neg connected]
      exact .inl ⟨trivial, _, rfl⟩

theorem Addressed.storeContent {cl : Cluster} (h : cl.Addressed sha256 contents) {chunks : List Bytes}
    (member : chunks.flatten ∈ contents) (hash routingKey : String) :
    (cl.storeContent sha256 chunks hash routingKey).1.Addressed sha256 contents := by
  intro hostId hash' object found
  rcases cl.storeContent_cases sha256 chunks hash routingKey with ⟨same, -⟩ | ⟨host, -, stored, -⟩
  · rw [same] at found
    exact h hostId hash' object found
  · rw [stored, putObject] at found
    split at found
    · rename_i here
      cases found
      exact ⟨member, here.2.symm⟩
    · exact h hostId hash' object found

/-- An object stays, also when its content is stored again. -/
theorem storeContent_keeps (noCollisions : Set.InjOn sha256 contents) {cl : Cluster}
    (addressed : cl.Addressed sha256 contents) {hostId hash : String} {object : Bytes}
    (held : cl.objects hostId hash = some object) {chunks : List Bytes} (member : chunks.flatten ∈ contents)
    (hash' routingKey : String) :
    (cl.storeContent sha256 chunks hash' routingKey).1.objects hostId hash = some object := by
  rcases cl.storeContent_cases sha256 chunks hash' routingKey with ⟨same, -⟩ | ⟨host, -, stored, -⟩
  · rw [same, held]
  · rw [stored, putObject]
    split
    · rename_i here
      obtain ⟨inside, addr⟩ := addressed _ hash object held
      rw [contentHash_injOn noCollisions member inside (here.2.symm.trans addr.symm)]
    · exact held

/-- What every run keeps: the objects are the contents under their hashes, and of the client
only the host cache has changed. -/
structure Sound (sha256 : Bytes → Digest) (contents : Set Bytes) (c₀ : BlobCacheClient) (cl : Cluster) : Prop where
  addressed : cl.Addressed sha256 contents
  routed : c₀.Routed cl.client

variable {c₀ : BlobCacheClient} {cl cl' : Cluster}

theorem Sound.storeContent (h : Sound sha256 contents c₀ cl) {chunks : List Bytes} (member : chunks.flatten ∈ contents)
    (hash routingKey : String) : Sound sha256 contents c₀ (cl.storeContent sha256 chunks hash routingKey).1 := by
  refine ⟨h.addressed.storeContent member hash routingKey, ?_⟩
  rw [storeContent_client]
  exact h.routed.call _

theorem Sound.step (h : Sound sha256 contents c₀ cl) {request : ClusterCall} (stores : StoresContents contents cl request) :
    Sound sha256 contents c₀ (cl.step hosts sha256 request) := by
  cases request with
  | storeContent chunks hash routingKey => exact h.storeContent stores hash routingKey
  | _ =>
    refine ⟨h.addressed, ?_⟩
    rw [step_client]
    exact h.routed.call _

theorem Sound.run (run : Trace (Cluster.step hosts sha256) (StoresContents contents) cl cl')
    (start : Sound sha256 contents c₀ cl) : Sound sha256 contents c₀ cl' :=
  run.invariant (fun _ _ h stores => h.step stores) start

/-- No call takes an object away. -/
theorem Sound.keeps (noCollisions : Set.InjOn sha256 contents)
    (run : Trace (Cluster.step hosts sha256) (StoresContents contents) cl cl') (start : Sound sha256 contents c₀ cl)
    {hostId hash : String} {object : Bytes} (held : cl.objects hostId hash = some object) :
    cl'.objects hostId hash = some object := by
  refine (run.invariant (I := fun cl => Sound sha256 contents c₀ cl ∧ cl.objects hostId hash = some object)
    ?_ ⟨start, held⟩).2
  rintro cl request ⟨sound, held⟩ stores
  refine ⟨sound.step stores, ?_⟩
  cases request with
  | storeContent chunks hash' routingKey =>
    exact storeContent_keeps noCollisions sound.addressed held stores hash' routingKey
  | _ => exact held

end Cluster

/-! ## When a read finds what was stored -/

/-- A host that has the object, or any host if the range is empty, answers with the range. -/
theorem contentIn_get {held : Option Bytes} {object : Bytes} {req : GetContentRequest} (inside : Inside req object)
    (only : ∀ other, held = some other → other = object) :
    contentIn (hosts.get held req) = if req.length = 0 ∨ held.isSome then some (rangeOf req object) else none := by
  by_cases empty : req.length = 0
  · have nothing : rangeOf req object = [] := by simp [rangeOf, empty]
    rw [hosts.get_empty held req empty, if_pos (.inl empty), nothing]
    rfl
  · cases held with
    | none => rw [hosts.get_missing req empty, if_neg (by simp [empty])]
    | some other =>
      cases only other rfl
      rw [hosts.get_inside _ req inside, if_pos (.inr rfl)]
      rfl

namespace Cluster

/-- The read is empty, or no host is remembered for the hash, or the one remembered has the
object, or a later attempt comes to a host that has it. -/
def ComesToHolder (cl : Cluster) (req : GetContentRequest) (routingKey : String) : Prop :=
  req.length = 0 ∨
  (∀ host, cl.client.localHostCache req.hash = some host → (cl.objects host.hostId req.hash).isSome) ∨
  cl.client.config.minRetryLengthBytes < req.length ∧
    ∃ i host, i ≠ 0 ∧ i < cl.client.config.maxGetContentAttempts.toNat ∧
      BlobCacheClient.nthHost (cl.client.topHosts (BlobCacheClient.keyOf req routingKey)) i = some host ∧
      (cl.objects host.hostId req.hash).isSome

section

variable {cl : Cluster} {req : GetContentRequest} {routingKey : String} {best : BlobCacheHost}

theorem maxAttempts_pos (c : BlobCacheClient) (length : Int) : 0 < c.maxAttempts length := by
  have positive := c.config.attempts_pos
  unfold BlobCacheClient.maxAttempts
  split <;> omega

/-- In other words, one of the attempts is for a host that has the object. -/
theorem comesToHolder_iff (best : BlobCacheHost)
    (first : (cl.client.topHosts (BlobCacheClient.keyOf req routingKey)).head? = some best)
    (held : (cl.objects best.hostId req.hash).isSome) :
    cl.ComesToHolder req routingKey ↔
      ∃ i < cl.client.maxAttempts req.length, ∃ host,
        cl.client.hostAt req.hash (BlobCacheClient.keyOf req routingKey) i = some host ∧
        (req.length = 0 ∨ (cl.objects host.hostId req.hash).isSome) := by
  have some_attempt := maxAttempts_pos cl.client req.length
  have firstHost : ∃ host, cl.client.hostAt req.hash (BlobCacheClient.keyOf req routingKey) 0 = some host ∧
      (cl.client.localHostCache req.hash = some host ∨ cl.client.localHostCache req.hash = none ∧ host = best) := by
    simp only [BlobCacheClient.hostAt, BlobCacheClient.firstChoice, first]
    cases cl.client.localHostCache req.hash with
    | none => exact ⟨best, rfl, .inr ⟨rfl, rfl⟩⟩
    | some host => exact ⟨host, rfl, .inl rfl⟩
  constructor
  · obtain ⟨host, at_, which⟩ := firstHost
    rintro (empty | remembered | ⟨long, i, later, retry, within, nth, has⟩)
    · exact ⟨0, some_attempt, host, at_, .inl empty⟩
    · refine ⟨0, some_attempt, host, at_, .inr ?_⟩
      rcases which with cached | ⟨-, rfl⟩
      · exact remembered host cached
      · exact held
    · obtain ⟨i, rfl⟩ := Nat.exists_eq_succ_of_ne_zero retry
      refine ⟨i + 1, ?_, later, nth, .inr has⟩
      rw [BlobCacheClient.maxAttempts, if_pos long]
      exact within
  · rintro ⟨i, before, host, at_, empty | has⟩
    · exact .inl empty
    · cases i with
      | zero =>
        refine .inr (.inl fun cached remembered => ?_)
        rw [BlobCacheClient.hostAt, BlobCacheClient.firstChoice, remembered, Option.some_or] at at_
        cases at_
        exact has
      | succ i =>
        rw [BlobCacheClient.maxAttempts] at before
        split at before
        · rename_i long
          exact .inr (.inr ⟨long, i + 1, host, by omega, before, at_, has⟩)
        · omega

end

/-- What `StoreContent` leaves behind when it returns the hash: the first host of the
routing key has the content. -/
theorem storeContent_ok {sha256 : Bytes → Digest} {before stored : Cluster} {chunks : List Bytes}
    {hash routingKey : String} (stores : before.storeContent sha256 chunks hash routingKey = (stored, .ok hash)) :
    contentHash sha256 chunks.flatten = hash ∧
      ∃ best, (before.client.topHosts (storeKey hash routingKey)).head? = some best ∧
        stored.objects best.hostId hash = some chunks.flatten := by
  rcases before.storeContent_cases sha256 chunks hash routingKey with ⟨-, e, failed⟩ | ⟨best, first, put, returned⟩
  · rw [stores] at failed
    cases failed
  · rw [stores] at put returned
    have hashed : hash = contentHash sha256 chunks.flatten := Except.ok.inj returned
    exact ⟨hashed.symm, best, first, by rw [put, putObject, if_pos ⟨rfl, hashed⟩]⟩

/-- A read returns the range of an object, which the first host of the routing key has,
exactly when it comes to a host that has the object. -/
theorem Sound.getContent_iff (noCollisions : Set.InjOn sha256 contents) {c₀ : BlobCacheClient}
    (connected : c₀.Connected) {cl : Cluster} (sound : Sound sha256 contents c₀ cl) {req : GetContentRequest}
    {routingKey : String} {best : BlobCacheHost} {object : Bytes}
    (first : (cl.client.topHosts (BlobCacheClient.keyOf req routingKey)).head? = some best)
    (held : cl.objects best.hostId req.hash = some object) (inside : Inside req object) :
    (cl.getContent hosts req routingKey).result = .ok (rangeOf req object) ↔ cl.ComesToHolder req routingKey := by
  have only (host : BlobCacheHost) (other : Bytes) (found : cl.objects host.hostId req.hash = some other) :
      other = object := by
    obtain ⟨inside, addr⟩ := sound.addressed _ _ _ found
    obtain ⟨inside', addr'⟩ := sound.addressed _ _ _ held
    exact contentHash_injOn noCollisions inside inside' (addr.trans addr'.symm)
  have answer (host : BlobCacheHost) : contentIn (hosts.get (cl.objects host.hostId req.hash) req) = _ :=
    contentIn_get inside (only host)
  have retrieved := getContent_retrieved cl.client (cl.responses hosts) req routingKey
  rw [comesToHolder_iff best first (by rw [held]; rfl)]
  constructor
  · intro returned
    cases retrieved with
    | miss fails result asked forgotten => exact absurd (result.symm.trans returned) (by simp)
    | hit i host content within fails asked given result remembered =>
      rw [sound.routed.askedAt connected, Nat.zero_add] at asked
      refine ⟨i, within, host, asked, ?_⟩
      by_contra neither
      rw [Cluster.responses, answer host, if_neg neither] at given
      cases given
    | stuck i within fails noHost result forgotten => exact absurd (result.symm.trans returned) (by simp)
  · rintro ⟨i, before, host, at_, holds⟩
    have succeeds : ¬ Fails cl.client (cl.responses hosts) req (BlobCacheClient.keyOf req routingKey) i := by
      rintro ⟨host', asked, failed⟩
      rw [sound.routed.askedAt connected, at_] at asked
      cases asked
      rw [Cluster.responses, answer host, if_pos holds] at failed
      cases failed
    cases retrieved with
    | miss fails result asked forgotten => exact absurd (by simpa using fails i before) succeeds
    | hit j other content within fails asked given result remembered =>
      rw [Cluster.responses, answer other] at given
      split at given
      · cases given
        exact result
      · cases given
    | stuck j within fails noHost result forgotten =>
      rw [sound.routed.askedAt connected] at noHost
      have host : (cl.client.hostAt req.hash (BlobCacheClient.keyOf req routingKey) (0 + j)).isSome := by
        apply BlobCacheClient.hostAt_isSome
        intro none
        rw [none] at first
        cases first
      rw [noHost] at host
      cases host

/-- After the content was stored and any calls were made, its first host still has it. -/
theorem Sound.stored_first (noCollisions : Set.InjOn sha256 contents) {c₀ : BlobCacheClient}
    {before stored later : Cluster} (sound : Sound sha256 contents c₀ before)
    {chunks : List Bytes} (member : chunks.flatten ∈ contents) {hash routingKey : String}
    (stores : before.storeContent sha256 chunks hash routingKey = (stored, .ok hash))
    (run : Trace (Cluster.step hosts sha256) (StoresContents contents) stored later) :
    Sound sha256 contents c₀ later ∧
      ∃ best, (later.client.topHosts (storeKey hash routingKey)).head? = some best ∧
        later.objects best.hostId hash = some chunks.flatten := by
  have soundStored : Sound sha256 contents c₀ stored := by
    simpa only [stores] using sound.storeContent member hash routingKey
  have soundLater := Sound.run run soundStored
  obtain ⟨-, best, first, put⟩ := storeContent_ok stores
  have topHosts : later.client.topHosts = before.client.topHosts :=
    soundLater.routed.topHosts.trans sound.routed.topHosts.symm
  exact ⟨soundLater, best, by rw [topHosts, first], Sound.keeps noCollisions run soundStored put⟩

/-- **Reading one's own writes.** After any calls, the content is stored; after any further
calls, a read of a range inside it, with the same routing key, returns the range exactly
when it comes to a host that has the object. -/
theorem reads_own_write_iff (noCollisions : Set.InjOn sha256 contents) {cl₀ before stored later : Cluster}
    (fresh : cl₀.client.Fresh) (connected : cl₀.client.Connected) (addressed : cl₀.Addressed sha256 contents)
    (run : Trace (Cluster.step hosts sha256) (StoresContents contents) cl₀ before)
    {chunks : List Bytes} (member : chunks.flatten ∈ contents) {hash routingKey : String}
    (stores : before.storeContent sha256 chunks hash routingKey = (stored, .ok hash))
    (run' : Trace (Cluster.step hosts sha256) (StoresContents contents) stored later)
    (req : GetContentRequest) (same : req.hash = hash) (inside : Inside req chunks.flatten) :
    (later.getContent hosts req routingKey).result = .ok (rangeOf req chunks.flatten) ↔
      later.ComesToHolder req routingKey := by
  subst same
  have start : Sound sha256 contents cl₀.client cl₀ := ⟨addressed, BlobCacheClient.Calls.routed fresh (.refl _)⟩
  obtain ⟨sound, best, first, held⟩ := (Sound.run run start).stored_first noCollisions member stores run'
  exact sound.getContent_iff noCollisions connected first held inside

end Cluster

/-! ## One routing key for each hash -/

/-- The stream of the attempt comes to its end. -/
def Ends (streams : Streams) (req : GetContentRequest) (attempt : Nat) (host : BlobCacheHost) : Prop :=
  ∃ sent, streams attempt host.hostId req = .ok sent ∧ (receivePieces sent.messages sent.ending).2 = true

namespace BlobCacheClient

/-- After a stream, the client remembers a host only if the stream of this host has come to
its end; and if this is not the first host asked, the stream of the first one has not. -/
theorem streamFrom_remembered {c c' : BlobCacheClient} {streams : Streams} {req : GetContentRequest}
    {routingKey : String} {remaining attempt : Nat} (on : c.OnCourse req.hash routingKey attempt c')
    (some_attempt : 0 < remaining) {host : BlobCacheHost}
    (remembered : (streamFrom streams req routingKey remaining attempt c').1.localHostCache req.hash = some host) :
    ∃ i, c.askedAt req.hash routingKey (attempt + i) = some host ∧ Ends streams req (attempt + i) host ∧
      (i ≠ 0 → ∃ first, ¬ Ends streams req attempt first) := by
  induction remaining generalizing attempt c' with
  | zero => omega
  | succ remaining ih =>
    rcases on.asks with ⟨c'', routed, -, forgotten⟩ | ⟨c'', asked, routed, at_, remembers, next⟩
    · simp only [streamFrom, routed, forgotten] at remembered
      cases remembered
    · -- after a stream that fails, the host is forgotten and the other attempts follow
      have later (fails : ¬ Ends streams req attempt asked)
          (after : (streamFrom streams req routingKey remaining (attempt + 1) (c''.forget req.hash)).1.localHostCache
            req.hash = some host) :
          ∃ i, c.askedAt req.hash routingKey (attempt + i) = some host ∧ Ends streams req (attempt + i) host ∧
            (i ≠ 0 → ∃ first, ¬ Ends streams req attempt first) := by
        rcases Nat.eq_zero_or_pos remaining with rfl | more
        · rw [streamFrom, forget_self] at after
          cases after
        · obtain ⟨i, at_, ends, -⟩ := ih next more after
          rw [Nat.add_assoc, Nat.add_comm 1] at at_ ends
          exact ⟨i + 1, at_, ends, fun _ => ⟨asked, fails⟩⟩
      cases opened : streams attempt asked.hostId req with
      | error status =>
        simp only [streamFrom, routed, opened] at remembered
        refine later ?_ remembered
        rintro ⟨sent, ok, -⟩
        rw [opened] at ok
        cases ok
      | ok sent =>
        rcases received : receivePieces sent.messages sent.ending with ⟨pieces, ended⟩
        cases ended with
        | true =>
          simp only [streamFrom, routed, opened, received, remembers] at remembered
          cases remembered
          exact ⟨0, at_, ⟨sent, opened, by rw [received]⟩, fun some => absurd rfl some⟩
        | false =>
          simp only [streamFrom, routed, opened, received] at remembered
          refine later ?_ remembered
          rintro ⟨other, ok, ended⟩
          cases opened.symm.trans ok
          rw [received] at ended
          cases ended

/-- A request for a host to store on forgets one at most. -/
theorem getGRPCClient_storage (c : BlobCacheClient) (hash routingKey : String) :
    (c.getGRPCClient ⟨.storage, hash, routingKey, 0⟩).1 = c ∨
      (c.getGRPCClient ⟨.storage, hash, routingKey, 0⟩).1 = c.forget hash := by
  simp only [getGRPCClient, chooseHost]
  cases nthHost (c.topHosts routingKey) 0 with
  | none => exact .inl rfl
  | some host => by_cases connected : host.hostId ∈ c.grpcClients <;> simp [connected]

/-- A request for one hash leaves the hosts of the others. -/
theorem getGRPCClient_other (c : BlobCacheClient) {request : ClientRequest} {hash : String}
    (other : hash ≠ request.hash) : (c.getGRPCClient request).1.localHostCache hash = c.localHostCache hash := by
  have chosen : (c.chooseHost request).1.localHostCache hash = c.localHostCache hash := by
    unfold chooseHost
    split
    · rfl
    · split
      · rfl
      · split
        · rfl
        · exact remember_other _ _ other
  unfold getGRPCClient
  split
  · rename_i same
    rwa [same] at chosen
  · rename_i same
    rw [same] at chosen
    split
    · exact chosen
    · rw [forget_other _ other, chosen]

end BlobCacheClient

namespace Cluster

/-- A read or a look-up of the hash uses the routing key. -/
def UsesKey (hash key : String) : ClusterCall → Prop
  | .getContent req routingKey => req.hash = hash → BlobCacheClient.keyOf req routingKey = key
  | .getContentStream req routingKey => req.hash = hash → BlobCacheClient.keyOf req routingKey = key
  | .isCachedNearby hash' routingKey => hash' = hash → routingKey = key
  | _ => True

/-- The host remembered for the hash is the first one of the routing key, or it has the
object. -/
def Settled (c₀ : BlobCacheClient) (hash key : String) (cl : Cluster) : Prop :=
  ∀ host, cl.client.localHostCache hash = some host →
    (c₀.topHosts key).head? = some host ∨ (cl.objects host.hostId hash).isSome

variable {c₀ : BlobCacheClient} {cl cl' : Cluster} {hash key : String}

/-- So is the host that a read asks first. -/
theorem Settled.first (settled : cl.Settled c₀ hash key) (routed : c₀.Routed cl.client) {host : BlobCacheHost}
    (asked : cl.client.askedAt hash key 0 = some host) :
    (c₀.topHosts key).head? = some host ∨ (cl.objects host.hostId hash).isSome := by
  have chosen := (Option.filter_eq_some_iff.mp asked).1
  rw [BlobCacheClient.hostAt, BlobCacheClient.firstChoice, routed.topHosts] at chosen
  rcases Option.or_eq_some_iff.mp chosen with remembered | ⟨-, best⟩
  · exact settled host remembered
  · exact .inl best

/-- A call that leaves the host of the hash alone leaves it settled. -/
theorem Settled.of_same (settled : cl.Settled c₀ hash key) {client : BlobCacheClient}
    (same : client.localHostCache hash = cl.client.localHostCache hash) :
    Settled c₀ hash key { cl with client := client } := by
  intro host remembered
  exact settled host (same.symm.trans remembered)

theorem Settled.getContent (settled : cl.Settled c₀ hash key) (routed : c₀.Routed cl.client)
    {req : GetContentRequest} {routingKey : String} (uses : UsesKey hash key (.getContent req routingKey)) :
    Settled c₀ hash key { cl with client := (cl.getContent hosts req routingKey).client } := by
  by_cases same : hash = req.hash
  · subst same
    have sameKey := uses rfl
    subst sameKey
    intro host remembered
    have retrieved := getContent_retrieved cl.client (cl.responses hosts) req routingKey
    cases retrieved with
    | miss fails result asked forgotten =>
      exact absurd ((forgotten (maxAttempts_pos _ _)).symm.trans remembered) (by simp)
    | stuck i within fails noHost result forgotten => exact absurd (forgotten.symm.trans remembered) (by simp)
    | hit i host' content within fails asked answer result remembered' =>
      cases remembered'.symm.trans remembered
      by_cases empty : req.length = 0
      · -- the first host asked has answered
        cases i with
        | zero => exact settled.first routed asked
        | succ i =>
          obtain ⟨first, -, failed⟩ := fails 0 (by omega)
          rw [Cluster.responses, hosts.get_empty _ _ empty] at failed
          cases failed
      · right
        by_contra missing
        rw [Cluster.responses, Option.not_isSome_iff_eq_none.mp missing, hosts.get_missing _ empty] at answer
        cases answer
  · apply settled.of_same
    exact BlobCacheClient.getFrom_keeps (I := fun c => c.localHostCache hash = cl.client.localHostCache hash)
      (fun c _ kept => (c.getGRPCClient_other same).trans kept) (fun c kept => (c.forget_other same).trans kept)
      _ rfl _ _ rfl

theorem Settled.getContentStream (settled : cl.Settled c₀ hash key) (routed : c₀.Routed cl.client)
    {req : GetContentRequest} {routingKey : String} (uses : UsesKey hash key (.getContentStream req routingKey)) :
    Settled c₀ hash key
      { cl with client := (cl.client.getContentStream (cl.streams hosts) req routingKey).1 } := by
  by_cases same : hash = req.hash
  · subst same
    have sameKey := uses rfl
    subst sameKey
    intro host remembered
    obtain ⟨i, asked, ⟨sent, opened, ended⟩, first⟩ := BlobCacheClient.streamFrom_remembered
      (.start cl.client req.hash _) (maxAttempts_pos _ _) remembered
    by_cases empty : req.length ≤ 0
    · cases i with
      | zero => exact settled.first routed asked
      | succ i =>
        obtain ⟨host', fails⟩ := first (by omega)
        exact absurd ⟨_, hosts.stream_empty _ _ empty, rfl⟩ fails
    · right
      by_contra missing
      rw [Cluster.streams, Option.not_isSome_iff_eq_none.mp missing] at opened
      rw [hosts.stream_missing req sent (by omega) opened] at ended
      cases ended
  · apply settled.of_same
    exact BlobCacheClient.streamFrom_keeps (I := fun c => c.localHostCache hash = cl.client.localHostCache hash)
      (fun c _ kept => (c.getGRPCClient_other same).trans kept) (fun c kept => (c.forget_other same).trans kept)
      _ rfl _ _ rfl

theorem Settled.isCachedNearby (settled : cl.Settled c₀ hash key) (routed : c₀.Routed cl.client)
    {hash' routingKey : String} (uses : UsesKey hash key (.isCachedNearby hash' routingKey)) :
    Settled c₀ hash key { cl with client := (cl.client.isCachedNearby cl.answers hash' routingKey).1 } := by
  by_cases same : hash = hash'
  · subst same
    have sameKey := uses rfl
    subst sameKey
    unfold BlobCacheClient.isCachedNearby
    cases cl.client.config.nTopHosts.toNat with
    | zero => exact settled
    | succ remaining =>
      intro host remembered
      rcases (BlobCacheClient.OnCourse.start cl.client hash routingKey).asks with
        ⟨c'', routed', -, forgotten⟩ | ⟨c'', first, routed', asked, remembers, -⟩
      · simp only [BlobCacheClient.askFrom, routed', forgotten] at remembered
        cases remembered
      · -- the host asked first is the only one asked
        have connected : first.hostId ∈ c''.grpcClients := by
          have clients := (routed.getGRPCClient ⟨.retrieval, hash, routingKey, 0⟩).clients
          rw [routed'] at clients
          rw [clients, ← routed.clients]
          exact of_decide_eq_true (Option.filter_eq_some_iff.mp asked).2
        have rest := @BlobCacheClient.askFrom_remembered cl.answers _ _ _ _ remembers connected rfl routingKey
          remaining 1
        have stays : (BlobCacheClient.askFrom cl.answers hash routingKey (remaining + 1) 0 cl.client).1 = c'' := by
          simp only [BlobCacheClient.askFrom, routed', Cluster.answers]
          split
          · rfl
          · exact congrArg Prod.fst rest
        rw [stays, remembers] at remembered
        cases remembered
        exact settled.first routed asked
  · apply settled.of_same
    exact BlobCacheClient.askFrom_keeps (I := fun c => c.localHostCache hash = cl.client.localHostCache hash)
      (fun c _ kept => (c.getGRPCClient_other same).trans kept) _ _ _ rfl

theorem Settled.expire (settled : cl.Settled c₀ hash key) (hash' : String) :
    Settled c₀ hash key { cl with client := cl.client.forget hash' } := by
  by_cases same : hash = hash'
  · subst same
    intro host remembered
    rw [BlobCacheClient.forget_self] at remembered
    cases remembered
  · exact settled.of_same (cl.client.forget_other same)

/-- Storing changes the host cache only by forgetting a host, and takes no object away. -/
theorem Settled.storeContent (settled : cl.Settled c₀ hash key) (sha256 : Bytes → Digest) (chunks : List Bytes)
    (hash' routingKey : String) :
    Settled c₀ hash key (cl.storeContent sha256 chunks hash' routingKey).1 := by
  intro host remembered
  rw [storeContent_client, BlobCacheClient.call] at remembered
  have before : cl.client.localHostCache hash = some host := by
    rcases cl.client.getGRPCClient_storage hash' (storeKey hash' routingKey) with same | forgotten
    · rwa [same] at remembered
    · rw [forgotten] at remembered
      by_cases same : hash = hash'
      · rw [same, BlobCacheClient.forget_self] at remembered
        cases remembered
      · rwa [BlobCacheClient.forget_other _ same] at remembered
  refine (settled host before).imp id fun held => ?_
  rcases cl.storeContent_cases sha256 chunks hash' routingKey with ⟨same, -⟩ | ⟨best, -, put, -⟩
  · rwa [same]
  · rw [put, putObject]
    split
    · rfl
    · exact held

theorem Settled.step (settled : cl.Settled c₀ hash key) (routed : c₀.Routed cl.client) {request : ClusterCall}
    (uses : UsesKey hash key request) : Settled c₀ hash key (cl.step hosts sha256 request) := by
  cases request with
  | getContent req routingKey => exact settled.getContent routed uses
  | getContentStream req routingKey => exact settled.getContentStream routed uses
  | isCachedNearby hash' routingKey => exact settled.isCachedNearby routed uses
  | storeContent chunks hash' routingKey => exact settled.storeContent sha256 chunks hash' routingKey
  | expire hash' => exact settled.expire hash'

/-- The calls store contents, and use one routing key for the hash. -/
def OneKey (contents : Set Bytes) (hash key : String) (cl : Cluster) (request : ClusterCall) : Prop :=
  StoresContents contents cl request ∧ UsesKey hash key request

theorem Settled.run (run : Trace (Cluster.step hosts sha256) (OneKey contents hash key) cl cl')
    (sound : Sound sha256 contents c₀ cl) (settled : cl.Settled c₀ hash key) :
    Sound sha256 contents c₀ cl' ∧ cl'.Settled c₀ hash key :=
  run.invariant (I := fun cl => Sound sha256 contents c₀ cl ∧ cl.Settled c₀ hash key)
    (fun _ _ h ok => ⟨h.1.step ok.1, h.2.step h.1.routed ok.2⟩) ⟨sound, settled⟩

/-- As long as all reads and look-ups of a hash use the routing key it is stored with, every
read of a range inside the content returns it. -/
theorem one_key_reads_own_write (noCollisions : Set.InjOn sha256 contents) {cl₀ before stored later : Cluster}
    (fresh : cl₀.client.Fresh) (connected : cl₀.client.Connected) (addressed : cl₀.Addressed sha256 contents)
    {hash routingKey : String}
    (run : Trace (Cluster.step hosts sha256) (OneKey contents hash (storeKey hash routingKey)) cl₀ before)
    {chunks : List Bytes} (member : chunks.flatten ∈ contents)
    (stores : before.storeContent sha256 chunks hash routingKey = (stored, .ok hash))
    (run' : Trace (Cluster.step hosts sha256) (OneKey contents hash (storeKey hash routingKey)) stored later)
    (req : GetContentRequest) (same : req.hash = hash) (inside : Inside req chunks.flatten) :
    (later.getContent hosts req routingKey).result = .ok (rangeOf req chunks.flatten) := by
  subst same
  have start : Sound sha256 contents cl₀.client cl₀ := ⟨addressed, BlobCacheClient.Calls.routed fresh (.refl _)⟩
  have unsettled : cl₀.Settled cl₀.client req.hash (storeKey req.hash routingKey) := by
    intro host remembered
    rw [fresh req.hash] at remembered
    cases remembered
  obtain ⟨sound, settled⟩ := Settled.run run start unsettled
  have soundStored := sound.storeContent member req.hash routingKey
  have settledStored := settled.storeContent sha256 chunks req.hash routingKey
  rw [stores] at soundStored settledStored
  obtain ⟨-, settledLater⟩ := Settled.run run' soundStored settledStored
  obtain ⟨soundLater, best, first, held⟩ := sound.stored_first noCollisions member stores
    (run'.weaken fun _ _ ok => ok.1)
  refine (soundLater.getContent_iff noCollisions connected first held inside).mpr (.inr (.inl ?_))
  intro host remembered
  rcases settledLater host remembered with isBest | holds
  · rw [soundLater.routed.topHosts] at first
    cases first.symm.trans isBest
    rw [held]
    rfl
  · exact holds

end Cluster

end

/-- What a host answers that goes as far as the object does. -/
def getToTheEnd (held : Option Bytes) (req : GetContentRequest) : Except Status GetContentResponse :=
  if req.length = 0 then .ok ⟨[], true⟩
  else held.elim (.ok ⟨[], false⟩) fun object => .ok ⟨rangeOf req object, true⟩

def streamToTheEnd (held : Option Bytes) (req : GetContentRequest) : Except Status ServerStream :=
  if req.length ≤ 0 then .ok ⟨[], .eof⟩
  else held.elim (.ok ⟨[], .failed ⟨.notFound, "Content not found: content not found"⟩⟩) fun object =>
    .ok ⟨[⟨rangeOf req object, true⟩], .eof⟩

theorem getToTheEnd_some (object : Bytes) (req : GetContentRequest) :
    getToTheEnd (some object) req = .ok ⟨rangeOf req object, true⟩ := by
  unfold getToTheEnd
  split
  · rename_i empty
    simp [rangeOf, empty]
  · rfl

theorem getToTheEnd_none (req : GetContentRequest) (some : req.length ≠ 0) :
    contentIn (getToTheEnd none req) = none := by
  rw [getToTheEnd, if_neg some]
  rfl

theorem streamToTheEnd_none (req : GetContentRequest) (sent : ServerStream) (some : 0 < req.length)
    (answered : streamToTheEnd none req = .ok sent) : (receivePieces sent.messages sent.ending).2 = false := by
  rw [streamToTheEnd, if_neg (Int.not_le.mpr some)] at answered
  cases answered
  rfl

def toTheEnd : HostAnswers where
  get := getToTheEnd
  stream := streamToTheEnd
  get_inside object req _ := getToTheEnd_some object req
  get_empty _ _ empty := if_pos empty
  get_missing := getToTheEnd_none
  stream_empty _ _ empty := if_pos empty
  stream_missing := streamToTheEnd_none

namespace Cluster

/-- A new client of two hosts, which the routing key `j` ranks the other way round, and
which repeats reads of more than ten bytes. -/
def ofTwoKeys : Cluster where
  client :=
    { config := ⟨2, 10, 3, BlobCacheClient.ofTwoHosts.config.attempts_pos⟩
      hasher := ⟨[⟨"a"⟩, ⟨"b"⟩], fun key => if key = "j" then [⟨"b"⟩, ⟨"a"⟩] else [⟨"a"⟩, ⟨"b"⟩],
        BlobCacheClient.ofTwoHosts.hasher.nodup, fun key => by split; exacts [.swap .., .refl _]⟩
      grpcClients := {"a", "b"}
      localHostCache := fun _ => none }
  objects := fun _ _ => none

/-- The two bytes stored, all of them. -/
def wholeObject : GetContentRequest :=
  { BlobCacheClient.twoBytes with hash := contentHash padded [7, 8] }

theorem wholeObject_inside : Inside wholeObject [7, 8] := ⟨by decide, by decide, by decide⟩

theorem reads_own_write_new_client :
    ((ofTwoKeys.storeContent padded [[7], [8]] wholeObject.hash "k").1.getContent toTheEnd wholeObject "k").result =
      .ok [7, 8] := by
  have fresh : ofTwoKeys.client.Fresh := fun _ => rfl
  have connected : ofTwoKeys.client.Connected := by unfold BlobCacheClient.Connected; decide
  have addressed : ofTwoKeys.Addressed padded {[7, 8]} := fun _ _ _ held => by cases held
  refine (@reads_own_write_iff padded {[7, 8]} toTheEnd (Set.injOn_singleton _ _) _ _ _ _ fresh connected addressed
    (.refl _) [[7], [8]] rfl _ "k" rfl (.refl _) wholeObject rfl wholeObject_inside).mpr ?_
  exact .inr (.inl fun host remembered => by cases remembered)

/-- A look-up of the hash with another routing key leaves a host behind that does not have
the object, and the read asks no other. -/
theorem own_write_not_read :
    let looked := ofTwoKeys.step toTheEnd padded (.isCachedNearby wholeObject.hash "j")
    let stored := looked.storeContent padded [[7], [8]] wholeObject.hash "k"
    stored.2 = .ok wholeObject.hash ∧
      (stored.1.getContent toTheEnd wholeObject "k").result = .error .contentNotFound := by
  refine ⟨by decide, by decide⟩

end Cluster

end Blobcache.Client
