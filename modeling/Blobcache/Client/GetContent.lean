import Blobcache.Lib.Execution
import Blobcache.Client.Stream

/-!
# Reading with retries

`client.go`: `GetContent`. Each attempt asks one host; a host that fails or does not have
the content is forgotten, and the next attempt goes by its index into the ranking of the
routing key. The first attempt goes to the host remembered for the hash, whichever earlier
call left it there, so the first host of the ranking is passed over whenever another one is
remembered.
-/

namespace Blobcache.Client
set_option autoImplicit false
open Execution Server Storage

/-- What the hosts answer to `GetContent`, attempt by attempt. -/
abbrev Responses := (attempt : Nat) → (hostId : String) → GetContentRequest → Except Status GetContentResponse

/-- The content of a response, if the call succeeded and the response is `Ok`. -/
def contentIn : Except Status GetContentResponse → Option Bytes
  | .error _ => none
  | .ok resp => if resp.ok then some resp.content else none

/-- What a call of `GetContent` comes to: the client afterwards, the hosts that were sent a
request, in order, and the result. -/
structure Retrieval where
  client : BlobCacheClient
  asked : List BlobCacheHost
  result : Except ClientError Bytes

namespace BlobCacheClient

/-- The loop of `GetContent`, from one attempt on. -/
def getFrom (responses : Responses) (req : GetContentRequest) (routingKey : String) :
    (remaining attempt : Nat) → BlobCacheClient → Retrieval
  | 0, _, c => ⟨c, [], .error .contentNotFound⟩
  | remaining + 1, attempt, c =>
    match c.getGRPCClient ⟨.retrieval, req.hash, routingKey, attempt⟩ with
    | (c, .error e) => ⟨c, [], .error e⟩
    | (c, .ok host) =>
      match contentIn (responses attempt host.hostId req) with
      | some content => ⟨c, [host], .ok content⟩
      | none =>
        let later := getFrom responses req routingKey remaining (attempt + 1) (c.forget req.hash)
        { later with asked := host :: later.asked }

/-- `GetContent`. -/
def getContent (c : BlobCacheClient) (responses : Responses) (req : GetContentRequest) (routingKey : String) :
    Retrieval :=
  getFrom responses req (keyOf req routingKey) (c.maxAttempts req.length) 0 c

end BlobCacheClient

/-! ## What an attempt does -/

section

variable (c : BlobCacheClient) (responses : Responses) (req : GetContentRequest) (routingKey : String)

/-- The attempt asks a host, and gets no content. -/
def Fails (attempt : Nat) : Prop :=
  ∃ host, c.askedAt req.hash routingKey attempt = some host ∧ contentIn (responses attempt host.hostId req) = none

/-- The ways the loop ends: no attempt gets the content, one does, or one has no host. -/
inductive Retrieved (remaining attempt : Nat) (r : Retrieval) : Prop where
  | miss (fails : ∀ i < remaining, Fails c responses req routingKey (attempt + i))
      (result : r.result = .error .contentNotFound)
      (asked : r.asked.map some = (List.range' attempt remaining).map (c.askedAt req.hash routingKey))
      (forgotten : 0 < remaining → r.client.localHostCache req.hash = none)
  | hit (i : Nat) (host : BlobCacheHost) (content : Bytes) (within : i < remaining)
      (fails : ∀ j < i, Fails c responses req routingKey (attempt + j))
      (asked : c.askedAt req.hash routingKey (attempt + i) = some host)
      (answer : contentIn (responses (attempt + i) host.hostId req) = some content)
      (result : r.result = .ok content) (remembered : r.client.localHostCache req.hash = some host)
  | stuck (i : Nat) (within : i < remaining) (fails : ∀ j < i, Fails c responses req routingKey (attempt + j))
      (noHost : c.askedAt req.hash routingKey (attempt + i) = none)
      (result : r.result = .error .hostNotFound) (forgotten : r.client.localHostCache req.hash = none)

variable {c responses req routingKey}

/-- The attempts that fail up to some point are the first one and those after it. -/
theorem fails_cons {attempt i : Nat} (first : Fails c responses req routingKey attempt)
    (rest : ∀ j < i, Fails c responses req routingKey (attempt + 1 + j)) :
    ∀ j < i + 1, Fails c responses req routingKey (attempt + j) := by
  intro j before
  cases j with
  | zero => exact first
  | succ j =>
    have later := rest j (by omega)
    rwa [Nat.add_right_comm, Nat.add_assoc] at later

/-- One more failed attempt before a loop. -/
theorem Retrieved.cons {remaining attempt : Nat} {r : Retrieval} {host : BlobCacheHost}
    (asked : c.askedAt req.hash routingKey attempt = some host)
    (failed : contentIn (responses attempt host.hostId req) = none)
    (forgotten : remaining = 0 → r.client.localHostCache req.hash = none)
    (later : Retrieved c responses req routingKey remaining (attempt + 1) r) :
    Retrieved c responses req routingKey (remaining + 1) attempt { r with asked := host :: r.asked } := by
  have first : Fails c responses req routingKey attempt := ⟨host, asked, failed⟩
  have shift (i : Nat) : attempt + 1 + i = attempt + (i + 1) := by omega
  cases later with
  | miss fails result hosts emptied =>
    refine .miss (fails_cons first fails) result ?_ fun _ => ?_
    · rw [List.map_cons, hosts, List.range'_succ, List.map_cons, asked]
    · rcases Nat.eq_zero_or_pos remaining with zero | some
      · exact forgotten zero
      · exact emptied some
  | hit i host' content within fails asked' answer result remembered =>
    rw [shift] at asked' answer
    exact .hit (i + 1) host' content (by omega) (fails_cons first fails) asked' answer result remembered
  | stuck i within fails noHost result emptied =>
    rw [shift] at noHost
    exact .stuck (i + 1) (by omega) (fails_cons first fails) noHost result emptied

/-- **The loop of `GetContent`.** It ends in one of the three ways. -/
theorem getFrom_retrieved (responses : Responses) (remaining attempt : Nat) {c' : BlobCacheClient}
    (on : c.OnCourse req.hash routingKey attempt c') :
    Retrieved c responses req routingKey remaining attempt
      (BlobCacheClient.getFrom responses req routingKey remaining attempt c') := by
  induction remaining generalizing attempt c' with
  | zero => exact .miss (fun _ before => absurd before (by omega)) rfl rfl fun some => absurd some (by omega)
  | succ remaining ih =>
    rcases on.asks with ⟨c'', routed, noHost, forgotten⟩ | ⟨c'', host, routed, asked, remembered, next⟩
    · simp only [BlobCacheClient.getFrom, routed]
      exact .stuck 0 (by omega) (fun _ before => absurd before (by omega)) noHost rfl forgotten
    · simp only [BlobCacheClient.getFrom, routed]
      cases answer : contentIn (responses attempt host.hostId req) with
      | some content =>
        exact .hit 0 host content (by omega) (fun _ before => absurd before (by omega)) asked answer rfl remembered
      | none =>
        refine .cons asked answer ?_ (ih (attempt + 1) next)
        rintro rfl
        exact c''.forget_self req.hash

theorem getContent_retrieved (c : BlobCacheClient) (responses : Responses) (req : GetContentRequest)
    (routingKey : String) :
    Retrieved c responses req (BlobCacheClient.keyOf req routingKey) (c.maxAttempts req.length) 0
      (c.getContent responses req routingKey) :=
  getFrom_retrieved responses _ 0 (.start c req.hash _)

end

/-! ## Any calls before -/

/-- A call of the client, with what the hosts answer during it. The three calls that store
only choose a host, and `manageLocalClientCache` drops an entry of the host cache. -/
inductive ClientCall where
  | getContent (responses : Responses) (req : GetContentRequest) (routingKey : String)
  | getContentStream (streams : Streams) (req : GetContentRequest) (routingKey : String)
  | isCachedNearby (answers : BlobCacheClient.Answers) (hash routingKey : String)
  | store (hash routingKey : String)
  | expire (hash : String)

namespace BlobCacheClient

def call (request : ClientCall) (c : BlobCacheClient) : BlobCacheClient :=
  match request with
  | .getContent responses req routingKey => (c.getContent responses req routingKey).client
  | .getContentStream streams req routingKey => (c.getContentStream streams req routingKey).1
  | .isCachedNearby answers hash routingKey => (c.isCachedNearby answers hash routingKey).1
  | .store hash routingKey => (c.getGRPCClient ⟨.storage, hash, routingKey, 0⟩).1
  | .expire hash => c.forget hash

/-- Of the client `c₀` only the host cache has changed, and it holds members only. -/
structure Routed (c₀ c : BlobCacheClient) : Prop where
  config : c.config = c₀.config
  hasher : c.hasher = c₀.hasher
  clients : c.grpcClients = c₀.grpcClients
  members : ∀ hash host, c.localHostCache hash = some host → host ∈ c.hasher.members

section

variable {c₀ c : BlobCacheClient}

theorem topHosts_members {routingKey : String} {host : BlobCacheHost} (best : host ∈ c.topHosts routingKey) :
    host ∈ c.hasher.members :=
  (c.hasher.ranks routingKey).mem_iff.mp (List.mem_of_mem_take best)

theorem topHosts_nodup (c : BlobCacheClient) (routingKey : String) : (c.topHosts routingKey).Nodup :=
  ((c.hasher.ranks routingKey).nodup_iff.mpr c.hasher.nodup).sublist (List.take_sublist _ _)

theorem nthHost_mem {hosts : List BlobCacheHost} {hostIndex : Nat} {host : BlobCacheHost}
    (nth : nthHost hosts hostIndex = some host) : host ∈ hosts :=
  List.mem_of_getElem? nth

theorem Routed.topHosts (h : Routed c₀ c) : c.topHosts = c₀.topHosts := by
  funext key
  simp only [BlobCacheClient.topHosts, h.hasher, h.config]

theorem Routed.forget (h : Routed c₀ c) (hash : String) : Routed c₀ (c.forget hash) := by
  refine ⟨h.config, h.hasher, h.clients, fun hash' host remembered => ?_⟩
  by_cases same : hash' = hash
  · subst same
    rw [forget_self] at remembered
    cases remembered
  · rw [forget_other c same] at remembered
    exact h.members hash' host remembered

theorem Routed.remember (h : Routed c₀ c) (hash : String) {host : BlobCacheHost} (member : host ∈ c.hasher.members) :
    Routed c₀ (c.remember hash host) := by
  refine ⟨h.config, h.hasher, h.clients, fun hash' host' remembered => ?_⟩
  by_cases same : hash' = hash
  · subst same
    rw [remember_self] at remembered
    cases remembered
    exact member
  · rw [remember_other c host same] at remembered
    exact h.members hash' host' remembered

theorem Routed.chooseHost (h : Routed c₀ c) (request : ClientRequest) : Routed c₀ (c.chooseHost request).1 := by
  unfold BlobCacheClient.chooseHost
  split
  · exact h
  · split
    · exact h
    · split
      · exact h
      · rename_i nth
        exact h.remember _ (topHosts_members (nthHost_mem nth))

theorem Routed.getGRPCClient (h : Routed c₀ c) (request : ClientRequest) :
    Routed c₀ (c.getGRPCClient request).1 := by
  have chosen := h.chooseHost request
  unfold BlobCacheClient.getGRPCClient
  split
  · rename_i same
    rwa [same] at chosen
  · rename_i same
    rw [same] at chosen
    split
    · exact chosen
    · exact chosen.forget _

end

/-! What a request for a host and forgetting one keep, the three loops keep. -/

section

variable {I : BlobCacheClient → Prop} {hash routingKey : String}
  (routes : ∀ c i, I c → I (c.getGRPCClient ⟨.retrieval, hash, routingKey, i⟩).1)

include routes

theorem askFrom_keeps (answers : Answers) (remaining hostIndex : Nat) {c : BlobCacheClient} (start : I c) :
    I (askFrom answers hash routingKey remaining hostIndex c).1 := by
  induction remaining generalizing hostIndex c with
  | zero => exact start
  | succ remaining ih =>
    have routed := routes c hostIndex start
    unfold askFrom
    split
    · rename_i same
      rwa [same] at routed
    · rename_i same
      rw [same] at routed
      split
      · exact routed
      · split
        · exact routed
        · exact ih _ routed

variable (forgets : ∀ c, I c → I (c.forget hash))

include forgets

theorem getFrom_keeps (responses : Responses) {req : GetContentRequest} (same : req.hash = hash)
    (remaining attempt : Nat) {c : BlobCacheClient} (start : I c) :
    I (getFrom responses req routingKey remaining attempt c).client := by
  subst same
  induction remaining generalizing attempt c with
  | zero => exact start
  | succ remaining ih =>
    have routed := routes c attempt start
    unfold getFrom
    split
    · rename_i same
      rwa [same] at routed
    · rename_i same
      rw [same] at routed
      split
      · exact routed
      · exact ih _ (forgets _ routed)

theorem streamFrom_keeps (streams : Streams) {req : GetContentRequest} (same : req.hash = hash)
    (remaining attempt : Nat) {c : BlobCacheClient} (start : I c) :
    I (streamFrom streams req routingKey remaining attempt c).1 := by
  subst same
  induction remaining generalizing attempt c with
  | zero => exact start
  | succ remaining ih =>
    have routed := routes c attempt start
    unfold streamFrom
    split
    · rename_i same
      rwa [same] at routed
    · rename_i same
      rw [same] at routed
      split
      · exact ih _ (forgets _ routed)
      · split
        · exact routed
        · exact ih _ (forgets _ routed)

end

theorem Routed.call {c₀ c : BlobCacheClient} (h : Routed c₀ c) (request : ClientCall) :
    Routed c₀ (c.call request) := by
  have routes (hash routingKey : String) (c : BlobCacheClient) (i : Nat) (h : Routed c₀ c) :
      Routed c₀ (c.getGRPCClient ⟨.retrieval, hash, routingKey, i⟩).1 := h.getGRPCClient _
  have forgets (hash : String) (c : BlobCacheClient) (h : Routed c₀ c) : Routed c₀ (c.forget hash) := h.forget hash
  cases request with
  | getContent responses req routingKey => exact getFrom_keeps (routes _ _) (forgets _) responses rfl _ _ h
  | getContentStream streams req routingKey => exact streamFrom_keeps (routes _ _) (forgets _) streams rfl _ _ h
  | isCachedNearby answers hash routingKey => exact askFrom_keeps (routes _ _) answers _ _ h
  | store hash routingKey => exact h.getGRPCClient _
  | expire hash => exact h.forget hash

/-- A client that has made no call yet. -/
def Fresh (c : BlobCacheClient) : Prop := ∀ hash, c.localHostCache hash = none

/-- The client has a connection to every host it ranks. -/
def Connected (c : BlobCacheClient) : Prop := ∀ host ∈ c.hasher.members, host.hostId ∈ c.grpcClients

/-- The clients that any calls lead to. -/
abbrev Calls := Trace BlobCacheClient.call fun _ _ => True

theorem Calls.routed {c₀ c : BlobCacheClient} (fresh : c₀.Fresh) (run : Calls c₀ c) : Routed c₀ c := by
  refine run.invariant (fun _ request h _ => h.call request) ⟨rfl, rfl, rfl, fun hash host remembered => ?_⟩
  rw [fresh hash] at remembered
  cases remembered

end BlobCacheClient

/-! ## Every candidate is asked -/

/-- After a miss every attempt has failed, and the hosts asked are those of the attempts. -/
theorem Retrieved.asked_of_miss {c : BlobCacheClient} {responses : Responses} {req : GetContentRequest}
    {routingKey : String} {remaining : Nat} {r : Retrieval}
    (retrieved : Retrieved c responses req routingKey remaining 0 r) (miss : r.result = .error .contentNotFound) :
    (∀ i < remaining, Fails c responses req routingKey i) ∧
      ∀ host, host ∈ r.asked ↔ ∃ i < remaining, c.askedAt req.hash routingKey i = some host := by
  cases retrieved with
  | miss fails result asked forgotten =>
    refine ⟨fun i before => by simpa using fails i before, fun host => ?_⟩
    rw [← List.mem_map_of_injective (Option.some_injective _), asked, List.mem_map]
    simp only [List.mem_range'_1, Nat.zero_le, Nat.zero_add, true_and]
  | hit i host content within fails asked answer result remembered =>
    rw [result] at miss
    cases miss
  | stuck i within fails noHost result forgotten =>
    rw [result] at miss
    cases miss

namespace BlobCacheClient

section

variable {c₀ c : BlobCacheClient} {hash routingKey : String}

/-- A client that has only made calls has a connection to the host of every attempt. -/
theorem Routed.askedAt (h : Routed c₀ c) (connected : c₀.Connected) (attempt : Nat) :
    c.askedAt hash routingKey attempt = c.hostAt hash routingKey attempt := by
  have member (host : BlobCacheHost) (at_ : c.hostAt hash routingKey attempt = some host) :
      host ∈ c.hasher.members := by
    cases attempt with
    | zero =>
      rw [hostAt, firstChoice] at at_
      rcases Option.or_eq_some_iff.mp at_ with remembered | ⟨-, first⟩
      · exact h.members hash host remembered
      · exact topHosts_members (List.mem_of_mem_head? first)
    | succ attempt => exact topHosts_members (nthHost_mem at_)
  cases at_ : c.hostAt hash routingKey attempt with
  | none => rw [BlobCacheClient.askedAt, at_, Option.filter_none]
  | some host =>
    have connected' : host.hostId ∈ c.grpcClients := by
      rw [h.clients]
      exact connected host (h.hasher ▸ member host at_)
    simp [BlobCacheClient.askedAt, at_, connected']

/-- Where there is a host, each attempt has one. -/
theorem hostAt_isSome (some : c.topHosts routingKey ≠ []) (attempt : Nat) :
    (c.hostAt hash routingKey attempt).isSome := by
  have length := List.length_pos_of_ne_nil some
  cases attempt with
  | zero =>
    rw [hostAt, firstChoice, Option.isSome_or, Bool.or_eq_true]
    exact .inr (List.isSome_head?.mpr some)
  | succ attempt =>
    rw [hostAt, nthHost, List.getElem?_eq_getElem (by omega)]
    rfl

/-- An attempt after the first asks the host at its index. -/
theorem hostAt_index {attempt : Nat} (retry : attempt ≠ 0) (within : attempt < (c.topHosts routingKey).length) :
    c.hostAt hash routingKey attempt = (c.topHosts routingKey)[attempt]? := by
  obtain ⟨attempt, rfl⟩ := Nat.exists_eq_succ_of_ne_zero retry
  rw [hostAt, nthHost, Nat.min_eq_left (by omega)]

end

/-- The first host of the ranking is asked: no other host is remembered for the hash, or
there is but one host, which every later attempt asks. -/
def FirstIsAsked (c : BlobCacheClient) (hash routingKey : String) (attempts : Nat) : Prop :=
  ∀ cached best, c.localHostCache hash = some cached → (c.topHosts routingKey).head? = some best →
    cached = best ∨ (c.topHosts routingKey).length = 1 ∧ 2 ≤ attempts

/-- Every host refuses. -/
def refusing : Responses := fun _ _ _ => .ok ⟨[], false⟩

section

variable {c₀ c : BlobCacheClient} {req : GetContentRequest} {routingKey : String} {attempts : Nat}

theorem topHosts_length_le (c : BlobCacheClient) (routingKey : String) :
    (c.topHosts routingKey).length ≤ c.config.nTopHosts.toNat := by
  rw [topHosts, RendezvousHasher.getN]
  exact List.length_take_le _ _

/-- With one attempt for each host, each host of the ranking is the host of an attempt. -/
theorem FirstIsAsked.all (first : c.FirstIsAsked req.hash routingKey attempts)
    (enough : (c.topHosts routingKey).length ≤ attempts) {host : BlobCacheHost}
    (candidate : host ∈ c.topHosts routingKey) :
    ∃ i < attempts, c.hostAt req.hash routingKey i = some host := by
  obtain ⟨j, within, rfl⟩ := List.getElem_of_mem candidate
  rcases Nat.eq_zero_or_pos j with rfl | retry
  · have best : (c.topHosts routingKey).head? = some (c.topHosts routingKey)[0] := by
      rw [List.head?_eq_getElem?, List.getElem?_eq_getElem within]
    cases remembered : c.localHostCache req.hash with
    | none => exact ⟨0, by omega, by rw [hostAt, firstChoice, remembered, Option.none_or, best]⟩
    | some cached =>
      rcases first cached _ remembered best with same | ⟨single, again⟩
      · exact ⟨0, by omega, by rw [hostAt, firstChoice, remembered, Option.some_or, same]⟩
      · exact ⟨1, again, by rw [hostAt, nthHost, single, Nat.min_zero, List.getElem?_eq_getElem within]⟩
  · exact ⟨j, by omega, by rw [hostAt_index (by omega) within, List.getElem?_eq_getElem within]⟩

/-- If the first host of the ranking is the host of an attempt, it is asked. -/
theorem FirstIsAsked.of_first
    (asked : ∀ best, (c.topHosts routingKey).head? = some best →
      ∃ i < attempts, c.hostAt req.hash routingKey i = some best) :
    c.FirstIsAsked req.hash routingKey attempts := by
  intro cached best remembered first
  obtain ⟨i, before, at_⟩ := asked best first
  cases i with
  | zero =>
    rw [hostAt, firstChoice, remembered, Option.some_or] at at_
    exact .inl (Option.some.inj at_)
  | succ i =>
    right
    -- the host at the attempt's index is the first one, and no host is ranked twice
    rw [List.head?_eq_getElem?] at first
    have within := (List.getElem?_eq_some_iff.mp first).1
    rw [hostAt, nthHost] at at_
    have index := (List.nodup_iff_getElem?_ne_getElem?.mp (c.topHosts_nodup routingKey)) 0
      (min (i + 1) ((c.topHosts routingKey).length - 1))
    by_cases zero : min (i + 1) ((c.topHosts routingKey).length - 1) = 0
    · exact ⟨by omega, by omega⟩
    · exact absurd (first.trans at_.symm) (index (by omega) (by omega))

end

/-- The first two bytes of the object `h`. -/
def twoBytes : GetContentRequest := ⟨"h", 0, 2, readTwo.offset_inRange, readTwo.length_inRange⟩

/-- Only the host `b` has the content. -/
def onSecond : Responses := fun _ hostId _ => .ok (if hostId = "b" then ⟨[7, 8], true⟩ else ⟨[], false⟩)

end BlobCacheClient

end Blobcache.Client
