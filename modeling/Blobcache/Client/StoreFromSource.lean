import Blobcache.Client.Routing
import Blobcache.Server.StoreFromSource

/-!
# Storing from a source, with and without the lock

`client.go`: `StoreContentFromFUSE` and `StoreContentFromS3`. Both ask a host to store a
source, under its lock or not, and turn the response into a hash or an error. The two
ways agree as long as storing what was read does not fail on the host: the handler that
takes the lock answers `Ok` then, with no hash, and the client takes it for a success.
-/

namespace Blobcache.Client
set_option autoImplicit false
open Server Storage

/-- What the hosts answer to a request to store a source. -/
structure StoreAnswers where
  storeContentFromSource : (hostId : String) → CacheSource → Except Status StoreContentFromSourceResponse
  storeContentFromSourceWithLock :
    (hostId : String) → CacheSource → Except Status StoreContentFromSourceWithLockResponse

def hashOf : Except Status StoreContentFromSourceResponse → Except ClientError String
  | .error status => .error (.rpc status)
  | .ok resp => if resp.ok then .ok resp.hash else .error .unableToPopulateContent

def hashOfLocked : Except Status StoreContentFromSourceWithLockResponse → Except ClientError String
  | .error status => .error (.rpc status)
  | .ok resp =>
    if resp.failedToAcquireLock then .error .unableToAcquireLock
    else if resp.ok then .ok resp.hash
    else .error .unableToPopulateContent

namespace BlobCacheClient

/-- What `StoreContentFromFUSE` and `StoreContentFromS3` do with their source. -/
def storeContentFrom (c : BlobCacheClient) (answers : StoreAnswers) (request : ClientRequest) (source : CacheSource)
    (lock : Bool) : BlobCacheClient × Except ClientError String :=
  match c.getGRPCClient request with
  | (c, .error e) => (c, .error e)
  | (c, .ok host) =>
    if lock then (c, hashOfLocked (answers.storeContentFromSourceWithLock host.hostId source))
    else (c, hashOf (answers.storeContentFromSource host.hostId source))

def storeContentFromFUSE (c : BlobCacheClient) (answers : StoreAnswers) (path routingKey : String) (lock : Bool) :
    BlobCacheClient × Except ClientError String :=
  c.storeContentFrom answers ⟨.storage, path, if routingKey = "" then path else routingKey, 0⟩
    ⟨path, "", "", "", "", ""⟩ lock

/-- The name of an S3 object that routes its requests. -/
def s3RoutingKey (source : CacheSource) : String :=
  source.endpointUrl ++ "/" ++ source.region ++ "/" ++ source.bucketName ++ "/" ++ source.path

/-- `StoreContentFromS3`, whose request names no hash. -/
def storeContentFromS3 (c : BlobCacheClient) (answers : StoreAnswers) (source : CacheSource) (routingKey : String)
    (lock : Bool) : BlobCacheClient × Except ClientError String :=
  c.storeContentFrom answers ⟨.storage, "", if routingKey = "" then s3RoutingKey source else routingKey, 0⟩ source lock

end BlobCacheClient

/-! ## Hosts that run the handlers -/

variable {σ : Type}

/-- A host, its state when the request arrives, and what the handler meets. -/
structure StoreHost (σ : Type) where
  service : CacheService σ
  state : ServiceState σ
  world : World
  meanwhile : List (Meanwhile σ)

/-- An error of a handler reaches the client without the response. -/
def StoreHost.answer (h : StoreHost σ) (source : CacheSource) : Except Status StoreContentFromSourceResponse :=
  match storeContentFromSource h.service h.world h.state source with
  | some (_, resp, none) => .ok resp
  | some (_, _, some cause) => .error ⟨.unknown, cause⟩
  -- never: the handler returns (`storeContentFromSource_taken`)
  | none => .error ⟨.unknown, ""⟩

def StoreHost.answerWithLock (h : StoreHost σ) (source : CacheSource) :
    Except Status StoreContentFromSourceWithLockResponse :=
  match storeContentFromSourceWithLock h.service h.world h.meanwhile h.state source with
  | some (_, .returned resp) => .ok resp
  -- a host that panics breaks the connection
  | some (_, .panicked) => .error ⟨.unknown, "EOF"⟩
  | none => .error ⟨.unknown, ""⟩

def servedBy (hosts : String → StoreHost σ) : StoreAnswers :=
  ⟨fun hostId => (hosts hostId).answer, fun hostId => (hosts hostId).answerWithLock⟩

/-- What the host reads from the source. -/
def StoreHost.read (h : StoreHost σ) (source : CacheSource) : Except String Bytes :=
  (readSource h.world h.state.s3ClientCache source).2

/-- The host has a coordinator, and gets the lock of the source from it. -/
def StoreHost.Acquires (h : StoreHost σ) (source : CacheSource) : Prop :=
  ∃ coordinator, h.service.coordinator = some coordinator ∧
    (coordinator.setStoreFromContentLock h.state.coordination h.service.locality source.path).2 = none

/-- `CAS.Add` of the bytes of the source under that hash succeeds on the host. -/
def StoreHost.Adds (h : StoreHost σ) (source : CacheSource) (hash : String) : Prop :=
  ∃ bytes cas', h.read source = .ok bytes ∧
    h.state.cas.add h.service.config h.world.add hash bytes = some (cas', .ok ())

/-- A source that the host can read is stored on it. -/
def StoreHost.Stores (h : StoreHost σ) (source : CacheSource) : Prop :=
  ∀ bytes, h.read source = .ok bytes → Stored h.service h.world h.state.cas source bytes

/-- With and without the lock the same hashes are returned, and only of what was added. -/
structure Agree (result : (lock : Bool) → Except ClientError String) (Added : String → Prop) : Prop where
  same : ∀ hash, result true = .ok hash ↔ result false = .ok hash
  added : ∀ lock hash, result lock = .ok hash → Added hash

/-- A call of one of the two methods. -/
inductive StoreCall where
  | fuse (path routingKey : String)
  | s3 (source : CacheSource) (routingKey : String)

namespace StoreCall

def run (c : BlobCacheClient) (answers : StoreAnswers) (lock : Bool) :
    StoreCall → BlobCacheClient × Except ClientError String
  | .fuse path routingKey => c.storeContentFromFUSE answers path routingKey lock
  | .s3 source routingKey => c.storeContentFromS3 answers source routingKey lock

def source : StoreCall → CacheSource
  | .fuse path _ => ⟨path, "", "", "", "", ""⟩
  | .s3 source _ => source

def request : StoreCall → ClientRequest
  | .fuse path routingKey => ⟨.storage, path, if routingKey = "" then path else routingKey, 0⟩
  | .s3 source routingKey =>
    ⟨.storage, "", if routingKey = "" then BlobCacheClient.s3RoutingKey source else routingKey, 0⟩

theorem run_eq (call : StoreCall) (c : BlobCacheClient) (answers : StoreAnswers) (lock : Bool) :
    call.run c answers lock = c.storeContentFrom answers call.request call.source lock := by
  cases call <;> rfl

/-- The call is sent to this host. -/
def SentTo (call : StoreCall) (c : BlobCacheClient) (host : BlobCacheHost) : Prop :=
  (c.getGRPCClient call.request).2 = .ok host

end StoreCall

/-- What the client makes of the host's answer. -/
def StoreHost.result (h : StoreHost σ) (source : CacheSource) (lock : Bool) : Except ClientError String :=
  if lock then hashOfLocked (h.answerWithLock source) else hashOf (h.answer source)

/-- Without the lock the client looks at the error and at `Ok`. -/
theorem StoreHost.result_unlocked (h : StoreHost σ) (source : CacheSource) :
    ∃ resp err, SourceTaken h.service h.world h.state.cas source (h.read source) (resp, err) ∧
      h.result source false = match err with
        | some cause => .error (.rpc ⟨.unknown, cause⟩)
        | none => if resp.ok then .ok resp.hash else .error .unableToPopulateContent := by
  obtain ⟨_, ⟨resp, err⟩, run, taken⟩ := storeContentFromSource_taken h.service h.world h.state source
  refine ⟨resp, err, taken, ?_⟩
  cases err <;> simp [StoreHost.result, StoreHost.answer, run, hashOf]

/-- With the lock, `Ok` is lost between the two handlers. -/
theorem StoreHost.result_locked {h : StoreHost σ} {source : CacheSource} (acquires : h.Acquires source) :
    ∃ resp err, SourceTaken h.service h.world h.state.cas source (h.read source) (resp, err) ∧
      h.result source true = match err with
        | some _ => .error .unableToPopulateContent
        | none => .ok resp.hash := by
  obtain ⟨coordinator, coordinated, acquired⟩ := acquires
  obtain ⟨_, ⟨resp, err⟩, _, taken, run, rfl⟩ :=
    storeContentFromSourceWithLock_taken coordinated h.world h.meanwhile acquired
  refine ⟨resp, err, taken, ?_⟩
  cases err <;> simp [StoreHost.result, StoreHost.answerWithLock, run, hashOfLocked]

section

variable {h : StoreHost σ} {source : CacheSource} {bytes : Bytes}

/-- A source that cannot be read is an error either way. -/
theorem StoreHost.result_unread (acquires : h.Acquires source) {cause : String} (unread : h.read source = .error cause)
    (lock : Bool) (hash : String) : h.result source lock ≠ .ok hash := by
  obtain ⟨_, _, taken, unlocked⟩ := h.result_unlocked source
  obtain ⟨_, _, taken', locked⟩ := StoreHost.result_locked acquires
  rw [unread] at taken taken'
  cases taken
  cases taken'
  cases lock
  · rw [unlocked]
    exact nofun
  · rw [locked]
    exact nofun

/-- What is read and stored is returned under its hash either way. -/
theorem StoreHost.result_stored (acquires : h.Acquires source) (read : h.read source = .ok bytes)
    (all : Stored h.service h.world h.state.cas source bytes) (lock : Bool) :
    h.result source lock = .ok (contentHash h.service.sha256 bytes) := by
  obtain ⟨_, _, taken, unlocked⟩ := h.result_unlocked source
  obtain ⟨_, _, taken', locked⟩ := StoreHost.result_locked acquires
  rw [read] at taken taken'
  cases taken with
  | refused _ failed => exact absurd all failed
  | stored _ =>
    cases taken' with
    | refused _ failed => exact absurd all failed
    | stored _ =>
      cases lock
      · exact unlocked
      · exact locked

/-- What is read and not stored is an error without the lock, and the empty hash with it. -/
theorem StoreHost.result_refused (acquires : h.Acquires source) (read : h.read source = .ok bytes)
    (failed : ¬ Stored h.service h.world h.state.cas source bytes) :
    h.result source true = .ok "" ∧ h.result source false = .error .unableToPopulateContent := by
  obtain ⟨_, _, taken, unlocked⟩ := h.result_unlocked source
  obtain ⟨_, _, taken', locked⟩ := StoreHost.result_locked acquires
  rw [read] at taken taken'
  cases taken with
  | stored all => exact absurd all failed
  | refused _ _ =>
    cases taken' with
    | stored all => exact absurd all failed
    | refused _ _ => exact ⟨locked, unlocked⟩

/-- On one host the two ways agree exactly when what is read is also stored. -/
theorem StoreHost.agree_iff (acquires : h.Acquires source) :
    Agree (h.result source) (h.Adds source) ↔ h.Stores source := by
  constructor
  · intro agree bytes read
    by_contra failed
    obtain ⟨locked, unlocked⟩ := StoreHost.result_refused acquires read failed
    rw [(agree.same "").mp locked] at unlocked
    cases unlocked
  · intro stores
    cases read : h.read source with
    | error cause =>
      have never := StoreHost.result_unread acquires read
      exact ⟨fun hash => iff_of_false (never true hash) (never false hash),
        fun lock hash returned => absurd returned (never lock hash)⟩
    | ok bytes =>
      have all := stores bytes read
      obtain ⟨cas', added⟩ := all.added
      have result := StoreHost.result_stored acquires read all
      refine ⟨fun hash => by rw [result, result], fun lock hash returned => ?_⟩
      rw [result] at returned
      cases returned
      exact ⟨bytes, cas', read, added⟩

end

/-- The client returns what the host it finds makes of the call. -/
theorem StoreCall.run_result (call : StoreCall) (c : BlobCacheClient) (hosts : String → StoreHost σ) (lock : Bool) :
    (call.run c (servedBy hosts) lock).2 = match (c.getGRPCClient call.request).2 with
      | .error e => .error e
      | .ok host => (hosts host.hostId).result call.source lock := by
  simp only [StoreCall.run_eq, BlobCacheClient.storeContentFrom]
  rcases c.getGRPCClient call.request with ⟨c', e | host⟩
  · rfl
  · cases lock <;> rfl

/-- **With and without the lock.** For a call whose host gets the lock, the two ways return
the same hashes, and only of what `CAS.Add` has stored, exactly when the host stores what
it reads. -/
theorem lock_agrees_iff (c : BlobCacheClient) (hosts : String → StoreHost σ) (call : StoreCall)
    (acquires : ∀ host, call.SentTo c host → (hosts host.hostId).Acquires call.source) :
    Agree (fun lock => (call.run c (servedBy hosts) lock).2)
      (fun hash => ∃ host, call.SentTo c host ∧ (hosts host.hostId).Adds call.source hash) ↔
    ∀ host, call.SentTo c host → (hosts host.hostId).Stores call.source := by
  simp only [StoreCall.run_result, StoreCall.SentTo] at acquires ⊢
  generalize (c.getGRPCClient call.request).2 = found at acquires ⊢
  cases found with
  | error e =>
    constructor
    · intro _ host sent
      cases sent
    · intro _
      exact ⟨fun _ => .rfl, fun _ _ returned => by cases returned⟩
  | ok host =>
    simp only [Except.ok.injEq, exists_eq_left', forall_eq'] at acquires ⊢
    exact StoreHost.agree_iff acquires

/-- The source is a file with one byte, which is stored. -/
def oneByteHost (storeContentInBlobFs : Option String) : StoreHost Coordinator.RedisLock where
  service := ⟨fun _ => ⟨List.replicate 32 0, rfl⟩, oneBytePages, "here", some coordinatorClientLocal⟩
  state := ⟨Cas.fresh, fun _ => none, Coordinator.RedisLock.new⟩
  world := {
    localFile := fun _ => ⟨none, none, [7], none⟩
    loadDefaultConfig := fun _ => none
    downloadIntoBuffer := fun _ _ => .error ""
    add := quietStore
    storeContentInBlobFs := fun _ _ _ => storeContentInBlobFs }
  meanwhile := [.refresh]

theorem oneByteHost_acquires (storeContentInBlobFs : Option String) :
    (oneByteHost storeContentInBlobFs).Acquires (StoreCall.fuse "f" "").source :=
  ⟨coordinatorClientLocal, rfl, rfl⟩

theorem lock_agrees_oneByte :
    Agree (fun lock => ((StoreCall.fuse "f" "").run BlobCacheClient.ofTwoHosts
        (servedBy fun _ => oneByteHost none) lock).2)
      (fun hash => ∃ host, (StoreCall.fuse "f" "").SentTo BlobCacheClient.ofTwoHosts host ∧
        (oneByteHost none).Adds (StoreCall.fuse "f" "").source hash) := by
  apply (lock_agrees_iff BlobCacheClient.ofTwoHosts (fun _ => oneByteHost none) (.fuse "f" "")
    (fun _ _ => oneByteHost_acquires none)).mpr
  intro host _ bytes read
  have one : (Except.ok [7] : Except String Bytes) = .ok bytes := read
  cases one
  exact ⟨⟨_, rfl⟩, fun _ _ => rfl⟩

/-- The node of the file cannot be stored. With the lock the client returns the empty hash
as if it were that of the content. -/
theorem lost_failure :
    let call := StoreCall.fuse "f" ""
    let hosts := fun _ : String => oneByteHost (some "connection refused")
    (∀ host, call.SentTo BlobCacheClient.ofTwoHosts host → (hosts host.hostId).Acquires call.source) ∧
      (call.run BlobCacheClient.ofTwoHosts (servedBy hosts) true).2 = .ok "" ∧
      (call.run BlobCacheClient.ofTwoHosts (servedBy hosts) false).2 = .error .unableToPopulateContent := by
  refine ⟨fun _ _ => oneByteHost_acquires _, ?_, ?_⟩
  · decide
  · decide

end Blobcache.Client
