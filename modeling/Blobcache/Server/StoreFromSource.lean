import Blobcache.Lib.FilePath
import Blobcache.Server.Content
import Blobcache.Coordinator.StoreLock

/-!
# Storing from a source

`server.go`: `StoreContentFromSource` reads a local file or an S3 object and stores it;
`StoreContentFromSourceWithLock` does so under the lock of the source. The first one
reports a failure in two ways: a source that cannot be read is a Go error, a store that
fails is a response that is not `Ok`. The second one looks at the error only.

What the file system, S3, the disk and the file-system metadata answer during a call is a
`World`. The coordinator is any implementation of its interface.
-/

namespace Blobcache.Server
set_option autoImplicit false
open Storage

structure CacheSource where
  path : String
  bucketName : String
  region : String
  endpointUrl : String
  accessKey : String
  secretKey : String
  deriving DecidableEq, Repr

/-- An error of `os.Stat`. -/
structure StatError where
  notExist : Bool
  text : String
  deriving DecidableEq, Repr

/-- What reading a local file meets: the error of each step, if it fails. -/
structure LocalFile where
  stat : Option StatError
  openError : Option String
  content : Bytes
  copyError : Option String
  deriving DecidableEq, Repr

structure S3SourceConfig where
  bucketName : String
  region : String
  endpointURL : String
  accessKey : String
  secretKey : String
  deriving DecidableEq, Repr

structure S3Client where
  source : S3SourceConfig
  deriving DecidableEq, Repr

/-- What a call meets outside the server. -/
structure World where
  localFile : String → LocalFile
  loadDefaultConfig : S3SourceConfig → Option String
  downloadIntoBuffer : S3Client → String → Except String Bytes
  /-- The schedule of `CAS.Add`. -/
  add : Nat → Around StoreChoice
  storeContentInBlobFs : (path hash : String) → (size : Nat) → Option String

/-! ## Reading the source -/

def cacheSourceFromLocalPath (file : LocalFile) : Except String Bytes :=
  match file.stat.filter (·.notExist) with
  | some e => .error e.text
  | none =>
    match file.openError with
    | some cause => .error cause
    | none =>
      match file.copyError with
      | some cause => .error cause
      | none => .ok file.content

def newS3Client (world : World) (source : S3SourceConfig) : Except String S3Client :=
  match world.loadDefaultConfig source with
  | some cause => .error ("failed to load AWS config: " ++ cause)
  | none => .ok ⟨source⟩

/-- `cacheSourceFromS3`: the clients cached afterwards, and what was read. -/
def cacheSourceFromS3 (world : World) (s3ClientCache : String → Option S3Client) (source : CacheSource) :
    (String → Option S3Client) × Except String Bytes :=
  let key := source.endpointUrl ++ "/" ++ source.region ++ "/" ++ source.bucketName
  match s3ClientCache key with
  | some s3Client => (s3ClientCache, world.downloadIntoBuffer s3Client source.path)
  | none =>
    match newS3Client world
      ⟨source.bucketName, source.region, source.endpointUrl, source.accessKey, source.secretKey⟩ with
    | .error cause => (s3ClientCache, .error cause)
    | .ok s3Client =>
      (Function.update s3ClientCache key (some s3Client), world.downloadIntoBuffer s3Client source.path)

/-- `filepath.Join("/", req.Source.Path)`. -/
def CacheSource.localPath (source : CacheSource) : String := FilePath.join ["/", source.path]

def readSource (world : World) (s3ClientCache : String → Option S3Client) (source : CacheSource) :
    (String → Option S3Client) × Except String Bytes :=
  if source.bucketName = "" then (s3ClientCache, cacheSourceFromLocalPath (world.localFile source.localPath))
  else cacheSourceFromS3 world s3ClientCache source

/-! ## The handlers -/

/-- The methods of `CoordinatorClient` for the lock of a source, over the lock's state; the
answer is the error, if the call fails. -/
structure CoordinatorClient (σ : Type) where
  setStoreFromContentLock : σ → (locality sourcePath : String) → σ × Option String
  refreshStoreFromContentLock : σ → (locality sourcePath : String) → σ × Option String
  removeStoreFromContentLock : σ → (locality sourcePath : String) → σ × Option String

/-- What `CacheService` is set up with. -/
structure CacheService (σ : Type) where
  sha256 : Bytes → Digest
  config : Config
  locality : String
  coordinator : Option (CoordinatorClient σ)

structure ServiceState (σ : Type) where
  cas : Cas
  s3ClientCache : String → Option S3Client
  /-- The lock's state at the coordinator. -/
  coordination : σ

structure StoreContentFromSourceResponse where
  ok : Bool
  hash : String
  errorMsg : String
  deriving DecidableEq, Repr

structure StoreContentFromSourceWithLockResponse where
  hash : String
  ok : Bool
  failedToAcquireLock : Bool
  errorMsg : String
  deriving DecidableEq, Repr

def Code.name : Code → String
  | .unknown => "Unknown"
  | .notFound => "NotFound"
  | .internal => "Internal"

/-- `err.Error()` of a status. -/
def Status.error (status : Status) : String := "rpc error: code = " ++ status.code.name ++ " desc = " ++ status.message

variable {σ : Type}

/-- `StoreContentFromSource`: the response and the error, as the handler returns them. -/
def storeContentFromSource (service : CacheService σ) (world : World) (state : ServiceState σ) (source : CacheSource) :
    Option (ServiceState σ × StoreContentFromSourceResponse × Option String) :=
  match readSource world state.s3ClientCache source with
  | (s3ClientCache, .error cause) =>
    some ({ state with s3ClientCache := s3ClientCache }, ⟨false, "", cause⟩, some cause)
  | (s3ClientCache, .ok buffer) =>
    match store service.sha256 service.config world.add state.cas buffer with
    | none => none
    | some (cas, .error status) => some (⟨cas, s3ClientCache, state.coordination⟩, ⟨false, "", status.error⟩, none)
    | some (cas, .ok hash) =>
      let state' : ServiceState σ := ⟨cas, s3ClientCache, state.coordination⟩
      if service.coordinator.isSome ∧ source.bucketName = "" then
        match world.storeContentInBlobFs source.localPath hash buffer.length with
        | some cause => some (state', ⟨false, "", cause⟩, none)
        | none => some (state', ⟨true, hash, ""⟩, none)
      else some (state', ⟨true, hash, ""⟩, none)

/-- What happens to the lock's state while the content is stored. -/
inductive Meanwhile (σ : Type) where
  /-- The handler's ticker. -/
  | refresh
  /-- The clock, and the calls of other servers. -/
  | others (change : σ → σ)

def Meanwhile.step (coordinator : CoordinatorClient σ) (locality sourcePath : String) (s : σ) : Meanwhile σ → σ
  | .refresh => (coordinator.refreshStoreFromContentLock s locality sourcePath).1
  | .others change => change s

/-- `StoreContentFromSourceWithLock`, whose error is always `nil`. A server without a
coordinator panics. -/
def storeContentFromSourceWithLock (service : CacheService σ) (world : World) (meanwhile : List (Meanwhile σ))
    (state : ServiceState σ) (source : CacheSource) :
    Option (ServiceState σ × Outcome StoreContentFromSourceWithLockResponse) :=
  match service.coordinator with
  | none => some (state, .panicked)
  | some coordinator =>
    match coordinator.setStoreFromContentLock state.coordination service.locality source.path with
    | (s, some cause) => some ({ state with coordination := s }, .returned ⟨"", false, true, cause⟩)
    | (s, none) =>
      let s := meanwhile.foldl (Meanwhile.step coordinator service.locality source.path) s
      match storeContentFromSource service world { state with coordination := s } source with
      | none => none
      | some (state, _, some cause) => some (state, .returned ⟨"", false, false, cause⟩)
      | some (state, resp, none) =>
        -- an error of the removal is only logged
        let s := (coordinator.removeStoreFromContentLock state.coordination service.locality source.path).1
        some ({ state with coordination := s }, .returned ⟨resp.hash, true, false, ""⟩)

/-- What `CoordinatorClientLocal` answers. -/
def lockAnswer : Coordinator.RedisLock × Except Coordinator.LockError Unit → Coordinator.RedisLock × Option String
  | (l, .ok ()) => (l, none)
  | (l, .error e) => (l, some e.text)

/-- `CoordinatorClientLocal`, over the lock table and Redis. -/
def coordinatorClientLocal : CoordinatorClient Coordinator.RedisLock where
  setStoreFromContentLock l locality sourcePath :=
    lockAnswer (Coordinator.setStoreFromContentLock l locality sourcePath)
  refreshStoreFromContentLock l locality sourcePath :=
    lockAnswer (Coordinator.refreshStoreFromContentLock l locality sourcePath)
  removeStoreFromContentLock l locality sourcePath :=
    lockAnswer (Coordinator.removeStoreFromContentLock l locality sourcePath)

/-! ## What the handlers answer -/

/-- Everything after reading the source succeeds: `Add`, and the node of the file where the
handler stores one. -/
structure Stored (service : CacheService σ) (world : World) (cas : Cas) (source : CacheSource) (bytes : Bytes) :
    Prop where
  added : ∃ cas', cas.add service.config world.add (contentHash service.sha256 bytes) bytes = some (cas', .ok ())
  node : service.coordinator.isSome → source.bucketName = "" →
    world.storeContentInBlobFs source.localPath (contentHash service.sha256 bytes) bytes.length = none

/-- The three ways `StoreContentFromSource` ends. -/
inductive SourceTaken (service : CacheService σ) (world : World) (cas : Cas) (source : CacheSource) :
    Except String Bytes → StoreContentFromSourceResponse × Option String → Prop where
  | unread (cause : String) : SourceTaken service world cas source (.error cause) (⟨false, "", cause⟩, some cause)
  | stored {bytes : Bytes} (all : Stored service world cas source bytes) :
      SourceTaken service world cas source (.ok bytes) (⟨true, contentHash service.sha256 bytes, ""⟩, none)
  | refused {bytes : Bytes} (text : String) (failed : ¬ Stored service world cas source bytes) :
      SourceTaken service world cas source (.ok bytes) (⟨false, "", text⟩, none)

theorem storeContentFromSource_taken (service : CacheService σ) (world : World) (state : ServiceState σ)
    (source : CacheSource) :
    ∃ state' answer, storeContentFromSource service world state source = some (state', answer) ∧
      SourceTaken service world state.cas source (readSource world state.s3ClientCache source).2 answer := by
  unfold storeContentFromSource
  rcases readSource world state.s3ClientCache source with ⟨clients, cause | bytes⟩
  · exact ⟨_, _, rfl, .unread cause⟩
  obtain ⟨cas', result, returned⟩ :=
    add_returns (contentHash_plain service.sha256 bytes).separators service.config world.add state.cas bytes
  cases result with
  | error e =>
    simp only [store, returned]
    refine ⟨_, _, rfl, .refused _ fun all => ?_⟩
    obtain ⟨_, added⟩ := all.added
    rw [returned] at added
    cases added
  | ok _ =>
    simp only [store, returned]
    split
    case isTrue needed =>
      cases node : world.storeContentInBlobFs source.localPath (contentHash service.sha256 bytes) bytes.length with
      | none => exact ⟨_, _, rfl, .stored ⟨⟨cas', returned⟩, fun _ _ => node⟩⟩
      | some cause =>
        refine ⟨_, _, rfl, .refused cause fun all => ?_⟩
        rw [all.node needed.1 needed.2] at node
        cases node
    case isFalse unneeded =>
      exact ⟨_, _, rfl, .stored ⟨⟨cas', returned⟩, fun some empty => absurd ⟨some, empty⟩ unneeded⟩⟩

/-- With the lock, a response that is not `Ok` becomes one that is, without a hash. -/
theorem storeContentFromSourceWithLock_taken {service : CacheService σ} {coordinator : CoordinatorClient σ}
    (coordinated : service.coordinator = some coordinator) (world : World) (meanwhile : List (Meanwhile σ))
    {state : ServiceState σ} {source : CacheSource}
    (acquired : (coordinator.setStoreFromContentLock state.coordination service.locality source.path).2 = none) :
    ∃ state' answer resp, SourceTaken service world state.cas source
        (readSource world state.s3ClientCache source).2 answer ∧
      storeContentFromSourceWithLock service world meanwhile state source = some (state', .returned resp) ∧
      resp = match answer with
        | (_, some cause) => ⟨"", false, false, cause⟩
        | (inner, none) => ⟨inner.hash, true, false, ""⟩ := by
  rcases lock : coordinator.setStoreFromContentLock state.coordination service.locality source.path with ⟨s, failure⟩
  rw [lock] at acquired
  cases acquired
  simp only [storeContentFromSourceWithLock, coordinated, lock]
  obtain ⟨state', ⟨inner, err⟩, run, taken⟩ := storeContentFromSource_taken service world
    { state with coordination := meanwhile.foldl (Meanwhile.step coordinator service.locality source.path) s } source
  rw [run]
  cases err with
  | none => exact ⟨_, _, _, taken, rfl, rfl⟩
  | some cause => exact ⟨_, _, _, taken, rfl, rfl⟩

end Blobcache.Server
