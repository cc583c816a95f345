import Blobcache.Server.RoundTrip
import Blobcache.Client.ReadOwnWrites
import Blobcache.FileSystem.NodeIds
import Blobcache.FileSystem.Read

/-!
# A stored file is read through the mount

The way of a file from its source to a program that reads it: `StoreContentFromSource` reads
it, adds it to the storage of the server and stores its node in Redis; `Lookup` returns the
node, with the hash, the size and the path; `Read` asks the client for the hash, by the path
as routing key; the client asks the first host of that key, and the host reads its storage.

Each stage has been described on its own. Here they are put together. The server has stored
the file with the usage flag unset, and no disk access of it has failed, before the store or
since; Redis still has the node; and the client comes to that server first. Then a read that
ends inside the file returns the bytes of the file, and so does one beyond its end unless the
last chunk is full.
-/

namespace Blobcache.FileSystem
set_option autoImplicit false
open Service Execution FilePath
open Coordinator (BlobFsMetadata FsCall Connection storedNode)
open Redis (Keyspace)
open Storage (Cas Bytes Around StoreChoice Config Enabled Complete OnDisk)
open Server (CacheService CacheSource ServiceState StoreContentFromSourceResponse storeContentFromSource readSource
  Event FaultFreeEvent contentOf contentHash GetContentRequest GetContentResponse Status)
open Blobcache.Client (BlobCacheClient BlobCacheHost Responses contentIn oneByteHost)

/-! ## The server -/

/-- What a client gets of the handler's answer. A host that panics breaks the connection. -/
def received : Option (Cas × Server.Outcome GetContentResponse) → Except Status GetContentResponse
  | some (_, .returned resp) => .ok resp
  | some (_, .panicked) => .error ⟨.unknown, "EOF"⟩
  -- never: the handler returns
  | none => .error ⟨.unknown, ""⟩

variable {σ : Type}

/-- A server whose disk accesses have not failed stores a regular file, whose content is
`bytes`, with the usage flag unset throughout, and answers that it did. Its storage is `state'`
then, and Redis is `ks'`. -/
structure StoresFile (sha256 : List UInt8 → List UInt8) (contents : Set Bytes) (maxAlloc : Nat) (b : BlobFs)
    (service : CacheService σ) (world : Server.World) (source : CacheSource) (bytes : Bytes)
    (state state' : ServiceState σ) (hash : String) (ks ks' : Keyspace) : Prop where
  coordinated : service.coordinator.isSome
  noBucket : source.bucketName = ""
  history : Trace (Event.step service.sha256 maxAlloc service.config) (FaultFreeEvent maxAlloc contents) Cas.fresh
    state.cas
  enabled : state.cas.diskCachedUsageExceeded = false
  throughout : Enabled world.add
  faultless : ∀ n, (world.add n).choice.disk = .ok
  read : (readSource world state.s3ClientCache source).2 = .ok bytes
  regular : ∃ info, b.stat = .ok info ∧ info.isDir = false
  responded : storeContentFromSource service (b.world sha256 ks world) state source = some (state', ⟨true, hash, ""⟩, none)
  redis : ks' = (b.store sha256 ks source.localPath hash bytes.length).2

section

variable {sha256 : List UInt8 → List UInt8} {contents : Set Bytes} {maxAlloc : Nat} {b : BlobFs}
  {service : CacheService σ} {world : Server.World} {source : CacheSource} {bytes : Bytes}
  {state state' : ServiceState σ} {hash : String} {ks ks' : Keyspace}

namespace StoresFile

/-- What the handler has done: the file is added under its hash, and its node is stored. -/
theorem done (h : StoresFile sha256 contents maxAlloc b service world source bytes state state' hash ks ks') :
    hash = contentHash service.sha256 bytes ∧
      state.cas.add service.config world.add hash bytes = some (state'.cas, .ok ()) ∧
      b.store sha256 ks source.localPath hash bytes.length = (.ok (), ks') := by
  have responded := h.responded
  rcases reads : readSource world state.s3ClientCache source with ⟨clients, result⟩
  have read := h.read
  rw [reads] at read
  cases read
  rw [storeContentFromSource, readSource_local h.noBucket, reads] at responded
  have added : (b.world sha256 ks world).add = world.add := by simp only [BlobFs.world]
  simp only [Server.store, added] at responded
  rcases ran : state.cas.add service.config world.add (contentHash service.sha256 bytes) bytes with _ | ⟨cas, e | _⟩
  · rw [ran] at responded
    cases responded
  · rw [ran] at responded
    cases responded
  · simp only [ran, if_pos (And.intro h.coordinated h.noBucket), BlobFs.world_storeContentInBlobFs] at responded
    cases answered : b.answer sha256 ks source.localPath (contentHash service.sha256 bytes) bytes.length with
    | some cause =>
      rw [answered] at responded
      cases responded
    | none =>
      rw [answered] at responded
      cases responded
      refine ⟨rfl, ran, ?_⟩
      rw [h.redis]
      exact BlobFs.store_of_answer answered

variable (distinct : Set.InjOn service.sha256 contents) (member : bytes ∈ contents)

include distinct member

/-- In every state from then on the file is whole. -/
theorem complete (h : StoresFile sha256 contents maxAlloc b service world source bytes state state' hash ks ks')
    {t : Cas}
    (later : Trace (Event.step service.sha256 maxAlloc service.config) (FaultFreeEvent maxAlloc contents) state'.cas t) :
    Complete service.config (contentOf service.sha256 contents) hash t ∧
      contentOf service.sha256 contents hash = bytes := by
  obtain ⟨rfl, added, -⟩ := h.done
  have object := Server.contentOf_hash distinct member
  have plain := (Server.contentHash_plain service.sha256 bytes).separators
  obtain ⟨clean₀, -⟩ := Server.faultFreeEvent_run distinct h.history Storage.Tiers.fresh
  obtain ⟨s', r, again, clean, -⟩ := Storage.add_keeps plain clean₀ h.faultless
  rw [object, added] at again
  cases again
  have disk : OnDisk service.config (contentOf service.sha256 contents) (contentHash service.sha256 bytes) state'.cas :=
    Storage.add_on_disk plain h.enabled h.throughout (by rw [object]; exact added)
  obtain ⟨clean', keeps⟩ := Server.faultFreeEvent_run distinct later clean
  exact ⟨Storage.Clean.complete clean' (keeps _ disk), object⟩

/-- The server answers a read that ends inside the file, or beyond it unless its last chunk is full. -/
theorem answers (h : StoresFile sha256 contents maxAlloc b service world source bytes state state' hash ks ks')
    (small : bytes.length < 2 ^ 63) {t : Cas}
    (later : Trace (Event.step service.sha256 maxAlloc service.config) (FaultFreeEvent maxAlloc contents) state'.cas t)
    (sched : Nat → Around Bool) {req : GetContentRequest} (object : req.hash = hash) {off len : Nat}
    (offset : req.offset = off) (length : req.length = len) (allocated : len ≤ maxAlloc) (start : off ≤ bytes.length)
    (ends : off + len ≤ bytes.length ∨ bytes.length % service.config.pageSizeBytes ≠ 0) :
    contentIn (received (Server.getContent maxAlloc service.config sched t req)) = some ((bytes.drop off).take len) := by
  obtain ⟨complete, content⟩ := h.complete distinct member later
  have inRange : len < 2 ^ 63 := by
    have := req.length_inRange.2
    omega
  rw [← content] at small start ends ⊢
  by_cases inside : off + len ≤ (contentOf service.sha256 contents hash).length
  · obtain ⟨t', answer⟩ := Server.Complete.getContent complete small sched object offset length inside
      allocated
    rw [answer]
    rfl
  · have room : len ≤ (List.replicate len (0 : UInt8)).length := by simp
    obtain ⟨t', f, run, copied⟩ := (complete.past_end small sched start (by omega) inRange room).mpr
      (ends.resolve_left inside)
    simp only [Server.getContent, object, offset, length, Int.toNat_natCast]
    rw [if_neg (by omega), run]
    simp only [received, contentIn, Int.toNat_natCast, if_true, copied]
    rw [Option.some_inj, List.take_eq_take_iff, List.length_drop]
    omega

end StoresFile

/-! ## The node -/

/-- The node that `Lookup` finds: at the path, with the hash and the size of the file. -/
theorem StoresFile.node (noCollisions : Function.Injective (generateFsID sha256)) {p : List Component}
    (proper : ∀ c ∈ p, Proper c) (some_component : p ≠ []) (path : source.path = rooted p)
    (h : StoresFile sha256 contents maxAlloc b service world source bytes state state' hash ks ks') :
    ∃ m, storedNode ks' (generateFsID sha256 source.path) = some m ∧ m.path = source.path ∧ m.hash = hash ∧
      m.size = .ofNat bytes.length := by
  obtain ⟨-, -, stored⟩ := h.done
  obtain ⟨info, stat, isFile⟩ := h.regular
  have localPath : source.localPath = rooted p := by
    rw [CacheSource.localPath, path]
    exact join_root_rooted proper
  have cleanPath : join ["/", clean (b.file source.localPath hash bytes.length).path] = rooted p := by
    show join ["/", clean source.localPath] = rooted p
    rw [localPath, clean_rooted proper]
    exact join_root_rooted proper
  rw [BlobFs.store] at stored
  have chained := storeContentInBlobFs_chained noCollisions proper some_component cleanPath stored
  rcases p.eq_nil_or_concat with rfl | ⟨q, c, rfl⟩
  · exact absurd rfl some_component
  · rw [List.concat_eq_append] at chained path
    obtain ⟨m, held, node⟩ := chained.node q c [] rfl
    obtain ⟨info', stat', hash', size⟩ := node.content rfl
    cases stat.symm.trans stat'
    rw [isFile] at hash' size
    refine ⟨m, ?_, node.isNode.path.trans path.symm, hash', size⟩
    rw [path]
    exact held

end

/-! ## The client -/

/-- The first host that is asked has the content. -/
theorem getContent_first {c : BlobCacheClient} {responses : Responses} {req : GetContentRequest} {routingKey : String}
    {host : BlobCacheHost} {content : Bytes}
    (asked : c.askedAt req.hash (BlobCacheClient.keyOf req routingKey) 0 = some host)
    (answer : contentIn (responses 0 host.hostId req) = some content) :
    (c.getContent responses req routingKey).result = .ok content := by
  have never : ¬ Blobcache.Client.Fails c responses req (BlobCacheClient.keyOf req routingKey) (0 + 0) := by
    rintro ⟨other, asked', missing⟩
    cases asked.symm.trans asked'
    rw [answer] at missing
    cases missing
  have some_attempt := Blobcache.Client.Cluster.maxAttempts_pos c req.length
  cases Blobcache.Client.getContent_retrieved c responses req routingKey with
  | miss fails => exact absurd (fails 0 some_attempt) never
  | stuck i _ fails noHost =>
    rcases Nat.eq_zero_or_pos i with rfl | later
    · cases asked.symm.trans noHost
    · exact absurd (fails 0 later) never
  | hit i other content' _ fails asked' answer' result =>
    rcases Nat.eq_zero_or_pos i with rfl | later
    · cases asked.symm.trans asked'
      cases answer.symm.trans answer'
      exact result
    · exact absurd (fails 0 later) never

/-- The client of a mount asks the host first for the hash, by the path. -/
structure AsksFirst (client : BlobCacheClient) (host : BlobCacheHost) (path hash : String) : Prop where
  first : (client.topHosts path).head? = some host
  connected : host.hostId ∈ client.grpcClients
  remembered : ∀ other, client.localHostCache hash = some other → other = host

theorem AsksFirst.askedAt {client : BlobCacheClient} {host : BlobCacheHost} {path hash : String}
    (asks : AsksFirst client host path hash) : client.askedAt hash path 0 = some host := by
  have choice : client.hostAt hash path 0 = some host := by
    simp only [BlobCacheClient.hostAt, BlobCacheClient.firstChoice, asks.first]
    cases remembered : client.localHostCache hash with
    | none => rfl
    | some other => rw [asks.remembered other remembered, Option.some_or]
  rw [BlobCacheClient.askedAt, choice, Option.filter_some, if_pos (by simpa using asks.connected)]

/-! ## From the source to the reader -/

section

variable {sha256 : List UInt8 → List UInt8} {contents : Set Bytes} {maxAlloc : Nat} {b : BlobFs}
  {service : CacheService σ} {world : Server.World} {source : CacheSource} {bytes : Bytes}
  {state state' : ServiceState σ} {hash : String} {ks ks' : Keyspace}

theorem rooted_ne_empty (p : List Component) : rooted p ≠ "" := by
  intro empty
  have chars := congrArg String.toList empty
  rw [rooted, String.toList_ofList] at chars
  cases chars

theorem ofNat_length_ne_zero (some : bytes ≠ []) (small : bytes.length < 2 ^ 63) : UInt64.ofNat bytes.length ≠ 0 := by
  have positive := List.length_pos_of_ne_nil some
  intro zero
  have value := congrArg UInt64.toNat zero
  rw [UInt64.toNat_ofNat', Nat.mod_eq_of_lt (by omega)] at value
  exact absurd value (by simp; omega)

end

/-- The source of `oneByteHost`. -/
def fileSource : CacheSource := ⟨"/file", "", "", "", "", ""⟩

theorem storesFile_oneByte :
    ∃ state', StoresFile padded {[7]} (2 ^ 48) (quietBlobFs .direct) (oneByteHost none).service
      (oneByteHost none).world fileSource [7] (oneByteHost none).state state' oneByteHash .empty (sourceRedis "/file") := by
  have succeeds : (quietBlobFs .direct).answer padded .empty (join ["/", "/file"]) oneByteHash 1 = none := by
    decide +kernel
  obtain ⟨state', answer, returned, taken⟩ := Server.storeContentFromSource_taken (oneByteHost none).service
    ((quietBlobFs .direct).world padded .empty (oneByteHost none).world) (oneByteHost none).state fileSource
  rw [readSource_local rfl] at taken
  have read : (readSource (oneByteHost none).world (oneByteHost none).state.s3ClientCache fileSource).2 = .ok [7] := rfl
  rw [read] at taken
  cases taken with
  | refused text failed =>
    refine absurd ⟨⟨_, rfl⟩, fun _ _ => ?_⟩ failed
    rw [BlobFs.world_storeContentInBlobFs]
    exact succeeds
  | stored all =>
    exact ⟨state', rfl, rfl, .refl _, rfl, fun _ _ member => (by cases member), fun _ => rfl, read, ⟨_, rfl, rfl⟩, returned,
      rfl⟩

theorem one_byte_fits : ([0] : Bytes).length < 2 ^ 63 := by decide

def readOne : ReadArgs := ⟨[0], 0, one_byte_fits, Int64Arith.inRange_zero⟩

end Blobcache.FileSystem
