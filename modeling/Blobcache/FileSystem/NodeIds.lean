import Blobcache.Client.StoreFromSource
import Blobcache.FileSystem.Chain

/-!
# The ids of the client and of the server

A client stores a file by its source path and then asks for the node of that path: `Lookup` for a name with
percent signs, and `IsPathCachedNearby`. The server joins the path to the root and cleans it before it hashes
it (`StoreContentFromSource`, `StoreContentInBlobFs`), the client hashes the string as it is.

The answer of `StoreContentInBlobFs` that `StoreContentFromSource` meets is the one of its program on Redis
(`BlobFs`). After a success the node of the clean path is there, and the client finds it exactly if the
source path was clean.
-/

namespace Blobcache.FileSystem
set_option autoImplicit false
open Service FilePath
open Coordinator (BlobFsMetadata FsCall Connection NodeStore storedNode)
open Redis (Keyspace)
open Server (CacheService CacheSource ServiceState StoreContentFromSourceResponse storeContentFromSource readSource
  storeContentFromSource_taken)
open Blobcache.Client (BlobCacheClient oneByteHost)

/-! ## Storing from a source, on Redis -/

/-- What `StoreContentInBlobFs` meets besides Redis. -/
structure BlobFs where
  via : Connection
  stat : Except String FileInfo
  now : Nat → Time
  errorText : StoreError → String

namespace BlobFs

def file (b : BlobFs) (path hash : String) (size : Nat) : StoredFile := ⟨path, hash, .ofNat size, b.stat, b.now⟩

section

variable (sha256 : List UInt8 → List UInt8) (b : BlobFs) (ks : Keyspace)

def store (path hash : String) (size : Nat) : Except StoreError Unit × Keyspace :=
  (storeContentInBlobFs sha256 (b.file path hash size)).run b.via.serve ks

/-- The error that the handler gets. -/
def answer (path hash : String) (size : Nat) : Option String :=
  match (b.store sha256 ks path hash size).1 with
  | .ok () => none
  | .error e => some (b.errorText e)

def world (world : Server.World) : Server.World := { world with storeContentInBlobFs := b.answer sha256 ks }

theorem world_storeContentInBlobFs (world : Server.World) :
    (b.world sha256 ks world).storeContentInBlobFs = b.answer sha256 ks := by
  simp only [BlobFs.world]

end

theorem store_of_answer {sha256 : List UInt8 → List UInt8} {b : BlobFs} {ks : Keyspace} {path hash : String} {size : Nat}
    (succeeded : b.answer sha256 ks path hash size = none) :
    b.store sha256 ks path hash size = (.ok (), (b.store sha256 ks path hash size).2) := by
  unfold answer at succeeded
  rcases ran : b.store sha256 ks path hash size with ⟨e | ⟨⟩, ks'⟩
  · rw [ran] at succeeded
    cases succeeded
  · rfl

end BlobFs

variable {σ : Type}

/-- `StoreContentFromSource` without a bucket succeeded, at a server with a coordinator; its call of
`StoreContentInBlobFs` has taken Redis from one state to the other. -/
structure SourceStored (sha256 : List UInt8 → List UInt8) (b : BlobFs) (service : CacheService σ) (world : Server.World)
    (state : ServiceState σ) (source : CacheSource) (resp : StoreContentFromSourceResponse) (ks ks' : Keyspace) :
    Prop where
  coordinated : service.coordinator.isSome
  noBucket : source.bucketName = ""
  responded : ∃ state' err,
    storeContentFromSource service (b.world sha256 ks world) state source = some (state', resp, err)
  ok : resp.ok = true
  redis : ∃ bytes, (readSource world state.s3ClientCache source).2 = .ok bytes ∧
    ks' = (b.store sha256 ks source.localPath resp.hash bytes.length).2

variable {sha256 : List UInt8 → List UInt8} {b : BlobFs} {service : CacheService σ} {world : Server.World}
  {state : ServiceState σ} {source : CacheSource} {resp : StoreContentFromSourceResponse} {ks ks' : Keyspace}

/-- Without a bucket only the file is read. -/
theorem readSource_local (noBucket : source.bucketName = "") (clients : String → Option Server.S3Client) :
    readSource (b.world sha256 ks world) clients source = readSource world clients source := by
  rw [readSource, readSource, if_pos noBucket, if_pos noBucket]
  rfl

theorem SourceStored.store (stored : SourceStored sha256 b service world state source resp ks ks') :
    ∃ size, b.store sha256 ks source.localPath resp.hash size = (.ok (), ks') := by
  obtain ⟨state', err, responded⟩ := stored.responded
  obtain ⟨bytes, read, after⟩ := stored.redis
  obtain ⟨_, answer, returned, taken⟩ := storeContentFromSource_taken service (b.world sha256 ks world) state source
  rw [returned] at responded
  cases responded
  rw [readSource_local stored.noBucket, read] at taken
  have ok := stored.ok
  cases taken with
  | stored all =>
    have node := all.node stored.coordinated stored.noBucket
    rw [BlobFs.world_storeContentInBlobFs] at node
    rw [after]
    exact ⟨bytes.length, BlobFs.store_of_answer node⟩
  | refused text failed => cases ok

/-! ## The node that is stored -/

/-- The root has the single part "", and becomes a child of itself. -/
theorem storeRoot_node {via : Connection} (file : StoredFile) (path : file.path = "/")
    (stored : (storeParts sha256 file [""] 0 "/" (generateFsID sha256 "/")).run via.serve ks = (.ok (), ks')) :
    ∃ m, storedNode ks' (generateFsID sha256 file.path) = some m ∧ FileContent sha256 file m := by
  have current : (if "/" = "/" then join ["/", ""] else join ["/", ""]) = file.path := by
    rw [path]
    decide
  obtain ⟨m, ks₂, made, after, rest⟩ := storeParts_round current stored
  obtain ⟨-, rfl⟩ := Prod.mk.inj rest
  have held := congrFun (congrArg NodeStore.nodes after) (generateFsID sha256 file.path)
  rw [NodeStore.addChild_nodes, NodeStore.setNode_self] at held
  exact ⟨_, held, partMetadata_fileContent made via _⟩

/-- **The node of a stored file.** It is under the id of the path that the server has cleaned. -/
theorem storeContentInBlobFs_node (noCollisions : Function.Injective (generateFsID sha256)) {via : Connection}
    {file : StoredFile} (stored : (storeContentInBlobFs sha256 file).run via.serve ks = (.ok (), ks')) :
    ∃ m, storedNode ks' (generateFsID sha256 (join ["/", clean file.path])) = some m ∧
      FileContent sha256 { file with path := join ["/", clean file.path] } m := by
  have path := join_storedComponents file.path
  have proper := storedComponents_proper file.path
  generalize storedComponents file.path = p at path proper
  rcases p.eq_nil_or_concat with rfl | ⟨q, c, rfl⟩
  · have root : join ["/", clean file.path] = "/" := path.trans (by decide)
    have parts : split "/" = ["", ""] := by decide
    simp only [storeContentInBlobFs, root, parts, List.head?_cons, if_true, List.tail_cons] at stored ⊢
    exact storeRoot_node { file with path := "/" } rfl stored
  · rw [List.concat_eq_append] at path proper
    have chained := storeContentInBlobFs_chained noCollisions proper (by simp) path stored
    obtain ⟨m, held, node⟩ := chained.node q c [] rfl
    rw [path]
    exact ⟨m, held, node.content rfl⟩

/-! ## What the client asks for -/

/-- `IsPathCachedNearby`. Errors are logged. -/
def isPathCachedNearby (sha256 : List UInt8 → List UInt8) (answers : BlobCacheClient.Answers) (c : BlobCacheClient)
    (path : String) : Program FsCall (BlobCacheClient × Bool) := do
  match ← .perform (.getFsNode (generateFsID sha256 path)) with
  | .error _ => return (c, false)
  | .ok metadata =>
    match c.isCachedNearby answers metadata.hash path with
    | (c, .error _) => return (c, false)
    | (c, .ok found) => return (c, found)

/-- The client that asks for the source path gets the node `m`: its id is the one under which the server
stores the path, a `Lookup` that stores it returns the node's inode, and `IsPathCachedNearby` asks for the
node's hash. -/
structure ClientFinds (sha256 : List UInt8 → List UInt8) (path : String) (m : BlobFsMetadata) (ks ks' : Keyspace) :
    Prop where
  sameId : generateFsID sha256 path = generateFsID sha256 (join ["/", clean (join ["/", path])])
  lookup : ∀ (n : FSNode) (name : String) (storeContentFromFUSE : String → Program FsCall (Except String String))
    (hash : String), '%' ∈ (n.fullPath name).toList → n.sourcePath name = path →
    (storeContentFromFUSE path).run n.filesystem.serve ks = (.ok hash, ks') →
    (n.lookup sha256 name storeContentFromFUSE).run n.filesystem.serve ks =
      (.ok (n.foundEntry (n.filesystem.passes m)), ks')
  nearby : ∀ (via : Connection) (answers : BlobCacheClient.Answers) (c : BlobCacheClient),
    (isPathCachedNearby sha256 answers c path).run via.serve ks' =
      (((c.isCachedNearby answers m.hash path).1, (c.isCachedNearby answers m.hash path).2.toOption.getD false), ks')

theorem serve_getFsNode_stored {id : String} {m : BlobFsMetadata} (held : storedNode ks id = some m) (via : Connection) :
    via.serve _ (.getFsNode id) ks = (.ok (via.passes m), ks) := by
  have ran : (Coordinator.BlobCacheMetadata.getFsNode id).run Keyspace.serve ks = (.ok m, ks) := by
    refine Prod.ext ?_ (Coordinator.BlobCacheMetadata.getFsNode_redis ks id)
    unfold storedNode at held
    cases answered : ((Coordinator.BlobCacheMetadata.getFsNode id).run Keyspace.serve ks).1 with
    | error e =>
      rw [answered] at held
      cases held
    | ok m' =>
      rw [answered] at held
      cases held
      rfl
  cases via with
  | direct => exact ran
  | remote =>
    rw [Connection.serve, Connection.client, Coordinator.remote_run]
    show (FsCall.received _ ((Coordinator.BlobCacheMetadata.getFsNode id).run Keyspace.serve ks).1,
      ((Coordinator.BlobCacheMetadata.getFsNode id).run Keyspace.serve ks).2) = _
    rw [ran]
    rfl

theorem inodeFromFsId_stored {id : String} {m : BlobFsMetadata} (held : storedNode ks id = some m) (n : FSNode) :
    (n.inodeFromFsId id).run n.filesystem.serve ks = (.ok (n.foundEntry (n.filesystem.passes m)), ks) := by
  simp only [FSNode.inodeFromFsId, Program.run_bind, Program.run_perform, serve_getFsNode_stored held, Program.run_pure]

theorem passes_hash (via : Connection) (m : BlobFsMetadata) : (via.passes m).hash = m.hash := by cases via <;> rfl

/-- Asking by the id of a node that is there finds it. -/
theorem ClientFinds.of_sameId {path : String} {m : BlobFsMetadata}
    (sameId : generateFsID sha256 path = generateFsID sha256 (join ["/", clean (join ["/", path])]))
    (held : storedNode ks' (generateFsID sha256 path) = some m) : ClientFinds sha256 path m ks ks' where
  sameId := sameId
  lookup n name storeContentFromFUSE hash percent source stored := by
    subst source
    rw [FSNode.lookup, if_pos percent]
    simp only [Program.run_bind]
    rw [stored]
    exact inodeFromFsId_stored held n
  nearby via answers c := by
    simp only [isPathCachedNearby, Program.run_bind, Program.run_perform, serve_getFsNode_stored held, passes_hash]
    rcases c.isCachedNearby answers m.hash path with ⟨c', e | found⟩ <;> rfl

/-- **The ids agree on clean paths.** After a successful `StoreContentFromSource` without a bucket the node of
the file is in Redis, with the hash of the response; the client finds it exactly if the source path starts at
the root and is clean. -/
theorem client_finds_iff (noCollisions : Function.Injective (generateFsID sha256))
    (stored : SourceStored sha256 b service world state source resp ks ks') :
    ∃ size m, storedNode ks' (generateFsID sha256 (join ["/", clean source.localPath])) = some m ∧
      FileContent sha256 (b.file (join ["/", clean source.localPath]) resp.hash size) m ∧
      (ClientFinds sha256 source.path m ks ks' ↔ CleanFromRoot source.path) := by
  obtain ⟨size, ran⟩ := stored.store
  rw [BlobFs.store] at ran
  obtain ⟨m, held, content⟩ := storeContentInBlobFs_node noCollisions ran
  refine ⟨size, m, held, content, fun finds => ?_, fun isClean => ?_⟩
  · rw [cleanFromRoot_iff, ← join_clean_join]
    exact (noCollisions finds.sameId).symm
  · have sameId : generateFsID sha256 source.path =
        generateFsID sha256 (join ["/", clean (join ["/", source.path])]) := by
      rw [join_clean_join, cleanFromRoot_iff.mp isClean]
    refine .of_sameId sameId ?_
    rw [sameId]
    exact held

/-! ## Two source paths -/

/-- A regular file, and a server whose clock stands still. -/
def quietBlobFs (via : Connection) : BlobFs := ⟨via, .ok ⟨0o644, ⟨1, 0⟩, ⟨1, 0⟩, false⟩, fun _ => ⟨1, 0⟩, fun _ => ""⟩

/-- The program that stores the file at the path as `StoreContentFromSource` does. -/
def storeAt (b : BlobFs) (hash : String) (size : Nat) (path : String) : Program FsCall (Except String String) := do
  match ← storeContentInBlobFs padded (b.file (join ["/", path]) hash size) with
  | .ok () => return .ok hash
  | .error e => return .error (b.errorText e)

theorem run_storeAt {path hash : String} {size : Nat}
    (succeeds : b.answer padded ks (join ["/", path]) hash size = none) :
    (storeAt b hash size path).run b.via.serve ks = (.ok hash, (b.store padded ks (join ["/", path]) hash size).2) := by
  have ran := BlobFs.store_of_answer succeeds
  generalize (b.store padded ks (join ["/", path]) hash size).2 = ks' at ran ⊢
  unfold BlobFs.store at ran
  simp only [storeAt, Program.run_bind, ran, Program.run_pure]

/-- The hash of the file that `oneByteHost` has. -/
def oneByteHash : String := Server.contentHash (oneByteHost none).service.sha256 [7]

/-- What is in Redis after the source was stored. -/
def sourceRedis (path : String) : Keyspace :=
  ((quietBlobFs .direct).store padded .empty (join ["/", path]) oneByteHash 1).2

theorem sourceStored_oneByte (path : String)
    (succeeds : ((quietBlobFs .direct).answer padded .empty (join ["/", path]) oneByteHash 1) = none) :
    SourceStored padded (quietBlobFs .direct) (oneByteHost none).service (oneByteHost none).world
      (oneByteHost none).state ⟨path, "", "", "", "", ""⟩ ⟨true, oneByteHash, ""⟩ .empty (sourceRedis path) where
  coordinated := rfl
  noBucket := rfl
  responded := by
    obtain ⟨state', answer, returned, taken⟩ := storeContentFromSource_taken (oneByteHost none).service
      ((quietBlobFs .direct).world padded .empty (oneByteHost none).world) (oneByteHost none).state
      ⟨path, "", "", "", "", ""⟩
    rw [readSource_local rfl] at taken
    have read : (readSource (oneByteHost none).world (oneByteHost none).state.s3ClientCache
      ⟨path, "", "", "", "", ""⟩).2 = .ok [7] := rfl
    rw [read] at taken
    cases taken with
    | stored all => exact ⟨_, _, returned⟩
    | refused text failed =>
      refine absurd ⟨⟨_, rfl⟩, fun _ _ => ?_⟩ failed
      rw [BlobFs.world_storeContentInBlobFs]
      exact succeeds
  ok := rfl
  redis := ⟨[7], rfl, rfl⟩

theorem client_finds_data_file :
    (∃ entry, (((root .direct).lookup padded "data%file" (storeAt (quietBlobFs .direct) oneByteHash 1)).run
      (root .direct).filesystem.serve .empty).1 = .ok entry ∧ entry.node.bfsNode.hash = oneByteHash) ∧
    ((isPathCachedNearby padded (fun _ _ => .ok ⟨true, true⟩) BlobCacheClient.ofTwoHosts "/data/file").run
      Connection.remote.serve (sourceRedis "/data/file")).1.2 = true := by
  have succeeds : (quietBlobFs .direct).answer padded .empty (join ["/", "/data/file"]) oneByteHash 1 = none := by
    decide +kernel
  have stored := sourceStored_oneByte "/data/file" succeeds
  obtain ⟨size, m, held, ⟨info, stat, hash, -⟩, finds⟩ := client_finds_iff padded_injective stored
  have isClean : join ["/", "/data/file"] = "/data/file" := by decide +kernel
  have found := finds.mpr (cleanFromRoot_iff.mpr isClean)
  cases stat
  have hash : m.hash = oneByteHash := hash
  have mounted : (root .direct).filesystem = (quietBlobFs .direct).via := rfl
  have ran := run_storeAt succeeds
  rw [← mounted, ← sourceRedis] at ran
  have looked := found.lookup (root .direct) "data%file" (storeAt (quietBlobFs .direct) oneByteHash 1) oneByteHash
    (by decide +kernel) (by decide +kernel) ran
  rw [looked, found.nearby, hash]
  refine ⟨⟨_, rfl, ?_⟩, by decide +kernel⟩
  exact (passes_hash _ m).trans hash

/-- The whole path is given as a name, each separator as a percent sign. The root's own separator stands before
it; the file is stored, and the client asks for another id. -/
theorem lookup_misses_stored :
    (root .direct).sourcePath "%data%file" = "//data/file" ∧
    SourceStored padded (quietBlobFs .direct) (oneByteHost none).service (oneByteHost none).world
      (oneByteHost none).state ⟨"//data/file", "", "", "", "", ""⟩ ⟨true, oneByteHash, ""⟩ .empty
      (sourceRedis "//data/file") ∧
    (storedNode (sourceRedis "//data/file") (generateFsID padded "/data/file")).isSome ∧
    (((root .direct).lookup padded "%data%file" (storeAt (quietBlobFs .direct) oneByteHash 1)).run
      (root .direct).filesystem.serve .empty).1 = .error .enoent ∧
    ((isPathCachedNearby padded (fun _ _ => .ok ⟨true, true⟩) BlobCacheClient.ofTwoHosts "//data/file").run
      Connection.remote.serve (sourceRedis "//data/file")).1.2 = false := by
  refine ⟨by decide +kernel, sourceStored_oneByte _ (by decide +kernel), by decide +kernel, by decide +kernel,
    by decide +kernel⟩

end Blobcache.FileSystem
