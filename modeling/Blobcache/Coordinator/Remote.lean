import Blobcache.Coordinator.FsNodes

/-!
# The remote coordinator

A `CoordinatorClient` answers the calls on file-system nodes. `CoordinatorClientLocal` asks
Redis itself; `CoordinatorClientRemote` sends the call to a `CacheService`, which asks its own
coordinator. On the way the metadata is converted to a message and back, field by field,
and the inode number is not among the fields. What the remote client makes of a call is
said once (`remote_run`); it follows that its replies are those of the local one exactly as
long as no inode number is set.
-/

namespace Blobcache.Coordinator
set_option autoImplicit false
open Service
open Redis (Keyspace Fields Command)

/-- The calls of `CoordinatorClient` on file-system nodes. -/
inductive FsCall : Type → Type where
  | setFsNode (id : String) (metadata : BlobFsMetadata) : FsCall (Except CoordinatorError Unit)
  | getFsNode (id : String) : FsCall (Except CoordinatorError BlobFsMetadata)
  | removeFsNode (id : String) : FsCall (Except CoordinatorError Unit)
  | removeFsNodeChild (pid id : String) : FsCall (Except CoordinatorError Unit)
  | getFsNodeChildren (id : String) : FsCall (Except CoordinatorError (List BlobFsMetadata))
  | addFsNodeChild (pid id : String) : FsCall (Except CoordinatorError Unit)

abbrev CoordinatorClient : Type 1 := (β : Type) → FsCall β → Program Command β

def coordinatorClientLocal : CoordinatorClient
  | _, .setFsNode id metadata => BlobCacheMetadata.setFsNode id metadata
  | _, .getFsNode id => BlobCacheMetadata.getFsNode id
  | _, .removeFsNode id => BlobCacheMetadata.removeFsNode id
  | _, .removeFsNodeChild pid id => BlobCacheMetadata.removeFsNodeChild pid id
  | _, .getFsNodeChildren id => BlobCacheMetadata.getFsNodeChildren id
  | _, .addFsNodeChild pid id => BlobCacheMetadata.addFsNodeChild pid id

/-! ## Messages -/

namespace Proto

/-- The message `BlobFsMetadata`. -/
structure BlobFsMetadata where
  id : String := ""
  pid : String := ""
  name : String := ""
  path : String := ""
  hash : String := ""
  ino : UInt64 := 0
  size : UInt64 := 0
  blocks : UInt64 := 0
  atime : UInt64 := 0
  mtime : UInt64 := 0
  ctime : UInt64 := 0
  atimensec : UInt32 := 0
  mtimensec : UInt32 := 0
  ctimensec : UInt32 := 0
  mode : UInt32 := 0
  nlink : UInt32 := 0
  rdev : UInt32 := 0
  blksize : UInt32 := 0
  padding : UInt32 := 0
  uid : UInt32 := 0
  gid : UInt32 := 0
  gen : UInt64 := 0

structure GetFsNodeResponse where
  metadata : Option BlobFsMetadata
  ok : Bool

structure GetFsNodeChildrenResponse where
  children : List BlobFsMetadata
  ok : Bool

end Proto

/-- `ToProto`; the literal in `CoordinatorClientRemote.SetFsNode` has the same fields. -/
def BlobFsMetadata.toProto (m : BlobFsMetadata) : Proto.BlobFsMetadata where
  id := m.id
  pid := m.pid
  name := m.name
  path := m.path
  hash := m.hash
  size := m.size
  blocks := m.blocks
  atime := m.atime
  mtime := m.mtime
  ctime := m.ctime
  atimensec := m.atimensec
  mtimensec := m.mtimensec
  ctimensec := m.ctimensec
  mode := m.mode
  nlink := m.nlink
  rdev := m.rdev
  blksize := m.blksize
  padding := m.padding
  uid := m.uid
  gid := m.gid
  gen := m.gen

/-- The literal in `CacheService.SetFsNode`, and those in `CoordinatorClientRemote.GetFsNode`
and `GetFsNodeChildren`. -/
def BlobFsMetadata.ofProto (m : Proto.BlobFsMetadata) : BlobFsMetadata where
  id := m.id
  pid := m.pid
  name := m.name
  path := m.path
  hash := m.hash
  size := m.size
  blocks := m.blocks
  atime := m.atime
  mtime := m.mtime
  ctime := m.ctime
  atimensec := m.atimensec
  mtimensec := m.mtimensec
  ctimensec := m.ctimensec
  mode := m.mode
  nlink := m.nlink
  rdev := m.rdev
  blksize := m.blksize
  padding := m.padding
  uid := m.uid
  gid := m.gid
  gen := m.gen

/-! ## Server and client -/

namespace CacheService

/-- `Ok` of a response that has nothing else. -/
def answerOk : Except CoordinatorError Unit → Bool
  | .error _ => false
  | .ok () => true

def setFsNode (coordinator : CoordinatorClient) (id : String) (metadata : Proto.BlobFsMetadata) :
    Program Command Bool := do
  return answerOk (← coordinator _ (.setFsNode id (.ofProto metadata)))

def getFsNode (coordinator : CoordinatorClient) (id : String) : Program Command Proto.GetFsNodeResponse := do
  match ← coordinator _ (.getFsNode id) with
  | .error _ => return ⟨none, false⟩
  | .ok metadata => return ⟨some metadata.toProto, true⟩

def removeFsNode (coordinator : CoordinatorClient) (id : String) : Program Command Bool := do
  return answerOk (← coordinator _ (.removeFsNode id))

def removeFsNodeChild (coordinator : CoordinatorClient) (pid id : String) : Program Command Bool := do
  return answerOk (← coordinator _ (.removeFsNodeChild pid id))

def getFsNodeChildren (coordinator : CoordinatorClient) (id : String) :
    Program Command Proto.GetFsNodeChildrenResponse := do
  match ← coordinator _ (.getFsNodeChildren id) with
  | .error _ => return ⟨[], false⟩
  | .ok children => return ⟨children.map BlobFsMetadata.toProto, true⟩

def addFsNodeChild (coordinator : CoordinatorClient) (pid id : String) : Program Command Bool := do
  return answerOk (← coordinator _ (.addFsNodeChild pid id))

end CacheService

/-- `if !r.Ok`. -/
def checkOk (operation : String) : Bool → Except CoordinatorError Unit
  | true => .ok ()
  | false => .error (.failed operation)

/-- The client of a `CacheService` with the coordinator. -/
def coordinatorClientRemote (coordinator : CoordinatorClient) : CoordinatorClient
  | _, .setFsNode id metadata => do
    return checkOk "set fs node" (← CacheService.setFsNode coordinator id metadata.toProto)
  | _, .getFsNode id => do
    match ← CacheService.getFsNode coordinator id with
    | ⟨some metadata, true⟩ => return .ok (.ofProto metadata)
    | _ => return .error (.failed "get fs node")
  | _, .removeFsNode id => do
    return checkOk "remove fs node" (← CacheService.removeFsNode coordinator id)
  | _, .removeFsNodeChild pid id => do
    return checkOk "remove fs node child" (← CacheService.removeFsNodeChild coordinator pid id)
  | _, .getFsNodeChildren id => do
    match ← CacheService.getFsNodeChildren coordinator id with
    | ⟨children, true⟩ => return .ok (children.map .ofProto)
    | _ => return .error (.failed "get fs node children")
  | _, .addFsNodeChild pid id => do
    return checkOk "add fs node child" (← CacheService.addFsNodeChild coordinator pid id)

/-! ## What the remote client makes of a call -/

/-- The inode number does not come through. -/
def BlobFsMetadata.withoutIno (m : BlobFsMetadata) : BlobFsMetadata := { m with ino := 0 }

/-- The call that the server makes. -/
def FsCall.sent {β : Type} : FsCall β → FsCall β
  | .setFsNode id metadata => .setFsNode id metadata.withoutIno
  | call => call

/-- What the client makes of the answer. -/
def FsCall.received {β : Type} : FsCall β → β → β
  | .setFsNode _ _, answer => checkOk "set fs node" (CacheService.answerOk answer)
  | .removeFsNode _, answer => checkOk "remove fs node" (CacheService.answerOk answer)
  | .removeFsNodeChild _ _, answer => checkOk "remove fs node child" (CacheService.answerOk answer)
  | .addFsNodeChild _ _, answer => checkOk "add fs node child" (CacheService.answerOk answer)
  | .getFsNode _, .error _ => .error (.failed "get fs node")
  | .getFsNode _, .ok m => .ok m.withoutIno
  | .getFsNodeChildren _, .error _ => .error (.failed "get fs node children")
  | .getFsNodeChildren _, .ok children => .ok (children.map BlobFsMetadata.withoutIno)

theorem ofProto_toProto (m : BlobFsMetadata) : BlobFsMetadata.ofProto m.toProto = m.withoutIno := rfl

/-- The remote client makes the call at its server, with the same effect on Redis. -/
theorem remote_run (coordinator : CoordinatorClient) {β : Type} (call : FsCall β) (ks : Keyspace) :
    (coordinatorClientRemote coordinator β call).run Keyspace.serve ks =
      (call.received ((coordinator β call.sent).run Keyspace.serve ks).1,
        ((coordinator β call.sent).run Keyspace.serve ks).2) := by
  cases call with
  | setFsNode id metadata =>
    simp only [coordinatorClientRemote, CacheService.setFsNode, ofProto_toProto, Program.run_bind, Program.run_pure]
    rfl
  | getFsNode id =>
    simp only [coordinatorClientRemote, CacheService.getFsNode, Program.run_bind, FsCall.sent]
    rcases (coordinator _ (.getFsNode id)).run Keyspace.serve ks with ⟨_ | metadata, ks'⟩ <;> rfl
  | removeFsNode id =>
    simp only [coordinatorClientRemote, CacheService.removeFsNode, Program.run_bind, Program.run_pure]
    rfl
  | removeFsNodeChild pid id =>
    simp only [coordinatorClientRemote, CacheService.removeFsNodeChild, Program.run_bind, Program.run_pure]
    rfl
  | getFsNodeChildren id =>
    simp only [coordinatorClientRemote, CacheService.getFsNodeChildren, Program.run_bind, FsCall.sent]
    rcases (coordinator _ (.getFsNodeChildren id)).run Keyspace.serve ks with ⟨_ | children, ks'⟩
    · rfl
    · show (Except.ok ((children.map BlobFsMetadata.toProto).map BlobFsMetadata.ofProto), ks') = _
      rw [List.map_map, show BlobFsMetadata.ofProto ∘ BlobFsMetadata.toProto = BlobFsMetadata.withoutIno from rfl]
      rfl
  | addFsNodeChild pid id =>
    simp only [coordinatorClientRemote, CacheService.addFsNodeChild, Program.run_bind, Program.run_pure]
    rfl

/-! ## Replies -/

/-- A reply, without the text of an error. -/
inductive Reply where
  | failed
  | done
  | node (m : BlobFsMetadata)
  | children (ms : List BlobFsMetadata)
  deriving DecidableEq

def FsCall.reply {β : Type} : FsCall β → β → Reply
  | .setFsNode _ _, .ok () => .done
  | .getFsNode _, .ok m => .node m
  | .removeFsNode _, .ok () => .done
  | .removeFsNodeChild _ _, .ok () => .done
  | .getFsNodeChildren _, .ok ms => .children ms
  | .addFsNodeChild _ _, .ok () => .done
  | .setFsNode _ _, .error _ => .failed
  | .getFsNode _, .error _ => .failed
  | .removeFsNode _, .error _ => .failed
  | .removeFsNodeChild _ _, .error _ => .failed
  | .getFsNodeChildren _, .error _ => .failed
  | .addFsNodeChild _ _, .error _ => .failed

/-- A call of whatever type. -/
structure Request where
  {β : Type}
  call : FsCall β

/-- The replies to a sequence of calls. -/
def replies (coordinator : CoordinatorClient) : List Request → Keyspace → List Reply
  | [], _ => []
  | request :: rest, ks =>
    let answered := (coordinator _ request.call).run Keyspace.serve ks
    request.call.reply answered.1 :: replies coordinator rest answered.2

/-- The metadata that a call sets is among those allowed. -/
def FsCall.Sets (allowed : BlobFsMetadata → Prop) {β : Type} : FsCall β → Prop
  | .setFsNode _ metadata => allowed metadata
  | _ => True

/-! ## Without inode numbers -/

def NoIno (m : BlobFsMetadata) : Prop := m.ino = 0

theorem NoIno.withoutIno {m : BlobFsMetadata} (none : NoIno m) : m.withoutIno = m := by
  rw [BlobFsMetadata.withoutIno, ← show m.ino = 0 from none]

/-- No hash has the inode number of a node. -/
def InoFree (ks : Keyspace) : Prop := ∀ key fields, ks key = some (.hash fields) → NoIno (.ofFields fields)

section

variable {ks : Keyspace}

theorem InoFree.put (free : InoFree ks) {key : String} {value : Option Redis.Value}
    (new : ∀ fields, value = some (.hash fields) → NoIno (.ofFields fields)) : InoFree (ks.put key value) := by
  intro other fields held
  by_cases same : other = key
  · subst same
    rw [Keyspace.put_self] at held
    exact new fields held
  · rw [Keyspace.put_other _ _ same] at held
    exact free other fields held

theorem InoFree.hgetall (free : InoFree ks) {key : String} {res : Fields} (answer : ks.hgetall key = .ok res)
    (some_field : res ≠ []) : NoIno (.ofFields res) := by
  unfold Keyspace.hgetall at answer
  split at answer
  · cases answer
    exact absurd rfl some_field
  · rename_i held
    cases answer
    exact free _ _ held
  · cases answer

theorem InoFree.getFsNode (free : InoFree ks) (id : String) :
    ((BlobCacheMetadata.getFsNode id).run Keyspace.serve ks).2 = ks ∧
      ∀ m, ((BlobCacheMetadata.getFsNode id).run Keyspace.serve ks).1 = .ok m → NoIno m := by
  refine ⟨BlobCacheMetadata.getFsNode_redis ks id, fun m found => ?_⟩
  simp only [BlobCacheMetadata.getFsNode, Program.run_bind, Program.run_perform, Keyspace.serve] at found
  cases answer : ks.hgetall (BlobCacheMetadata.metadataFsNode id) with
  | error e =>
    rw [answer] at found
    cases found
  | ok res =>
    simp only [answer, Program.run_pure] at found
    split at found
    · cases found
    · rename_i some_field
      cases found
      exact free.hgetall answer some_field

theorem InoFree.getFsNodes (free : InoFree ks) (ids : List String) :
    ((BlobCacheMetadata.getFsNodes ids).run Keyspace.serve ks).2 = ks ∧
      ∀ m ∈ ((BlobCacheMetadata.getFsNodes ids).run Keyspace.serve ks).1, NoIno m := by
  induction ids with
  | nil => exact ⟨rfl, fun m member => by cases member⟩
  | cons id ids ih =>
    obtain ⟨same, noIno⟩ := free.getFsNode id
    simp only [BlobCacheMetadata.getFsNodes, Program.run_bind, same]
    cases found : ((BlobCacheMetadata.getFsNode id).run Keyspace.serve ks).1 with
    | error e => exact ih
    | ok node =>
      refine ⟨ih.1, fun m member => ?_⟩
      rcases List.mem_cons.mp member with rfl | member
      · exact noIno _ found
      · exact ih.2 m member

theorem InoFree.hset (free : InoFree ks) (key : String) {m : BlobFsMetadata} (none : NoIno m) :
    InoFree (ks.hset key m.toSlice).2 := by
  unfold Keyspace.hset
  rw [if_neg (toSlice_ne_nil m)]
  split
  · exact free
  · apply free.put
    intro fields written
    cases written
    rw [(Written.setAll _ m).ofFields]
    exact none

theorem InoFree.sadd (free : InoFree ks) (key member : String) : InoFree (ks.sadd key member).2 := by
  unfold Keyspace.sadd
  split
  · exact free
  · exact free.put fun fields held => by cases held

theorem InoFree.srem (free : InoFree ks) (key member : String) : InoFree (ks.srem key member).2 := by
  unfold Keyspace.srem
  split
  · exact free
  · apply free.put
    intro fields held
    split at held <;> cases held

theorem InoFree.setFsNode (free : InoFree ks) (id : String) {m : BlobFsMetadata} (none : NoIno m) :
    InoFree ((BlobCacheMetadata.setFsNode id m).run Keyspace.serve ks).2 := by
  simp only [BlobCacheMetadata.setFsNode, Program.run_bind, Program.run_perform, Keyspace.serve]
  cases ks.hgetall (BlobCacheMetadata.metadataFsNode id) with
  | error e => exact free
  | ok res =>
    have none' : NoIno (BlobCacheMetadata.incremented res m) := by
      unfold BlobCacheMetadata.incremented
      split <;> exact none
    have after := free.hset (BlobCacheMetadata.metadataFsNode id) none'
    simp only [BlobCacheMetadata.writeFsNode, Program.run_bind, Program.run_perform, Keyspace.serve]
    split <;> exact after

/-- A call of the local client that sets no inode number leaves no hash with one. -/
theorem InoFree.call (free : InoFree ks) {β : Type} {call : FsCall β} (sets : call.Sets NoIno) :
    InoFree ((coordinatorClientLocal β call).run Keyspace.serve ks).2 := by
  cases call with
  | setFsNode id m => exact free.setFsNode id sets
  | getFsNode id =>
    rw [coordinatorClientLocal, (free.getFsNode id).1]
    exact free
  | removeFsNode id => exact free.put fun fields held => by cases held
  | removeFsNodeChild pid id => exact free.srem _ _
  | getFsNodeChildren id =>
    simp only [coordinatorClientLocal, BlobCacheMetadata.getFsNodeChildren, Program.run_bind, Program.run_perform,
      Keyspace.serve]
    cases ks.smembers (BlobCacheMetadata.metadataFsNodeChildren id) with
    | error e => exact free
    | ok ids =>
      simp only [Program.run_bind, Program.run_pure, (free.getFsNodes ids).1]
      exact free
  | addFsNodeChild pid id => exact free.sadd _ _

/-- The answer comes through. -/
theorem InoFree.received (free : InoFree ks) {β : Type} (call : FsCall β) :
    call.reply (call.received ((coordinatorClientLocal β call).run Keyspace.serve ks).1) =
      call.reply ((coordinatorClientLocal β call).run Keyspace.serve ks).1 := by
  cases call with
  | setFsNode id m => rcases ((coordinatorClientLocal _ (.setFsNode id m)).run Keyspace.serve ks).1 with _ | ⟨⟩ <;> rfl
  | getFsNode id =>
    have noIno := (free.getFsNode id).2
    rw [coordinatorClientLocal]
    cases found : ((BlobCacheMetadata.getFsNode id).run Keyspace.serve ks).1 with
    | error e => rfl
    | ok m => simp only [FsCall.received, FsCall.reply, (noIno m found).withoutIno]
  | removeFsNode id => rfl
  | removeFsNodeChild pid id =>
    rcases ((coordinatorClientLocal _ (.removeFsNodeChild pid id)).run Keyspace.serve ks).1 with _ | ⟨⟩ <;> rfl
  | getFsNodeChildren id =>
    simp only [coordinatorClientLocal, BlobCacheMetadata.getFsNodeChildren, Program.run_bind, Program.run_perform,
      Keyspace.serve]
    cases ks.smembers (BlobCacheMetadata.metadataFsNodeChildren id) with
    | error e => rfl
    | ok ids =>
      have noIno := (free.getFsNodes ids).2
      simp only [Program.run_bind, Program.run_pure, FsCall.received, FsCall.reply]
      rw [List.map_congr_left fun m member => (noIno m member).withoutIno, List.map_id']
  | addFsNodeChild pid id =>
    rcases ((coordinatorClientLocal _ (.addFsNodeChild pid id)).run Keyspace.serve ks).1 with _ | ⟨⟩ <;> rfl

theorem FsCall.sent_of_sets {β : Type} {call : FsCall β} (sets : call.Sets NoIno) : call.sent = call := by
  cases call with
  | setFsNode id m => rw [FsCall.sent, NoIno.withoutIno sets]
  | _ => rfl

/-- The replies are the same as long as no inode number is set. -/
theorem InoFree.replies (free : InoFree ks) {requests : List Request}
    (sets : ∀ request ∈ requests, request.call.Sets NoIno) :
    replies (coordinatorClientRemote coordinatorClientLocal) requests ks =
      Coordinator.replies coordinatorClientLocal requests ks := by
  induction requests generalizing ks with
  | nil => rfl
  | cons request rest ih =>
    have here := sets request List.mem_cons_self
    simp only [Coordinator.replies, remote_run, FsCall.sent_of_sets here, free.received]
    rw [ih (free.call here) fun other member => sets other (List.mem_cons_of_mem _ member)]

end

/-- A node that is set and read again. -/
def setAndGet (m : BlobFsMetadata) : List Request := [⟨.setFsNode "x" m⟩, ⟨.getFsNode "x"⟩]

theorem local_setAndGet (m : BlobFsMetadata) :
    replies coordinatorClientLocal (setAndGet m) .empty = [.done, .node m] := by
  have absent : BlobCacheMetadata.Holds .empty "x" none := rfl
  obtain ⟨fields, taken, written⟩ := absent.setFsNode m
  have read := (@BlobCacheMetadata.Holds.of_put .empty "x" _ _ written).getFsNode
  simp only [setAndGet, replies, coordinatorClientLocal, taken, read]
  rfl

theorem remote_setAndGet (m : BlobFsMetadata) :
    replies (coordinatorClientRemote coordinatorClientLocal) (setAndGet m) .empty = [.done, .node m.withoutIno] := by
  have absent : BlobCacheMetadata.Holds .empty "x" none := rfl
  obtain ⟨fields, taken, written⟩ := absent.setFsNode m.withoutIno
  have read := (@BlobCacheMetadata.Holds.of_put .empty "x" _ _ written).getFsNode
  simp only [setAndGet, replies, remote_run, FsCall.sent, coordinatorClientLocal, taken, read]
  rfl

/-- **The remote client and the local one.** They give the same replies to all sequences of
calls that set metadata of a class exactly when no metadata of the class has an inode number. -/
theorem remote_agrees_iff (allowed : BlobFsMetadata → Prop) :
    (∀ requests : List Request, (∀ request ∈ requests, request.call.Sets allowed) →
      replies (coordinatorClientRemote coordinatorClientLocal) requests .empty =
        replies coordinatorClientLocal requests .empty) ↔
    ∀ m, allowed m → m.ino = 0 := by
  constructor
  · intro agree m member
    have same := agree (setAndGet m) (by simp [setAndGet, FsCall.Sets, member])
    rw [local_setAndGet, remote_setAndGet] at same
    simp only [List.cons.injEq, Reply.node.injEq, and_true, true_and] at same
    rw [← same]
    rfl
  · intro none requests sets
    have free : InoFree .empty := fun key fields held => by cases held
    apply free.replies
    rintro ⟨call⟩ member
    have allowedHere := sets _ member
    cases call with
    | setFsNode id m => exact none m allowedHere
    | _ => trivial

/-- The inode of a file comes back as 0 from the remote client. -/
theorem remote_loses_ino :
    replies coordinatorClientLocal (setAndGet { ino := 5 }) .empty = [.done, .node { ino := 5 }] ∧
      replies (coordinatorClientRemote coordinatorClientLocal) (setAndGet { ino := 5 }) .empty =
        [.done, .node { ino := 0 }] := by
  refine ⟨by decide, by decide⟩

end Blobcache.Coordinator
