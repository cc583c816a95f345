import Blobcache.Coordinator.Remote

/-!
# The coordinator as a store of nodes

For its clients the coordinator is a map from ids to nodes and one from ids to lists of
children (`NodeStore`); Redis and the way there are out of sight. Redis represents such a
store as long as all ids are plain, without a colon: then the key of a node is never the
key of another node's children. Calls on plain ids keep the representation and are answered
as by the store, by the local client and, but for inode numbers and the texts of errors, by
the remote one.
-/

namespace Blobcache.Coordinator
set_option autoImplicit false
open Service
open Redis (Keyspace Fields Command)
open BlobCacheMetadata

/-- The clients that are in use: the coordinator's own, and the client of its server. -/
inductive Connection where
  | direct
  | remote
  deriving DecidableEq

def Connection.client : Connection → CoordinatorClient
  | direct => coordinatorClientLocal
  | remote => coordinatorClientRemote coordinatorClientLocal

/-- A call as a whole, on the state of Redis. -/
def Connection.serve (via : Connection) : Server FsCall Keyspace := fun β call ks =>
  (via.client β call).run Keyspace.serve ks

structure NodeStore where
  nodes : String → Option BlobFsMetadata
  children : String → List String

namespace NodeStore

def empty : NodeStore := ⟨fun _ => none, fun _ => []⟩

def setNode (st : NodeStore) (id : String) (node : Option BlobFsMetadata) : NodeStore :=
  { st with nodes := Function.update st.nodes id node }

def setChildren (st : NodeStore) (id : String) (ids : List String) : NodeStore :=
  { st with children := Function.update st.children id ids }

def addChild (st : NodeStore) (pid id : String) : NodeStore :=
  st.setChildren pid (Redis.Members.add (st.children pid) id)

def removeChild (st : NodeStore) (pid id : String) : NodeStore :=
  st.setChildren pid (Redis.Members.remove (st.children pid) id)

/-- The children that are there. -/
def present (st : NodeStore) (id : String) : List BlobFsMetadata := (st.children id).filterMap st.nodes

def call : Server FsCall NodeStore
  | _, .setFsNode id metadata, st => (.ok (), st.setNode id (some (nextVersion metadata (st.nodes id))))
  | _, .getFsNode id, st => (found id (st.nodes id), st)
  | _, .removeFsNode id, st => (.ok (), st.setNode id none)
  | _, .removeFsNodeChild pid id, st => (.ok (), st.removeChild pid id)
  | _, .getFsNodeChildren id, st => (.ok (st.present id), st)
  | _, .addFsNodeChild pid id, st => (.ok (), st.addChild pid id)

@[simp]
theorem setNode_self (st : NodeStore) (id : String) (node : Option BlobFsMetadata) :
    (st.setNode id node).nodes id = node := Function.update_self ..

@[simp]
theorem setNode_other (st : NodeStore) {id other : String} (node : Option BlobFsMetadata) (different : other ≠ id) :
    (st.setNode id node).nodes other = st.nodes other := Function.update_of_ne different ..

@[simp]
theorem setNode_children (st : NodeStore) (id : String) (node : Option BlobFsMetadata) :
    (st.setNode id node).children = st.children := rfl

@[simp]
theorem setChildren_self (st : NodeStore) (id : String) (ids : List String) :
    (st.setChildren id ids).children id = ids := Function.update_self ..

@[simp]
theorem setChildren_other (st : NodeStore) {id other : String} (ids : List String) (different : other ≠ id) :
    (st.setChildren id ids).children other = st.children other := Function.update_of_ne different ..

@[simp]
theorem setChildren_nodes (st : NodeStore) (id : String) (ids : List String) :
    (st.setChildren id ids).nodes = st.nodes := rfl

theorem mem_addChild {st : NodeStore} {pid id pid' id' : String} :
    id' ∈ (st.addChild pid id).children pid' ↔ id' ∈ st.children pid' ∨ pid' = pid ∧ id' = id := by
  unfold addChild
  by_cases same : pid' = pid
  · subst same
    rw [setChildren_self, Redis.Members.mem_add_iff]
    simp
  · rw [setChildren_other _ _ same]
    simp [same]

theorem nodup_addChild {st : NodeStore} (nodup : ∀ pid, (st.children pid).Nodup) (pid id pid' : String) :
    ((st.addChild pid id).children pid').Nodup := by
  unfold addChild
  by_cases same : pid' = pid
  · subst same
    rw [setChildren_self]
    exact Redis.Members.nodup_add (nodup pid') id
  · rw [setChildren_other _ _ same]
    exact nodup pid'

theorem mem_removeChild {st : NodeStore} {pid id pid' id' : String} :
    id' ∈ (st.removeChild pid id).children pid' ↔ id' ∈ st.children pid' ∧ ¬ (pid' = pid ∧ id' = id) := by
  unfold removeChild
  by_cases same : pid' = pid
  · subst same
    rw [setChildren_self, Redis.Members.mem_remove_iff]
    simp
  · rw [setChildren_other _ _ same]
    simp [same]

theorem nodup_removeChild {st : NodeStore} (nodup : ∀ pid, (st.children pid).Nodup) (pid id pid' : String) :
    ((st.removeChild pid id).children pid').Nodup := by
  unfold removeChild
  by_cases same : pid' = pid
  · subst same
    rw [setChildren_self]
    exact Redis.Members.nodup_remove (nodup pid') id
  · rw [setChildren_other _ _ same]
    exact nodup pid'

@[simp]
theorem addChild_nodes (st : NodeStore) (pid id : String) : (st.addChild pid id).nodes = st.nodes := rfl

@[simp]
theorem removeChild_nodes (st : NodeStore) (pid id : String) : (st.removeChild pid id).nodes = st.nodes := rfl

/-- The answers as a client gets them. -/
def serve : Connection → Server FsCall NodeStore
  | .direct => call
  | .remote => fun β c st => (c.received (call β c.sent st).1, (call β c.sent st).2)

end NodeStore

/-- The metadata that comes through in a call. -/
def Connection.passes : Connection → BlobFsMetadata → BlobFsMetadata
  | direct, m => m
  | remote, m => m.withoutIno

namespace NodeStore

variable (via : Connection) (st : NodeStore)

@[simp]
theorem serve_setFsNode (id : String) (m : BlobFsMetadata) :
    serve via _ (.setFsNode id m) st = (.ok (), st.setNode id (some (nextVersion (via.passes m) (st.nodes id)))) := by
  cases via <;> rfl

theorem serve_getFsNode_of_some {id : String} {m : BlobFsMetadata} (held : st.nodes id = some m) :
    serve via _ (.getFsNode id) st = (.ok (via.passes m), st) := by
  cases via <;> simp [serve, call, held, found, FsCall.sent, FsCall.received, Connection.passes]

theorem serve_getFsNode_of_none {id : String} (absent : st.nodes id = none) :
    ∃ e, serve via _ (.getFsNode id) st = (.error e, st) := by
  cases via
  · refine ⟨.nodeNotFound id, ?_⟩
    simp only [serve, call, absent, found]
  · refine ⟨.failed "get fs node", ?_⟩
    simp only [serve, call, absent, found, FsCall.sent, FsCall.received]

@[simp]
theorem serve_removeFsNode (id : String) : serve via _ (.removeFsNode id) st = (.ok (), st.setNode id none) := by
  cases via <;> rfl

@[simp]
theorem serve_removeFsNodeChild (pid id : String) :
    serve via _ (.removeFsNodeChild pid id) st = (.ok (), st.removeChild pid id) := by
  cases via <;> rfl

@[simp]
theorem serve_getFsNodeChildren (id : String) :
    serve via _ (.getFsNodeChildren id) st = (.ok ((st.present id).map via.passes), st) := by
  cases via
  · show (Except.ok (st.present id), st) = _
    rw [show Connection.direct.passes = fun m => m from rfl, List.map_id']
  · rfl

@[simp]
theorem serve_addFsNodeChild (pid id : String) :
    serve via _ (.addFsNodeChild pid id) st = (.ok (), st.addChild pid id) := by
  cases via <;> rfl

end NodeStore

/-! ## Plain ids -/

def Plain (id : String) : Prop := ':' ∉ id.toList

/-- All ids of the call are plain. -/
def FsCall.OnPlain (β : Type) : FsCall β → Prop
  | .setFsNode id _ => Plain id
  | .getFsNode id => Plain id
  | .removeFsNode id => Plain id
  | .removeFsNodeChild pid id => Plain pid ∧ Plain id
  | .getFsNodeChildren id => Plain id
  | .addFsNodeChild pid id => Plain pid ∧ Plain id

-- Stated without the texts of the keys: unification would take the literals apart.
theorem affix_injective (before after : String) : Function.Injective fun id => before ++ id ++ after := by
  intro id id' same
  have chars := congrArg String.toList same
  simp only [String.toList_append] at chars
  exact String.toList_injective (List.append_cancel_left (List.append_cancel_right chars))

theorem affix_tail {before after id id' : String} (same : before ++ id ++ after = before ++ id') :
    id' = id ++ after := by
  rw [String.append_assoc] at same
  exact ((String.append_right_inj _).mp same).symm

theorem metadataFsNodeChildren_injective : Function.Injective metadataFsNodeChildren := affix_injective _ _

theorem children_ne_node {id : String} (plain : Plain id) (pid : String) :
    metadataFsNodeChildren pid ≠ metadataFsNode id := by
  intro same
  apply plain
  rw [affix_tail same, String.toList_append]
  apply List.mem_append_right
  decide

/-- What Redis has of the store: the hash of each node and the set of its children. There are
no other nodes. -/
structure Represents (ks : Keyspace) (st : NodeStore) : Prop where
  node : ∀ id, Plain id → Holds ks id (st.nodes id)
  children : ∀ id, Plain id → ks.smembers (metadataFsNodeChildren id) = .ok (st.children id)
  plain : ∀ pid id, Plain pid → id ∈ st.children pid → Plain id
  others : ∀ id, ¬ Plain id → st.nodes id = none ∧ ∀ fields, ks (metadataFsNode id) ≠ some (.hash fields)

theorem Represents.empty : Represents .empty .empty where
  node _ _ := rfl
  children _ _ := rfl
  plain _ _ _ member := by cases member
  others _ _ := ⟨rfl, fun fields held => by cases held⟩

/-- The node that is stored under an id. -/
def storedNode (ks : Keyspace) (id : String) : Option BlobFsMetadata :=
  ((BlobCacheMetadata.getFsNode id).run Keyspace.serve ks).1.toOption

section

variable {ks : Keyspace} {st : NodeStore} {id pid : String}

/-- The node of the id is replaced, in Redis and in the store. -/
theorem Represents.put_node (represents : Represents ks st) (plain : Plain id) {value : Option Redis.Value}
    {node : Option BlobFsMetadata} (holds : Holds (ks.put (metadataFsNode id) value) id node) :
    Represents (ks.put (metadataFsNode id) value) (st.setNode id node) where
  node other plain' := by
    by_cases same : other = id
    · subst same
      rw [NodeStore.setNode_self]
      exact holds
    · rw [NodeStore.setNode_other _ _ same]
      exact (represents.node other plain').congr (Keyspace.put_other _ _ (metadataFsNode_injective.ne same))
  children other plain' := by
    rw [Keyspace.smembers, Keyspace.put_other _ _ (children_ne_node plain other)]
    exact represents.children other plain'
  plain := represents.plain
  others other notPlain := by
    have different : other ≠ id := by
      rintro rfl
      exact notPlain plain
    rw [NodeStore.setNode_other _ _ different, Keyspace.put_other _ _ (metadataFsNode_injective.ne different)]
    exact represents.others other notPlain

/-- The children of the id are replaced. -/
theorem Represents.put_children (represents : Represents ks st) {ids : List String}
    {value : Option Redis.Value}
    (members : (ks.put (metadataFsNodeChildren pid) value).smembers (metadataFsNodeChildren pid) = .ok ids)
    (plainIds : Plain pid → ∀ id ∈ ids, Plain id) :
    Represents (ks.put (metadataFsNodeChildren pid) value) (st.setChildren pid ids) where
  node other plain' :=
    (represents.node other plain').congr (Keyspace.put_other _ _ (children_ne_node plain' pid).symm)
  children other plain' := by
    by_cases same : other = pid
    · subst same
      rw [NodeStore.setChildren_self]
      exact members
    · rw [NodeStore.setChildren_other _ _ same, Keyspace.smembers,
        Keyspace.put_other _ _ (metadataFsNodeChildren_injective.ne same)]
      exact represents.children other plain'
  plain other child plain' member := by
    by_cases same : other = pid
    · subst same
      rw [NodeStore.setChildren_self] at member
      exact plainIds plain' child member
    · rw [NodeStore.setChildren_other _ _ same] at member
      exact represents.plain other child plain' member
  others other notPlain := by
    refine ⟨(represents.others other notPlain).1, ?_⟩
    by_cases same : metadataFsNode other = metadataFsNodeChildren pid
    · -- the key of another node is that of the children, which holds no hash
      rw [same, Keyspace.put_self]
      rintro fields rfl
      rw [Keyspace.smembers, Keyspace.put_self] at members
      cases members
    · rw [Keyspace.put_other _ _ same]
      exact (represents.others other notPlain).2

/-- The nodes of the store are those that are stored, under any id. -/
theorem Represents.storedNode (represents : Represents ks st) (id : String) : storedNode ks id = st.nodes id := by
  unfold Coordinator.storedNode
  by_cases plain : Plain id
  · rw [(represents.node id plain).getFsNode]
    cases st.nodes id <;> rfl
  · obtain ⟨absent, noHash⟩ := represents.others id plain
    simp only [BlobCacheMetadata.getFsNode, Program.run_bind, Program.run_perform, Keyspace.serve, Keyspace.hgetall, absent]
    split
    · rfl
    · rename_i res answer
      split at answer
      · cases answer
        rfl
      · rename_i fields held
        exact absurd held (noHash fields)
      · cases answer

theorem Represents.getFsNodes (represents : Represents ks st) {ids : List String} (plain : ∀ id ∈ ids, Plain id) :
    (BlobCacheMetadata.getFsNodes ids).run Keyspace.serve ks = (ids.filterMap st.nodes, ks) := by
  induction ids with
  | nil => rfl
  | cons id ids ih =>
    have read := (represents.node id (plain id List.mem_cons_self)).getFsNode
    have rest := ih fun other member => plain other (List.mem_cons_of_mem _ member)
    simp only [BlobCacheMetadata.getFsNodes, Program.run_bind, read, rest]
    cases node : st.nodes id with
    | none =>
      rw [List.filterMap_cons_none node]
      rfl
    | some m =>
      rw [List.filterMap_cons_some node]
      rfl

theorem Represents.sadd (represents : Represents ks st) (plainPid : Plain pid) (plainId : Plain id) :
    ∃ ks', ks.sadd (metadataFsNodeChildren pid) id = (.ok (), ks') ∧
      Represents ks' (NodeStore.call _ (.addFsNodeChild pid id) st).2 := by
  unfold Keyspace.sadd
  rw [represents.children pid plainPid]
  refine ⟨_, rfl, represents.put_children (Keyspace.smembers_put_self ..) fun _ child member => ?_⟩
  rcases Redis.Members.mem_add_iff.mp member with old | rfl
  · exact represents.plain pid child plainPid old
  · exact plainId

theorem Represents.srem (represents : Represents ks st) (plainPid : Plain pid) (id : String) :
    ∃ ks', ks.srem (metadataFsNodeChildren pid) id = (.ok (), ks') ∧
      Represents ks' (NodeStore.call _ (.removeFsNodeChild pid id) st).2 := by
  unfold Keyspace.srem
  rw [represents.children pid plainPid]
  refine ⟨_, rfl, represents.put_children ?_ ?_⟩
  · rw [Keyspace.smembers, Keyspace.put_self]
    split
    · rename_i none
      split at none
      · rename_i empty
        rw [empty]
      · cases none
    · rename_i some
      split at some
      · cases some
      · cases some
        rfl
    · rename_i hash
      split at hash <;> cases hash
  · intro _ child member
    exact represents.plain pid child plainPid (Redis.Members.mem_remove_iff.mp member).1

/-- **The local client answers as the store.** -/
theorem Represents.call (represents : Represents ks st) {β : Type} {c : FsCall β} (plain : c.OnPlain) :
    (coordinatorClientLocal β c).run Keyspace.serve ks =
      ((NodeStore.call β c st).1, ((coordinatorClientLocal β c).run Keyspace.serve ks).2) ∧
      Represents ((coordinatorClientLocal β c).run Keyspace.serve ks).2 (NodeStore.call β c st).2 := by
  cases c with
  | setFsNode id m =>
    obtain ⟨fields, taken, written⟩ := (represents.node id plain).setFsNode m
    rw [coordinatorClientLocal, taken]
    exact ⟨rfl, represents.put_node plain (.of_put written)⟩
  | getFsNode id =>
    rw [coordinatorClientLocal, (represents.node id plain).getFsNode]
    exact ⟨rfl, represents⟩
  | removeFsNode id => exact ⟨rfl, represents.put_node plain (Keyspace.put_self ..)⟩
  | removeFsNodeChild pid id =>
    obtain ⟨ks', taken, after⟩ := represents.srem plain.1 id
    simp only [coordinatorClientLocal, removeFsNodeChild, Program.run_bind, Program.run_perform, Keyspace.serve, taken]
    exact ⟨rfl, after⟩
  | getFsNodeChildren id =>
    simp only [coordinatorClientLocal, BlobCacheMetadata.getFsNodeChildren, Program.run_bind, Program.run_perform,
      Keyspace.serve, represents.children id plain, Program.run_pure,
      represents.getFsNodes fun child => represents.plain id child plain]
    exact ⟨rfl, represents⟩
  | addFsNodeChild pid id =>
    obtain ⟨ks', taken, after⟩ := represents.sadd plain.1 plain.2
    simp only [coordinatorClientLocal, addFsNodeChild, Program.run_bind, Program.run_perform, Keyspace.serve, taken]
    exact ⟨rfl, after⟩

/-- **Every client answers as the store does for its connection.** -/
theorem Represents.serve (represents : Represents ks st) (via : Connection) {β : Type} {c : FsCall β}
    (plain : c.OnPlain) :
    (via.serve β c ks).1 = (NodeStore.serve via β c st).1 ∧
      Represents (via.serve β c ks).2 (NodeStore.serve via β c st).2 := by
  cases via with
  | direct =>
    obtain ⟨answer, after⟩ := represents.call plain
    exact ⟨congrArg Prod.fst answer, after⟩
  | remote =>
    have sent : c.sent.OnPlain := by cases c <;> exact plain
    obtain ⟨answer, after⟩ := represents.call sent
    rw [Connection.serve, Connection.client, remote_run, answer]
    exact ⟨rfl, after⟩

/-- Whole programs on plain ids. -/
theorem Represents.run (represents : Represents ks st) (via : Connection) {α : Type} {program : Program FsCall α}
    (plain : program.Calls FsCall.OnPlain) :
    (program.run via.serve ks).1 = (program.run (NodeStore.serve via) st).1 ∧
      Represents (program.run via.serve ks).2 (program.run (NodeStore.serve via) st).2 :=
  Program.run_related (fun _ _ _ _ onPlain before => before.serve via onPlain) plain represents

end

end Blobcache.Coordinator
