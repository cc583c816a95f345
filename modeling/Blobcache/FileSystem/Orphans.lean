import Blobcache.Lib.Interleaving
import Blobcache.FileSystem.Listing

/-!
# Removing a directory while entries are made in it

One client removes a directory by `Rmdir`, and any number of others make entries in it, by
`Create` and `Mkdir`, through handles they have. The calls to the coordinator come in any
order. `Rmdir` asks for the children of the directory and, if there are none, removes its
node; `Create` and `Mkdir` set the node of the entry without looking at the directory's.

So an entry is left without its directory unless `Rmdir` gives up: when all operations have
returned there is no such orphan exactly if nobody made an entry, or the directory was there
and had a child when `Rmdir` asked.
-/

namespace Blobcache.FileSystem
set_option autoImplicit false
open Service Execution Interleaving FilePath
open Coordinator
open Redis (Keyspace)

/-- An operation in progress: its connection, and the calls that it has still to make. -/
structure Client where
  via : Connection
  rest : Program FsCall (Except Errno Unit)

namespace Client

/-- An operation through a handle; what it returns besides an error does not matter. -/
def start {α : Type} (n : FSNode) (operation : Program FsCall (Except Errno α)) : Client :=
  ⟨n.filesystem, do return (← operation).map fun _ => ()⟩

/-- The next call of the operation. -/
def move {σ : Type} (serve : Connection → Server FsCall σ) (s : σ) (client : Client) : σ × Client :=
  let next := client.rest.advance (serve client.via) s
  (next.1, ⟨client.via, next.2⟩)

def Returned (client : Client) : Prop := ∃ result, client.rest = .ret result

theorem not_returned_call {β : Type} (via : Connection) (c : FsCall β) (next : β → Program FsCall (Except Errno Unit)) :
    ¬ Returned ⟨via, .call c next⟩ := by
  rintro ⟨result, ended⟩
  cases ended

instance (client : Client) : Decidable client.Returned :=
  match client with
  | ⟨_, .ret result⟩ => isTrue ⟨result, rfl⟩
  | ⟨via, .call c next⟩ => isFalse (not_returned_call via c next)

end Client

/-- What the clients share, and the client that removes the directory. -/
structure Shared (σ : Type) where
  store : σ
  remover : Client

/-- The clients that make entries are the threads. -/
abbrev Clients (σ : Type) := Pool (Shared σ) Client

namespace Clients

section

variable {σ : Type} (serve : Connection → Server FsCall σ)

def moveRemover (_ : Unit) (s : Shared σ) : Shared σ :=
  let next := s.remover.move serve s.store
  ⟨next.1, next.2⟩

def moveMaker (_ : Unit) (s : Shared σ) (client : Client) : Shared σ × Client :=
  let next := client.move serve s.store
  (⟨next.1, s.remover⟩, next.2)

abbrev step : Action Client Unit Unit → Clients σ → Clients σ := Pool.step (moveRemover serve) (moveMaker serve)

/-- All operations have returned. -/
def Complete (p : Clients σ) : Prop := p.shared.remover.Returned ∧ ∀ client ∈ p.threads, client.Returned

instance (p : Clients σ) : Decidable p.Complete := inferInstanceAs (Decidable (_ ∧ _))

end

variable (sha256 : List UInt8 → List UInt8)

/-- Nobody has made a call yet. -/
def start {σ : Type} (s : σ) (n : FSNode) (name : String) : Clients σ := ⟨⟨s, .start n (n.rmdir sha256 name)⟩, []⟩

/-- The other clients make entries in the directory, through handles for it. -/
def Makes (w : World) (n : FSNode) (name : String) : Action Client Unit Unit → Prop
  | .spawn client => ∃ d ∈ w.handles, d.bfsNode.path = n.fullPath name ∧ ∃ entry mode now, Proper entry.toList ∧
      (client = .start d (d.create sha256 entry mode now) ∨ client = .start d (d.mkdir sha256 entry mode now))
  | _ => True

/-- A run of the clients, over Redis or over what it represents. -/
abbrev RunOver {σ : Type} (serve : Connection → Server FsCall σ) (w : World) (n : FSNode) (name : String) :
    Clients σ → Clients σ → Prop :=
  Trace (step serve) fun _ => Makes sha256 w n name

abbrev Run : World → FSNode → String → Clients Keyspace → Clients Keyspace → Prop := RunOver sha256 Connection.serve

/-- In the run up to `q`, the client asked for the children of the directory in `p`. -/
structure AskedIn (w : World) (n : FSNode) (name : String) (p q : Clients Keyspace) : Prop where
  before : Run sha256 w n name (start sha256 w.redis n name) p
  asks : p.shared.remover = .start n (n.rmdir sha256 name)
  after : Run sha256 w n name (step Connection.serve (.env ()) p) q

end Clients

/-- Every node but the root has its parent. -/
def NoOrphans (root : String) (nodes : String → Option BlobFsMetadata) : Prop :=
  ∀ id m, nodes id = some m → id ≠ root → (nodes m.pid).isSome

/-- A child of the node is stored. -/
def HasChild (ks : Keyspace) (id : String) : Prop :=
  ∃ ids, ks.smembers (BlobCacheMetadata.metadataFsNodeChildren id) = .ok ids ∧
    ∃ child ∈ ids, (storedNode ks child).isSome

/-! ## What the calls do to the nodes -/

section

variable {sha256 : List UInt8 → List UInt8} {root dir : String} {nodes : String → Option BlobFsMetadata}

/-- Every node but the root has its parent, unless that is the directory. -/
def IntactBut (root dir : String) (nodes : String → Option BlobFsMetadata) : Prop :=
  ∀ id m, nodes id = some m → id ≠ root → m.pid ≠ dir → (nodes m.pid).isSome

/-- An entry of the directory has been made. -/
def Made (root dir : String) (nodes : String → Option BlobFsMetadata) : Prop :=
  ∃ id m, id ≠ root ∧ id ≠ dir ∧ nodes id = some m ∧ m.pid = dir

theorem NoOrphans.intactBut (none : NoOrphans root nodes) : IntactBut root dir nodes :=
  fun id m held notRoot _ => none id m held notRoot

theorem IntactBut.noOrphans (intact : IntactBut root dir nodes) (present : (nodes dir).isSome) : NoOrphans root nodes := by
  intro id m held notRoot
  by_cases child : m.pid = dir
  · rw [child]
    exact present
  · exact intact id m held notRoot child

theorem Made.present (made : Made root dir nodes) (none : NoOrphans root nodes) : (nodes dir).isSome := by
  obtain ⟨id, m, notRoot, -, held, child⟩ := made
  rw [← child]
  exact none id m held notRoot

/-- An entry of the directory is set. -/
theorem IntactBut.set (intact : IntactBut root dir nodes) (id : String) {m : BlobFsMetadata} (child : m.pid = dir) :
    IntactBut root dir (Function.update nodes id (some m)) := by
  intro other m' held notRoot notChild
  rw [Function.update_apply] at held ⊢
  split at held
  · cases held
    exact absurd child notChild
  · split
    · rfl
    · exact intact other m' held notRoot notChild

theorem IntactBut.remove (intact : IntactBut root dir nodes) : IntactBut root dir (Function.update nodes dir none) := by
  intro id m held notRoot notChild
  rw [Function.update_apply] at held
  split at held
  · cases held
  · rw [Function.update_of_ne notChild]
    exact intact id m held notRoot notChild

theorem Made.set (made : Made root dir nodes) {id : String} {m : BlobFsMetadata} (child : m.pid = dir) :
    Made root dir (Function.update nodes id (some m)) := by
  obtain ⟨other, m', notRoot, notDir, held, child'⟩ := made
  by_cases same : other = id
  · exact ⟨other, m, notRoot, notDir, by rw [same, Function.update_self], child⟩
  · exact ⟨other, m', notRoot, notDir, (Function.update_of_ne same ..).trans held, child'⟩

theorem Made.remove (made : Made root dir nodes) : Made root dir (Function.update nodes dir none) := by
  obtain ⟨id, m, notRoot, notDir, held, child⟩ := made
  exact ⟨id, m, notRoot, notDir, (Function.update_of_ne notDir ..).trans held, child⟩

/-! ## Where the clients can be -/

/-- Where a client can be that makes an entry. -/
inductive Making (sha256 : List UInt8 → List UInt8) (root dir : String) (nodes : String → Option BlobFsMetadata) :
    Client → Prop
  | sets (d : FSNode) (entry : String) (mode : UInt32) (now : Time) :
      d.bfsNode.id = dir → d.fsId sha256 entry ≠ root → d.fsId sha256 entry ≠ dir →
      Making sha256 root dir nodes (.start d (d.makeNode sha256 entry mode now))
  | links (d : FSNode) (entry : String) (mode : UInt32) :
      Made root dir nodes → Making sha256 root dir nodes (.start d (d.linkNew sha256 entry mode))
  | returned (via : Connection) (result : Except Errno Unit) :
      Made root dir nodes → Making sha256 root dir nodes ⟨via, .ret result⟩

theorem Making.mono {nodes' : String → Option BlobFsMetadata} (grows : Made root dir nodes → Made root dir nodes')
    {client : Client} (here : Making sha256 root dir nodes client) : Making sha256 root dir nodes' client := by
  cases here with
  | sets d entry mode now isDir notRoot notDir => exact .sets d entry mode now isDir notRoot notDir
  | links d entry mode made => exact .links d entry mode (grows made)
  | returned via result made => exact .returned via result (grows made)

/-- Where the client that removes the directory can be, after it has asked for the children;
`kept` if the directory stays. -/
inductive Removing (sha256 : List UInt8 → List UInt8) (n : FSNode) (name : String) (kept : Prop)
    (nodes : String → Option BlobFsMetadata) : Client → Prop
  | removes : ¬ kept → Removing sha256 n name kept nodes (.start n (n.unlink sha256 name))
  | unlinks : ((nodes (n.fsId sha256 name)).isSome ↔ kept) →
      Removing sha256 n name kept nodes (.start n (n.unlinkChild sha256 name))
  | returned (result : Except Errno Unit) : ((nodes (n.fsId sha256 name)).isSome ↔ kept) →
      Removing sha256 n name kept nodes ⟨n.filesystem, .ret result⟩

theorem Removing.congr {n : FSNode} {name : String} {kept : Prop} {nodes' : String → Option BlobFsMetadata}
    (same : (nodes' (n.fsId sha256 name)).isSome = (nodes (n.fsId sha256 name)).isSome) {client : Client}
    (here : Removing sha256 n name kept nodes client) : Removing sha256 n name kept nodes' client := by
  cases here with
  | removes notKept => exact .removes notKept
  | unlinks outcome =>
    rw [← same] at outcome
    exact .unlinks outcome
  | returned result outcome =>
    rw [← same] at outcome
    exact .returned result outcome

end

section

variable {sha256 : List UInt8 → List UInt8} {root dir : String} {st : NodeStore} {client : Client}

theorem move_makeNode (d : FSNode) (entry : String) (mode : UInt32) (now : Time) :
    (Client.start d (d.makeNode sha256 entry mode now)).move NodeStore.serve st =
      (st.setNode (d.fsId sha256 entry) (some (BlobCacheMetadata.nextVersion
        (d.filesystem.passes (d.newMetadata sha256 entry mode now)) (st.nodes (d.fsId sha256 entry)))),
        .start d (d.linkNew sha256 entry mode)) := by
  simp only [Client.start, Client.move, FSNode.makeNode, Program.perform_bind_bind, Program.advance_bind,
    NodeStore.serve_setFsNode]

theorem move_linkNew (d : FSNode) (entry : String) (mode : UInt32) :
    (Client.start d (d.linkNew sha256 entry mode)).move NodeStore.serve st =
      (st.addChild d.bfsNode.id (d.fsId sha256 entry), ⟨d.filesystem, .ret (.ok ())⟩) := by
  simp only [Client.start, Client.move, FSNode.linkNew, Program.perform_bind_bind, Program.advance_bind,
    NodeStore.serve_addFsNodeChild]
  rfl

theorem move_rmdir (n : FSNode) (name : String) :
    (Client.start n (n.rmdir sha256 name)).move NodeStore.serve st =
      (st, if st.present (n.fsId sha256 name) = [] then .start n (n.unlink sha256 name)
        else ⟨n.filesystem, .ret (.error .enotempty)⟩) := by
  simp only [Client.start, Client.move, FSNode.rmdir, Program.perform_bind_bind, Program.advance_bind,
    NodeStore.serve_getFsNodeChildren, List.map_eq_nil_iff]
  split <;> rfl

theorem move_unlink (n : FSNode) (name : String) :
    (Client.start n (n.unlink sha256 name)).move NodeStore.serve st =
      (st.setNode (n.fsId sha256 name) none, .start n (n.unlinkChild sha256 name)) := by
  simp only [Client.start, Client.move, FSNode.unlink, Program.perform_bind_bind, Program.advance_bind,
    NodeStore.serve_removeFsNode]

theorem move_unlinkChild (n : FSNode) (name : String) :
    (Client.start n (n.unlinkChild sha256 name)).move NodeStore.serve st =
      (st.removeChild n.bfsNode.id (n.fsId sha256 name), ⟨n.filesystem, .ret (.ok ())⟩) := by
  simp only [Client.start, Client.move, FSNode.unlinkChild, Program.perform_bind_bind, Program.advance_bind,
    NodeStore.serve_removeFsNodeChild]
  rfl

/-! ## What one call can do -/

/-- A call of a client that makes an entry: it does not touch the directory's node. -/
theorem Making.moved (here : Making sha256 root dir st.nodes client) (intact : IntactBut root dir st.nodes) :
    let next := client.move NodeStore.serve st
    Making sha256 root dir next.1.nodes next.2 ∧ IntactBut root dir next.1.nodes ∧
      (Made root dir st.nodes → Made root dir next.1.nodes) ∧ (next.1.nodes dir).isSome = (st.nodes dir).isSome := by
  cases here with
  | sets d entry mode now isDir notRoot notDir =>
    rw [move_makeNode]
    generalize stored : BlobCacheMetadata.nextVersion _ _ = m
    have child : m.pid = dir := by
      rw [← stored, ← isDir]
      cases d.filesystem <;> cases st.nodes (d.fsId sha256 entry) <;> rfl
    refine ⟨.links d entry mode ?_, intact.set _ child, fun made => made.set child, ?_⟩
    · exact ⟨_, m, notRoot, notDir, NodeStore.setNode_self .., child⟩
    · rw [NodeStore.setNode_other _ _ notDir.symm]
  | links d entry mode made =>
    rw [move_linkNew]
    exact ⟨.returned _ _ made, intact, fun made => made, rfl⟩
  | returned via result made => exact ⟨.returned via result made, intact, fun made => made, rfl⟩

/-- A call of the client that removes the directory, after it has asked for the children. -/
theorem Removing.moved {n : FSNode} {name : String} {kept : Prop} (here : Removing sha256 n name kept st.nodes client)
    (intact : IntactBut root (n.fsId sha256 name) st.nodes) :
    let next := client.move NodeStore.serve st
    Removing sha256 n name kept next.1.nodes next.2 ∧ IntactBut root (n.fsId sha256 name) next.1.nodes ∧
      (Made root (n.fsId sha256 name) st.nodes → Made root (n.fsId sha256 name) next.1.nodes) := by
  cases here with
  | removes notKept =>
    rw [move_unlink]
    refine ⟨.unlinks ?_, intact.remove, fun made => made.remove⟩
    rw [NodeStore.setNode_self]
    exact iff_of_false Bool.false_ne_true notKept
  | unlinks outcome =>
    rw [move_unlinkChild]
    exact ⟨.returned _ outcome, intact, fun made => made⟩
  | returned result outcome => exact ⟨.returned result outcome, intact, fun made => made⟩

/-- The call that asks for the children decides whether the directory stays. -/
theorem Removing.asked (n : FSNode) (name : String) :
    ((Client.start n (n.rmdir sha256 name)).move NodeStore.serve st).1 = st ∧
      Removing sha256 n name ((st.nodes (n.fsId sha256 name)).isSome ∧ st.present (n.fsId sha256 name) ≠ []) st.nodes
        ((Client.start n (n.rmdir sha256 name)).move NodeStore.serve st).2 := by
  rw [move_rmdir]
  refine ⟨rfl, ?_⟩
  dsimp only
  split
  · rename_i empty
    exact .removes fun kept => kept.2 empty
  · rename_i nonempty
    exact .returned _ ⟨fun present => ⟨present, nonempty⟩, fun kept => kept.1⟩

end

/-! ## Runs over the store -/

section

variable {sha256 : List UInt8 → List UInt8} {root : String} {n : FSNode} {name : String} {w : World}
  {p q : Clients NodeStore}

/-- What holds along a run, given what holds of the client that removes the directory. -/
theorem makes_run {Q : (String → Option BlobFsMetadata) → Client → Prop}
    (spawns : ∀ client, Clients.Makes sha256 w n name (.spawn client) →
      ∀ nodes, Making sha256 root (n.fsId sha256 name) nodes client)
    (removes : ∀ (st : NodeStore) client, Q st.nodes client → IntactBut root (n.fsId sha256 name) st.nodes →
      let next := client.move NodeStore.serve st
      Q next.1.nodes next.2 ∧ IntactBut root (n.fsId sha256 name) next.1.nodes ∧
        (Made root (n.fsId sha256 name) st.nodes → Made root (n.fsId sha256 name) next.1.nodes))
    (kept : ∀ nodes nodes' client,
      (nodes' (n.fsId sha256 name)).isSome = (nodes (n.fsId sha256 name)).isSome → Q nodes client → Q nodes' client)
    (run : Clients.RunOver sha256 NodeStore.serve w n name p q)
    (intact : IntactBut root (n.fsId sha256 name) p.shared.store.nodes)
    (remover : Q p.shared.store.nodes p.shared.remover)
    (makers : ∀ client ∈ p.threads, Making sha256 root (n.fsId sha256 name) p.shared.store.nodes client) :
    (IntactBut root (n.fsId sha256 name) q.shared.store.nodes ∧ Q q.shared.store.nodes q.shared.remover) ∧
      ∀ client ∈ q.threads, Making sha256 root (n.fsId sha256 name) q.shared.store.nodes client := by
  refine Pool.invariant_stable
    (I := fun s => IntactBut root (n.fsId sha256 name) s.store.nodes ∧ Q s.store.nodes s.remover)
    (L := fun s => Making sha256 root (n.fsId sha256 name) s.store.nodes) ?_ ?_ ?_ run ⟨intact, remover⟩ makers
  · rintro p ⟨⟩ - ⟨intact, remover⟩
    obtain ⟨remover', intact', grows⟩ := removes _ _ remover intact
    exact ⟨⟨intact', remover'⟩, fun other here => here.mono grows⟩
  · exact fun p client admitted _ => spawns client admitted _
  · rintro p t ⟨⟩ client - - ⟨intact, remover⟩ here
    obtain ⟨here', intact', grows, same⟩ := here.moved intact
    exact ⟨⟨intact', kept _ _ _ same remover⟩, here', fun other here => here.mono grows⟩

/-- Without others the client that removes the directory runs as a whole. -/
theorem alone_run (run : Clients.RunOver sha256 NodeStore.serve w n name p q) (alone : q.threads = []) :
    q.shared.remover.rest.run (NodeStore.serve q.shared.remover.via) q.shared.store =
      p.shared.remover.rest.run (NodeStore.serve p.shared.remover.via) p.shared.store := by
  induction run with
  | refl => rfl
  | @tail q a _ _ ih =>
    cases a with
    | env =>
      rw [← ih alone]
      exact Program.run_advance ..
    | spawn client => simp [Pool.step] at alone
    | move t choice =>
      simp only [Pool.step] at alone ⊢
      cases found : q.threads[t]? with
      | none =>
        rw [found] at alone
        exact ih alone
      | some client =>
        rw [found] at alone
        rw [List.set_eq_nil_iff] at alone
        rw [alone] at found
        cases found

/-- A handle for the entry of a directory with the name. -/
theorem Handle.of_fullPath {d : FSNode} {path path' : List Component} (handle : Handle sha256 n path)
    (proper : Proper name.toList) (handle' : Handle sha256 d path') (onDir : d.bfsNode.path = n.fullPath name) :
    path' = path ++ [name.toList] := by
  have same := handle'.path.symm.trans (onDir.trans (handle.fullPath proper))
  have properEntry := List.forall_mem_append.mpr ⟨handle.isPath.proper, List.forall_mem_singleton.mpr proper⟩
  exact rooted_injective handle'.isPath.proper properEntry same

theorem idOf_nil : idOf sha256 [] = generateFsID sha256 "/" := rfl

/-- The ids of a path and of a longer one differ. -/
theorem idOf_ne_of_length (noCollisions : Function.Injective (generateFsID sha256)) {path path' : List Component}
    (proper : ∀ c ∈ path, Proper c) (proper' : ∀ c ∈ path', Proper c) (shorter : path'.length < path.length) :
    idOf sha256 path ≠ idOf sha256 path' := by
  intro same
  rw [idOf_injective sha256 noCollisions proper proper' same] at shorter
  exact absurd shorter (Nat.lt_irrefl _)

/-- The clients that start are at the start. -/
theorem makes_making (noCollisions : Function.Injective (generateFsID sha256))
    (handles : ∀ d ∈ w.handles, ∃ path, Handle sha256 d path) (member : n ∈ w.handles) (proper : Proper name.toList)
    (client : Client) (makes : Clients.Makes sha256 w n name (.spawn client))
    (nodes : String → Option BlobFsMetadata) :
    Making sha256 (generateFsID sha256 "/") (n.fsId sha256 name) nodes client := by
  obtain ⟨d, member', onDir, entry, mode, now, proper', operation⟩ := makes
  obtain ⟨path, handle⟩ := handles n member
  obtain ⟨path', handle'⟩ := handles d member'
  have dirId := handle.fsId proper
  have entryId := handle'.fsId proper'
  cases handle.of_fullPath proper handle' onDir
  have properEntry := List.forall_mem_append.mpr ⟨handle'.isPath.proper, List.forall_mem_singleton.mpr proper'⟩
  have isDir : d.bfsNode.id = n.fsId sha256 name := handle'.id.trans dirId.symm
  have notRoot : d.fsId sha256 entry ≠ generateFsID sha256 "/" := by
    rw [entryId, ← idOf_nil]
    exact idOf_ne_of_length noCollisions properEntry IsPath.nil.proper (by simp)
  have notDir : d.fsId sha256 entry ≠ n.fsId sha256 name := by
    rw [entryId, dirId]
    exact idOf_ne_of_length noCollisions properEntry handle'.isPath.proper (by simp)
  rcases operation with rfl | rfl
  · exact .sets d entry mode now isDir notRoot notDir
  · exact .sets d entry _ now isDir notRoot notDir

/-- A node whose parent's id is that of a directory is a child of it that is there. -/
theorem Tree.present_of_pid {st : NodeStore} (tree : Tree sha256 st)
    (noCollisions : Function.Injective (generateFsID sha256)) {path : List Component} (proper : ∀ c ∈ path, Proper c)
    {id : String} {m : BlobFsMetadata} (held : st.nodes id = some m) (notRoot : id ≠ generateFsID sha256 "/")
    (child : m.pid = idOf sha256 path) : m ∈ st.present (idOf sha256 path) := by
  obtain ⟨q, path', rfl, isNode, linked⟩ := tree.node id m held
  rcases List.eq_nil_or_concat' q with rfl | ⟨parent, c, rfl⟩
  · exact absurd idOf_nil notRoot
  · have parentPath : parent = path :=
      idOf_injective sha256 noCollisions path'.init.proper proper ((isNode.pid parent c rfl).symm.trans child)
    rw [← parentPath]
    exact List.mem_filterMap.mpr ⟨_, linked parent c rfl, held⟩

/-- Removing a directory without children leaves no orphan. -/
theorem Tree.rmdir_noOrphans {st : NodeStore} (tree : Tree sha256 st)
    (noCollisions : Function.Injective (generateFsID sha256)) {path : List Component}
    (handle : Handle sha256 n path) (proper : Proper name.toList) (via : Connection)
    (before : NoOrphans (generateFsID sha256 "/") st.nodes) :
    NoOrphans (generateFsID sha256 "/") ((n.rmdir sha256 name).run (NodeStore.serve via) st).2.nodes := by
  rw [run_rmdir]
  split
  · rename_i empty
    rw [run_unlink, NodeStore.removeChild_nodes]
    intro id m held notRoot
    apply IntactBut.remove before.intactBut id m held notRoot
    intro child
    have held' : st.nodes id = some m := by
      by_cases same : id = n.fsId sha256 name
      · rw [same, NodeStore.setNode_self] at held
        cases held
      · rwa [NodeStore.setNode_other _ _ same] at held
    rw [handle.fsId proper] at empty child
    have properEntry := List.forall_mem_append.mpr ⟨handle.isPath.proper, List.forall_mem_singleton.mpr proper⟩
    have member := tree.present_of_pid noCollisions properEntry held' notRoot child
    rw [empty] at member
    cases member
  · exact before

/-- A run from the start. -/
theorem makes_run_start {st : NodeStore}
    (spawns : ∀ client, Clients.Makes sha256 w n name (.spawn client) →
      ∀ nodes, Making sha256 root (n.fsId sha256 name) nodes client)
    (run : Clients.RunOver sha256 NodeStore.serve w n name (Clients.start sha256 st n name) p)
    (before : NoOrphans root st.nodes) :
    (IntactBut root (n.fsId sha256 name) p.shared.store.nodes ∧
      (p.shared.remover = .start n (n.rmdir sha256 name) ∨
        ∃ kept, Removing sha256 n name kept p.shared.store.nodes p.shared.remover)) ∧
      ∀ client ∈ p.threads, Making sha256 root (n.fsId sha256 name) p.shared.store.nodes client := by
  refine makes_run (Q := fun nodes client => client = .start n (n.rmdir sha256 name) ∨
    ∃ kept, Removing sha256 n name kept nodes client) spawns ?_ ?_ run before.intactBut (.inl rfl) ?_
  · rintro st client (rfl | ⟨kept, here⟩) intact
    · obtain ⟨same, decided⟩ := @Removing.asked sha256 st n name
      simp only [same]
      exact ⟨.inr ⟨_, decided⟩, intact, fun made => made⟩
    · obtain ⟨here', intact', grows⟩ := here.moved intact
      exact ⟨.inr ⟨kept, here'⟩, intact', grows⟩
  · rintro nodes nodes' client same (asks | ⟨kept, here⟩)
    · exact .inl asks
    · exact .inr ⟨kept, here.congr same⟩
  · exact fun client member => by cases member

theorem Client.start_not_returned {α β : Type} (n : FSNode) (c : FsCall β) (next : β → Program FsCall (Except Errno α)) :
    ¬ (Client.start n (.perform c >>= next)).Returned :=
  Client.not_returned_call _ _ _

/-- **Orphans over the store.** -/
theorem store_noOrphans_iff {st : NodeStore} {path : List Component} (noCollisions : Function.Injective (generateFsID sha256))
    (handle : Handle sha256 n path) (proper : Proper name.toList) (tree : Tree sha256 st)
    (spawns : ∀ client, Clients.Makes sha256 w n name (.spawn client) →
      ∀ nodes, Making sha256 (generateFsID sha256 "/") (n.fsId sha256 name) nodes client)
    (before : NoOrphans (generateFsID sha256 "/") st.nodes)
    (toAsk : Clients.RunOver sha256 NodeStore.serve w n name (Clients.start sha256 st n name) p)
    (asks : p.shared.remover = .start n (n.rmdir sha256 name))
    (fromAsk : Clients.RunOver sha256 NodeStore.serve w n name (Clients.step NodeStore.serve (.env ()) p) q)
    (complete : q.Complete) :
    NoOrphans (generateFsID sha256 "/") q.shared.store.nodes ↔ q.threads = [] ∨
      (p.shared.store.nodes (n.fsId sha256 name)).isSome ∧ p.shared.store.present (n.fsId sha256 name) ≠ [] := by
  obtain ⟨⟨intact, -⟩, makers⟩ := makes_run_start spawns toAsk before
  obtain ⟨same, decided⟩ := @Removing.asked sha256 p.shared.store n name
  rw [← asks] at same decided
  obtain ⟨⟨intact', outcome⟩, makers'⟩ := makes_run (Q := Removing sha256 n name _) spawns
    (fun st client here => here.moved) (fun nodes nodes' client same here => here.congr same) fromAsk
    (by simpa only [Pool.step, Clients.moveRemover, same] using intact)
    (by simpa only [Pool.step, Clients.moveRemover, same] using decided)
    (by simpa only [Pool.step, Clients.moveRemover, same] using makers)
  have stays : (q.shared.store.nodes (n.fsId sha256 name)).isSome ↔
      (p.shared.store.nodes (n.fsId sha256 name)).isSome ∧ p.shared.store.present (n.fsId sha256 name) ≠ [] := by
    have returned := complete.1
    generalize q.shared.remover = remover at outcome returned
    cases outcome with
    | removes _ => exact absurd returned (Client.start_not_returned _ _ _)
    | unlinks _ => exact absurd returned (Client.start_not_returned _ _ _)
    | returned _ stays => exact stays
  constructor
  · intro none
    by_cases alone : q.threads = []
    · exact .inl alone
    · -- any client has made an entry, whose parent is the directory
      obtain ⟨client, member⟩ := List.exists_mem_of_ne_nil _ alone
      have returned := complete.2 client member
      cases makers' client member with
      | sets d entry mode now => exact absurd returned (Client.start_not_returned _ _ _)
      | links d entry mode => exact absurd returned (Client.start_not_returned _ _ _)
      | returned via result made => exact .inr (stays.mp (made.present none))
  · rintro (alone | kept)
    · have asked := toAsk.tail (.env ()) (show Clients.Makes sha256 w n name (.env ()) from trivial)
      have whole := alone_run (asked.trans fromAsk) alone
      obtain ⟨result, ended⟩ := complete.1
      rw [ended] at whole
      have final : q.shared.store = ((n.rmdir sha256 name).run (NodeStore.serve n.filesystem) st).2 := by
        have stores := congrArg Prod.snd whole
        simpa only [Clients.start, Client.start, Program.run_bind, Program.run_pure, Program.run] using stores
      rw [final]
      exact tree.rmdir_noOrphans noCollisions handle proper n.filesystem before
    · exact intact'.noOrphans (stays.mpr kept)

end

/-! ## Runs over Redis -/

section

variable {sha256 : List UInt8 → List UInt8} {n : FSNode} {name : String} {w : World} {p q : Clients Keyspace}

/-- Redis represents the store, and the client that removes the directory is the same. -/
def Simulates (s : Shared Keyspace) (s' : Shared NodeStore) : Prop :=
  Represents s.store s'.store ∧ s.remover = s'.remover ∧ s.remover.rest.Calls FsCall.OnPlain

theorem Client.move_related {ks : Keyspace} {st : NodeStore} (represents : Represents ks st) {client : Client}
    (plain : client.rest.Calls FsCall.OnPlain) :
    Represents (client.move Connection.serve ks).1 (client.move NodeStore.serve st).1 ∧
      (client.move Connection.serve ks).2 = (client.move NodeStore.serve st).2 ∧
      (client.move Connection.serve ks).2.rest.Calls FsCall.OnPlain := by
  obtain ⟨after, same, plain'⟩ :=
    Program.advance_related (fun _ _ _ _ onPlain before => before.serve client.via onPlain) plain represents
  refine ⟨after, ?_, plain'⟩
  simp only [Client.move, same]

theorem Client.start_plain {α : Type} (n : FSNode) {operation : Program FsCall (Except Errno α)}
    (plain : operation.Calls FsCall.OnPlain) : (Client.start n operation).rest.Calls FsCall.OnPlain :=
  Program.calls_bind plain fun _ => .ret _

theorem makes_plain (handles : ∀ d ∈ w.handles, ∃ path, Handle sha256 d path) (client : Client)
    (makes : Clients.Makes sha256 w n name (.spawn client)) : client.rest.Calls FsCall.OnPlain := by
  obtain ⟨d, member, -, entry, mode, now, -, operation⟩ := makes
  obtain ⟨path, handle⟩ := handles d member
  rcases operation with rfl | rfl
  · exact Client.start_plain d (makeNode_plain entry handle mode now)
  · exact Client.start_plain d (makeNode_plain entry handle _ now)

theorem Simulates.moveRemover {s : Shared Keyspace} {s' : Shared NodeStore} (simulates : Simulates s s') :
    Simulates (Clients.moveRemover Connection.serve () s) (Clients.moveRemover NodeStore.serve () s') := by
  obtain ⟨represents, same, plain⟩ := simulates
  cases s
  cases s'
  cases same
  exact Client.move_related represents plain

/-- The run over Redis is one over the store. -/
theorem run_simulates (handles : ∀ d ∈ w.handles, ∃ path, Handle sha256 d path) (run : Clients.Run sha256 w n name p q)
    {s' : Shared NodeStore} (simulates : Simulates p.shared s')
    (threads : ∀ client ∈ p.threads, client.rest.Calls FsCall.OnPlain) :
    ∃ t', Clients.RunOver sha256 NodeStore.serve w n name ⟨s', p.threads⟩ ⟨t', q.threads⟩ ∧
      Simulates q.shared t' ∧ ∀ client ∈ q.threads, client.rest.Calls FsCall.OnPlain := by
  refine Pool.simulates (R := Simulates) ?_ (makes_plain handles) ?_ run simulates threads
  · exact fun _ _ _ related => related.moveRemover
  · rintro ⟨⟩ s s' client ⟨represents, same, plain⟩ here
    obtain ⟨after, moved, here'⟩ := Client.move_related represents here
    exact ⟨⟨after, same, plain⟩, moved, here'⟩

theorem hasChild_iff {ks : Keyspace} {st : NodeStore} (represents : Represents ks st) {id : String} (plain : Plain id) :
    HasChild ks id ↔ st.present id ≠ [] := by
  have stored (child : String) : (storedNode ks child).isSome ↔ ∃ m, st.nodes child = some m := by
    rw [represents.storedNode, Option.isSome_iff_exists]
  constructor
  · rintro ⟨ids, members, child, member, there⟩
    cases (represents.children id plain).symm.trans members
    obtain ⟨m, held⟩ := (stored child).mp there
    exact List.ne_nil_of_mem (List.mem_filterMap.mpr ⟨child, member, held⟩)
  · intro some
    obtain ⟨m, member⟩ := List.exists_mem_of_ne_nil _ some
    obtain ⟨child, member', held⟩ := List.mem_filterMap.mp member
    exact ⟨_, represents.children id plain, child, member', (stored child).mpr ⟨m, held⟩⟩

/-- The client has not asked for the children yet, or it has. -/
theorem asks_or_asked (run : Clients.Run sha256 w n name (Clients.start sha256 w.redis n name) q) :
    q.shared.remover = .start n (n.rmdir sha256 name) ∨ ∃ p, Clients.AskedIn sha256 w n name p q := by
  induction run with
  | refl => exact .inl rfl
  | @tail q a run admitted ih =>
    rcases ih with asks | ⟨p, asked⟩
    · cases a with
      | env => exact .inr ⟨q, run, asks, .refl _⟩
      | spawn client => exact .inl asks
      | move t choice =>
        left
        rw [← asks]
        simp only [Pool.step]
        cases q.threads[t]? <;> rfl
    · exact .inr ⟨p, asked.before, asked.asks, asked.after.tail a admitted⟩

end

/-- The directory in which entries are made. -/
def mkdirD : List FsOp := [.newFileSystem .direct, .mkdir (root .direct) "d" 0o755 ⟨1, 0⟩]

def worldWithD : World := after (World.step padded) mkdirD .fresh

theorem mkdirD_run : Trace (World.step padded) World.Allowed .fresh worldWithD := by
  have mounted : root .direct ∈ (after (World.step padded) (mkdirD.take 1) .fresh).handles := by decide
  apply Trace.of_list
  rintro ⟨_ | _ | k, below⟩
  · trivial
  · exact ⟨mounted, by decide⟩
  · exact absurd below (by simp [mkdirD])

theorem mkdirD_noOrphans : NoOrphans (generateFsID padded "/") (storedNode worldWithD.redis) := by
  have handle : Handle padded (root .direct) [] := ⟨.nil, rfl, rfl⟩
  have mounted := (Represents.empty.run .direct (@newFileSystem_plain padded .direct)).2
  have made := (mounted.run .direct (@makeNode_plain padded _ _ "d" handle (sIFDIR ||| 0o755) ⟨1, 0⟩)).2
  rw [run_makeNode] at made
  intro id m held notRoot
  have stored := (made.storedNode id).symm.trans held
  rw [NodeStore.addChild_nodes] at stored
  by_cases entry : id = (root .direct).fsId padded "d"
  · rw [entry, NodeStore.setNode_self] at stored
    cases stored
    show (storedNode worldWithD.redis (generateFsID padded "/")).isSome = true
    decide +kernel
  · rw [NodeStore.setNode_other _ _ entry] at stored
    have absent : ((newFileSystem padded .direct).run (NodeStore.serve .direct) .empty).2.nodes id = none :=
      NodeStore.setNode_other _ _ notRoot
    rw [absent] at stored
    cases stored

def createX : Client := .start directoryD (directoryD.create padded "x" 0o644 ⟨2, 0⟩)

def mkdirY : Client := .start directoryD (directoryD.mkdir padded "y" 0o755 ⟨3, 0⟩)

theorem after_run (actions : List (Action Client Unit Unit))
    (spawns : ∀ client, .spawn client ∈ actions → client = createX ∨ client = mkdirY) (p : Clients Keyspace) :
    Clients.Run padded worldWithD (root .direct) "d" p (after (Clients.step Connection.serve) actions p) := by
  have given : directoryD ∈ worldWithD.handles := by decide
  apply Trace.of_list
  intro k
  generalize taken : actions.get k = a
  cases a with
  | env => trivial
  | move => trivial
  | spawn client =>
    refine ⟨directoryD, given, by decide, ?_⟩
    rcases spawns client (taken ▸ List.get_mem ..) with rfl | rfl
    · exact ⟨"x", _, _, (show IsName "x".toList by decide).proper, .inl rfl⟩
    · exact ⟨"y", _, _, (show IsName "y".toList by decide).proper, .inr rfl⟩

/-- A file has been made before `Rmdir` asks. -/
def askedWithChild : Clients Keyspace :=
  after (Clients.step Connection.serve) [.spawn createX, .move 0 (), .move 0 ()]
    (Clients.start padded worldWithD.redis (root .direct) "d")

/-- `Rmdir` has asked, and then a directory has been made. -/
def endWithChild : Clients Keyspace :=
  after (Clients.step Connection.serve) [.spawn mkdirY, .move 1 (), .move 1 ()]
    (Clients.step Connection.serve (.env ()) askedWithChild)

end Blobcache.FileSystem
