import Blobcache.FileSystem.Listing

/-!
# The chain of nodes to a file

`StoreContentInBlobFs` stores the directories on the way to a file and the file, each under the id of its
path, and links each to the one before. Here it runs on any state of Redis, through the client of either
connection, and the path is any string: `storeOf` reads the state as a store of nodes, and what a
successful run has done to this store is said as a whole (`ChainedFrom`), with all that it leaves alone.

A round of the loop is one `SetFsNode` and one `AddFsNodeChild`; the loop is done by induction over the
components that are left.
-/

namespace Blobcache.FileSystem
set_option autoImplicit false
open Service FilePath
open Coordinator Coordinator.BlobCacheMetadata
open Redis (Keyspace Fields)

/-! ## Redis as a store -/

/-- The nodes and the children that are in Redis. A key of the wrong kind holds nothing. -/
def storeOf (ks : Keyspace) : NodeStore where
  nodes := storedNode ks
  children id := (ks.smembers (metadataFsNodeChildren id)).toOption.getD []

theorem storedNode_of_hgetall {ks : Keyspace} {id : String} {res : Fields}
    (answer : ks.hgetall (metadataFsNode id) = .ok res) :
    storedNode ks id = if res = [] then none else some (.ofFields res) := by
  simp only [storedNode, BlobCacheMetadata.getFsNode, Program.run_bind, Program.run_perform, Keyspace.serve, answer,
    Program.run_pure]
  split <;> rfl

theorem storedNode_congr {ks ks' : Keyspace} {id : String} (same : ks' (metadataFsNode id) = ks (metadataFsNode id)) :
    storedNode ks' id = storedNode ks id := by
  unfold storedNode
  rw [getFsNode_congr same]

/-- A set is not a node. -/
theorem storedNode_of_set {ks : Keyspace} {id : String}
    (held : ks (metadataFsNode id) = none ∨ ∃ members, ks (metadataFsNode id) = some (.set members)) :
    storedNode ks id = none := by
  rcases held with absent | ⟨members, set⟩
  · have none : ks.hgetall (metadataFsNode id) = .ok [] := by rw [Keyspace.hgetall, absent]
    rw [storedNode_of_hgetall none]
    rfl
  · simp only [storedNode, BlobCacheMetadata.getFsNode, Program.run_bind, Program.run_perform, Keyspace.serve,
      Keyspace.hgetall, set]
    rfl

/-- What the metadata found under a key says is the node before. -/
theorem incremented_eq {ks : Keyspace} {id : String} {res : Fields} (answer : ks.hgetall (metadataFsNode id) = .ok res)
    (m : BlobFsMetadata) : incremented res m = nextVersion m (storedNode ks id) := by
  rw [storedNode_of_hgetall answer]
  by_cases empty : res = []
  · simp only [incremented, if_pos empty, nextVersion]
  · simp only [incremented, if_neg empty, nextVersion]

/-- A call that succeeds over the network succeeds at the server. -/
theorem answerOk_of_checkOk {operation : String} {answer : Except CoordinatorError Unit}
    (ok : checkOk operation (CacheService.answerOk answer) = .ok ()) : answer = .ok () := by
  cases answer with
  | ok _ => rfl
  | error e => cases ok

/-- A `SetFsNode` that succeeds, at the coordinator. -/
theorem run_setFsNode {via : Connection} {ks ks' : Keyspace} {id : String} {m : BlobFsMetadata}
    (set : via.serve _ (.setFsNode id m) ks = (.ok (), ks')) :
    (setFsNode id (via.passes m)).run Keyspace.serve ks = (.ok (), ks') := by
  cases via with
  | direct => exact set
  | remote =>
    obtain ⟨ok, after⟩ := Prod.mk.inj ((remote_run coordinatorClientLocal (.setFsNode id m) ks).symm.trans set)
    exact Prod.ext (answerOk_of_checkOk ok) after

theorem run_addFsNodeChild {via : Connection} {ks ks' : Keyspace} {pid id : String}
    (added : via.serve _ (.addFsNodeChild pid id) ks = (.ok (), ks')) :
    (addFsNodeChild pid id).run Keyspace.serve ks = (.ok (), ks') := by
  cases via with
  | direct => exact added
  | remote =>
    obtain ⟨ok, after⟩ := Prod.mk.inj ((remote_run coordinatorClientLocal (.addFsNodeChild pid id) ks).symm.trans added)
    exact Prod.ext (answerOk_of_checkOk ok) after

/-- A `SetFsNode` that succeeds. -/
theorem storeOf_setFsNode {ks ks' : Keyspace} {id : String} {m : BlobFsMetadata} (plain : Plain id)
    (ran : (setFsNode id m).run Keyspace.serve ks = (.ok (), ks')) :
    storeOf ks' = (storeOf ks).setNode id (some (nextVersion m (storedNode ks id))) := by
  simp only [setFsNode, Program.run_bind, Program.run_perform, Keyspace.serve] at ran
  cases answer : ks.hgetall (metadataFsNode id) with
  | error e =>
    rw [answer] at ran
    cases ran
  | ok res =>
    simp only [answer, writeFsNode, Program.run_bind, Program.run_perform, Keyspace.serve, Keyspace.hset,
      if_neg (toSlice_ne_nil _), incremented_eq answer] at ran
    obtain ⟨-, rfl⟩ := Prod.mk.inj ran
    have written : Written (res.setAll (nextVersion m (storedNode ks id)).toSlice) _ := Written.setAll _ _
    refine congrArg₂ NodeStore.mk (funext fun other => ?_) (funext fun other => ?_)
    · by_cases same : other = id
      · subst same
        rw [Function.update_self, storedNode_of_hgetall (Keyspace.hgetall_put_self ..), if_neg written.some_field,
          written.ofFields]
      · rw [Function.update_of_ne same]
        exact storedNode_congr (Keyspace.put_other _ _ (metadataFsNode_injective.ne same))
    · rw [Keyspace.smembers, Keyspace.put_other _ _ (children_ne_node plain other)]
      rfl

/-- An `AddFsNodeChild` that succeeds. -/
theorem storeOf_addFsNodeChild {ks ks' : Keyspace} {pid id : String}
    (ran : (addFsNodeChild pid id).run Keyspace.serve ks = (.ok (), ks')) :
    storeOf ks' = (storeOf ks).addChild pid id := by
  simp only [addFsNodeChild, Program.run_bind, Program.run_perform, Keyspace.serve, Keyspace.sadd] at ran
  cases answer : ks.smembers (metadataFsNodeChildren pid) with
  | error e =>
    rw [answer] at ran
    cases ran
  | ok members =>
    simp only [answer, Program.run_pure] at ran
    obtain ⟨-, rfl⟩ := Prod.mk.inj ran
    have before : (storeOf ks).children pid = members := by simp only [storeOf, answer]; rfl
    refine congrArg₂ NodeStore.mk (funext fun other => ?_) (funext fun other => ?_)
    · by_cases same : metadataFsNode other = metadataFsNodeChildren pid
      · -- the key of a node that is not plain can be that of the children; there was no node under it
        rw [storedNode_of_set (.inr ⟨_, by rw [same, Keyspace.put_self]⟩)]
        have none : storedNode ks other = none := by
          apply storedNode_of_set
          rw [same]
          unfold Keyspace.smembers at answer
          split at answer
          · rename_i absent
            exact .inl absent
          · rename_i held
            exact .inr ⟨_, held⟩
          · cases answer
        exact none.symm
      · exact storedNode_congr (Keyspace.put_other _ _ same)
    · by_cases same : other = pid
      · subst same
        rw [Function.update_self, before, Keyspace.smembers_put_self]
        rfl
      · rw [Function.update_of_ne same, Keyspace.smembers,
          Keyspace.put_other _ _ (metadataFsNodeChildren_injective.ne same)]
        rfl

/-! ## The chain -/

section

variable (sha256 : List UInt8 → List UInt8) (HasContent : BlobFsMetadata → Prop)

/-- What is stored for the last component of the path, `rest` being the components after it. -/
structure ChainNode (path rest : List Component) (old : Option BlobFsMetadata) (m : BlobFsMetadata) : Prop where
  isNode : IsNode sha256 m path
  directory : rest ≠ [] → m.mode = sIFDIR ||| 0o755
  content : rest = [] → HasContent m
  gen : ∀ before, old = some before → m.gen = before.gen + 1

/-- The nodes of the components were stored below the path `p`, each a child of the one before; nothing else
has changed. -/
structure ChainedFrom (p parts : List Component) (before after : NodeStore) : Prop where
  node : ∀ q c r, parts = q ++ c :: r → ∃ m, after.nodes (idOf sha256 (p ++ q ++ [c])) = some m ∧
    ChainNode sha256 HasContent (p ++ q ++ [c]) r (before.nodes (idOf sha256 (p ++ q ++ [c]))) m
  child : ∀ pid id, id ∈ after.children pid ↔ id ∈ before.children pid ∨
    ∃ q c r, parts = q ++ c :: r ∧ pid = idOf sha256 (p ++ q) ∧ id = idOf sha256 (p ++ q ++ [c])
  otherNodes : ∀ id, (∀ q c r, parts = q ++ c :: r → id ≠ idOf sha256 (p ++ q ++ [c])) → after.nodes id = before.nodes id
  otherChildren : ∀ pid, (∀ q c r, parts = q ++ c :: r → pid ≠ idOf sha256 (p ++ q)) →
    after.children pid = before.children pid

end

variable {sha256 : List UInt8 → List UInt8} {HasContent : BlobFsMetadata → Prop} {file : StoredFile}

theorem ChainedFrom.nil (p : List Component) (st : NodeStore) : ChainedFrom sha256 HasContent p [] st st where
  node q c r parts := by simp at parts
  child pid id := by simp
  otherNodes id _ := rfl
  otherChildren pid _ := rfl

section

variable {α : Type} {x : α} {xs : List α} {P : List α → α → List α → Prop}

/-- The splits of a list at one of its entries: at the first one, or later. -/
theorem forall_split_cons : (∀ q d r, x :: xs = q ++ d :: r → P q d r) ↔
    P [] x xs ∧ ∀ q d r, xs = q ++ d :: r → P (x :: q) d r := by
  constructor
  · exact fun all => ⟨all [] x xs rfl, fun q d r split => all (x :: q) d r (by rw [split]; rfl)⟩
  · rintro ⟨first, later⟩ q d r split
    cases q with
    | nil =>
      obtain ⟨rfl, rfl⟩ := List.cons.inj split
      exact first
    | cons y q =>
      obtain ⟨rfl, rest⟩ := List.cons.inj split
      exact later q d r rest

theorem exists_split_cons : (∃ q d r, x :: xs = q ++ d :: r ∧ P q d r) ↔
    P [] x xs ∨ ∃ q d r, xs = q ++ d :: r ∧ P (x :: q) d r := by
  constructor
  · rintro ⟨q, d, r, split, here⟩
    cases q with
    | nil =>
      obtain ⟨rfl, rfl⟩ := List.cons.inj split
      exact .inl here
    | cons y q =>
      obtain ⟨rfl, rest⟩ := List.cons.inj split
      exact .inr ⟨q, d, r, rest, here⟩
  · rintro (first | ⟨q, d, r, split, later⟩)
    · exact ⟨[], x, xs, rfl, first⟩
    · exact ⟨x :: q, d, r, by rw [split]; rfl, later⟩

end

/-- One round, and the rest of the chain. -/
theorem ChainedFrom.cons {p parts : List Component} {c : Component} {st after : NodeStore} {m : BlobFsMetadata}
    (here : ChainNode sha256 HasContent (p ++ [c]) parts (st.nodes (idOf sha256 (p ++ [c]))) m)
    (below : ∀ q d r, parts = q ++ d :: r → idOf sha256 (p ++ [c] ++ q ++ [d]) ≠ idOf sha256 (p ++ [c]))
    (later : ChainedFrom sha256 HasContent (p ++ [c]) parts
      ((st.setNode (idOf sha256 (p ++ [c])) (some m)).addChild (idOf sha256 p) (idOf sha256 (p ++ [c]))) after) :
    ChainedFrom sha256 HasContent p (c :: parts) st after := by
  have longer (q : List Component) : p ++ c :: q = p ++ [c] ++ q := List.append_cons p c q
  constructor
  · rw [forall_split_cons, List.append_nil]
    refine ⟨⟨m, ?_, here⟩, fun q d r split => ?_⟩
    · have last : ∀ q d r, parts = q ++ d :: r → idOf sha256 (p ++ [c]) ≠ idOf sha256 (p ++ [c] ++ q ++ [d]) :=
        fun q d r split => (below q d r split).symm
      rw [later.otherNodes _ last, NodeStore.addChild_nodes, NodeStore.setNode_self]
    · obtain ⟨m', held, node⟩ := later.node q d r split
      rw [NodeStore.addChild_nodes, NodeStore.setNode_other _ _ (below q d r split)] at node
      rw [longer q]
      exact ⟨m', held, node⟩
  · intro pid id
    rw [exists_split_cons, later.child, NodeStore.mem_addChild, NodeStore.setNode_children, or_assoc, List.append_nil]
    simp only [List.append_assoc, List.cons_append, List.nil_append]
  · intro id other
    obtain ⟨notHere, others⟩ := forall_split_cons.mp other
    rw [List.append_nil] at notHere
    have notLater : ∀ q d r, parts = q ++ d :: r → id ≠ idOf sha256 (p ++ [c] ++ q ++ [d]) := fun q d r split => by
      rw [← longer q]
      exact others q d r split
    rw [later.otherNodes id notLater, NodeStore.addChild_nodes, NodeStore.setNode_other _ _ notHere]
  · intro pid other
    obtain ⟨notHere, others⟩ := forall_split_cons.mp other
    rw [List.append_nil] at notHere
    have notLater : ∀ q d r, parts = q ++ d :: r → pid ≠ idOf sha256 (p ++ [c] ++ q) := fun q d r split => by
      rw [← longer q]
      exact others q d r split
    rw [later.otherChildren pid notLater, NodeStore.addChild, NodeStore.setChildren_other _ _ notHere,
      NodeStore.setNode_children]

theorem ChainedFrom.imp {HasContent' : BlobFsMetadata → Prop} {p parts : List Component} {before after : NodeStore}
    (h : ChainedFrom sha256 HasContent p parts before after) (implied : ∀ m, HasContent m → HasContent' m) :
    ChainedFrom sha256 HasContent' p parts before after := by
  refine ⟨fun q c r split => ?_, h.child, h.otherNodes, h.otherChildren⟩
  obtain ⟨m, held, node⟩ := h.node q c r split
  exact ⟨m, held, node.isNode, node.directory, fun last => implied m (node.content last), node.gen⟩

/-- The metadata has what the path names: the file's content, or that of a directory. -/
def FileContent (sha256 : List UInt8 → List UInt8) (file : StoredFile) (m : BlobFsMetadata) : Prop :=
  ∃ info, file.stat = .ok info ∧ m.hash = (if info.isDir then generateFsID sha256 file.path else file.hash) ∧
    m.size = if info.isDir then 0 else file.size

/-- The metadata of the file itself, as it is stored. -/
theorem partMetadata_fileContent {round : Nat} {part previousParentId : String} {m : BlobFsMetadata}
    (made : partMetadata sha256 file round part file.path previousParentId = .ok m)
    (via : Connection) (old : Option BlobFsMetadata) :
    FileContent sha256 file (nextVersion (via.passes m) old) := by
  unfold partMetadata at made
  split at made
  · cases made
  · dsimp only at made
    rw [if_pos rfl] at made
    cases stat : file.stat with
    | error text =>
      rw [stat] at made
      cases made
    | ok info =>
      rw [stat] at made
      cases made
      refine ⟨info, stat, ?_⟩
      cases via <;> cases old <;> exact ⟨rfl, rfl⟩

/-- The metadata of a component: a directory on the way, or the file at the end. -/
theorem partMetadata_chainNode {round : Nat} {p rest : List Component} {c : Component} {m : BlobFsMetadata}
    (last : rooted (p ++ [c]) = file.path ↔ rest = [])
    (made : partMetadata sha256 file round (String.ofList c) (rooted (p ++ [c])) (idOf sha256 p) = .ok m)
    (via : Connection) (old : Option BlobFsMetadata) :
    ChainNode sha256 (FileContent sha256 file) (p ++ [c]) rest old (nextVersion (via.passes m) old) := by
  refine ⟨(partMetadata_isNode made).stored via old, fun some => ?_, fun ends => ?_, fun before there => ?_⟩
  · unfold partMetadata at made
    split at made
    · cases made
    · dsimp only at made
      rw [if_neg (mt last.mp some)] at made
      cases made
      cases via <;> cases old <;> rfl
  · rw [last.mpr ends] at made
    exact partMetadata_fileContent made via old
  · rw [there]
    rfl

/-- A round that does not end the loop with an error, and the rounds after it. -/
theorem storeParts_round {via : Connection} {part before previousParentId currentPath : String} {parts : List String}
    (current : (if before = "/" then join ["/", part] else join [before, part]) = currentPath) {round : Nat}
    {ks ks' : Keyspace}
    (stored : (storeParts sha256 file (part :: parts) round before previousParentId).run via.serve ks = (.ok (), ks')) :
    ∃ m ks₂, partMetadata sha256 file round part currentPath previousParentId = .ok m ∧
      storeOf ks₂ = ((storeOf ks).setNode (generateFsID sha256 currentPath)
        (some (nextVersion (via.passes m) ((storeOf ks).nodes (generateFsID sha256 currentPath))))).addChild
          previousParentId (generateFsID sha256 currentPath) ∧
      (storeParts sha256 file parts (round + 1) currentPath (generateFsID sha256 currentPath)).run via.serve ks₂ =
        (.ok (), ks') := by
  unfold storeParts at stored
  dsimp only at stored
  rw [current] at stored
  cases made : partMetadata sha256 file round part currentPath previousParentId with
  | error e =>
    rw [made] at stored
    cases stored
  | ok m =>
    simp only [made, Program.run_bind, Program.run_perform] at stored
    rcases set : via.serve _ (.setFsNode (generateFsID sha256 currentPath) m) ks with ⟨e | ⟨⟩, ks₁⟩
    · rw [set] at stored
      cases stored
    · simp only [set, Program.run_bind, Program.run_perform] at stored
      rcases added : via.serve _ (.addFsNodeChild previousParentId (generateFsID sha256 currentPath)) ks₁ with
        ⟨e | ⟨⟩, ks₂⟩
      · rw [added] at stored
        cases stored
      · simp only [added] at stored
        refine ⟨m, ks₂, rfl, ?_, stored⟩
        rw [storeOf_addFsNodeChild (run_addFsNodeChild added),
          storeOf_setFsNode (plain_generateFsID sha256 _) (run_setFsNode set)]
        rfl

/-- **The loop**, when it comes to its end. -/
theorem storeParts_chained (noCollisions : Function.Injective (generateFsID sha256)) {via : Connection}
    {p parts : List Component} (proper : ∀ c ∈ p ++ parts, Proper c) (path : file.path = rooted (p ++ parts))
    {round : Nat} {ks ks' : Keyspace}
    (stored : (storeParts sha256 file (parts.map String.ofList) round (rooted p) (idOf sha256 p)).run via.serve ks =
      (.ok (), ks')) :
    ChainedFrom sha256 (FileContent sha256 file) p parts (storeOf ks) (storeOf ks') := by
  induction parts generalizing p round ks with
  | nil =>
    cases stored
    exact .nil p _
  | cons c parts ih =>
    have before : ∀ k ∈ p, Proper k := fun k member => proper k (List.mem_append_left _ member)
    have name : Proper c := proper c (by simp)
    rw [List.append_cons] at proper path
    have proper' : ∀ k ∈ p ++ [c], Proper k := fun k member => proper k (List.mem_append_left _ member)
    have last : rooted (p ++ [c]) = file.path ↔ parts = [] := by
      constructor
      · intro ends
        have same := rooted_injective proper' proper (ends.trans path)
        exact List.self_eq_append_right.mp same
      · rintro rfl
        rw [path, List.append_nil]
    obtain ⟨m, ks₂, made, after, rest⟩ := storeParts_round (currentPath_eq before name) stored
    have later := ih proper path rest
    rw [after] at later
    refine .cons (partMetadata_chainNode last made via _) (fun q d r split same => ?_) later
    -- the ids of the chain are different, for the paths are
    have inside : p ++ [c] ++ parts = p ++ [c] ++ q ++ [d] ++ r := by rw [split, List.append_cons q d r]; simp
    have properBelow : ∀ k ∈ p ++ [c] ++ q ++ [d], Proper k := fun k member =>
      proper k (inside ▸ List.mem_append_left _ member)
    have paths := idOf_injective sha256 noCollisions properBelow proper' same
    simp at paths

/-- The components of the path that is stored. -/
def storedComponents (path : String) : List Component := components true ('/' :: '/' :: (clean path).toList)

theorem storedComponents_proper (path : String) : ∀ c ∈ storedComponents path, Proper c :=
  fun _ member => components_proper member

theorem join_storedComponents (path : String) : join ["/", clean path] = rooted (storedComponents path) := join_root _

/-- The whole call, for a path with a component. -/
theorem storeContentInBlobFs_chained (noCollisions : Function.Injective (generateFsID sha256)) {via : Connection}
    {p : List Component} (proper : ∀ c ∈ p, Proper c) (some : p ≠ []) (path : join ["/", clean file.path] = rooted p)
    {ks ks' : Keyspace} (stored : (storeContentInBlobFs sha256 file).run via.serve ks = (.ok (), ks')) :
    ChainedFrom sha256 (FileContent sha256 { file with path := rooted p }) [] p (storeOf ks) (storeOf ks') := by
  simp only [storeContentInBlobFs, path, split_rooted proper some, List.head?_cons, if_true, List.tail_cons] at stored
  exact storeParts_chained noCollisions (p := []) proper rfl stored

/-- **Storing a path builds its chain.** Whatever Redis holds and however the path is written, after a
successful `StoreContentInBlobFs` of a regular file the node of each component of the clean path is there,
in the children of the one before, with the next generation if it was there already; all other nodes and
children are as they were. -/
theorem store_builds_chain (noCollisions : Function.Injective (generateFsID sha256)) {via : Connection}
    {info : FileInfo} (regular : file.stat = .ok info) (isFile : info.isDir = false)
    (someComponent : join ["/", clean file.path] ≠ "/") {ks ks' : Keyspace}
    (stored : (storeContentInBlobFs sha256 file).run via.serve ks = (.ok (), ks')) :
    ∃ p, (∀ c ∈ p, Proper c) ∧ join ["/", clean file.path] = rooted p ∧
      ChainedFrom sha256 (fun m => m.hash = file.hash ∧ m.size = file.size) [] p (storeOf ks) (storeOf ks') := by
  have some : storedComponents file.path ≠ [] := by
    intro none
    apply someComponent
    rw [join_storedComponents, none]
    rfl
  have proper := storedComponents_proper file.path
  have path := join_storedComponents file.path
  refine ⟨_, proper, path, ?_⟩
  refine (storeContentInBlobFs_chained noCollisions proper some path stored).imp fun m content => ?_
  obtain ⟨info', stat, hash, size⟩ := content
  cases regular.symm.trans stat
  simp only [isFile, Bool.false_eq_true, if_false] at hash size
  exact ⟨hash, size⟩

/-- What Redis holds after a file was stored in a directory. -/
def firstStored : Keyspace := ((storeContentInBlobFs padded (storedFile "/d/a")).run Connection.direct.serve .empty).2

/-- Another file is stored in the directory, by a path that is not clean: the directory gets its next
generation, and has both files as children. -/
theorem chain_over_directory :
    ∃ ks', (storeContentInBlobFs padded (storedFile "d//x/.././b")).run Connection.direct.serve firstStored =
        (.ok (), ks') ∧
      (∃ m, (storeOf ks').nodes (generateFsID padded "/d") = some m ∧ m.gen = 1) ∧
      generateFsID padded "/d/a" ∈ (storeOf ks').children (generateFsID padded "/d") ∧
      generateFsID padded "/d/b" ∈ (storeOf ks').children (generateFsID padded "/d") := by
  have answered : ((storeContentInBlobFs padded (storedFile "d//x/.././b")).run Connection.direct.serve
      firstStored).1.isOk := by decide +kernel
  obtain ⟨⟨⟩, ok⟩ := ok_of_isOk answered
  rcases stored : (storeContentInBlobFs padded (storedFile "d//x/.././b")).run Connection.direct.serve firstStored with
    ⟨result, ks'⟩
  obtain rfl : result = .ok () := by rw [stored] at ok; exact ok
  obtain ⟨p, proper, path, chained⟩ := store_builds_chain padded_injective rfl rfl (by decide +kernel) stored
  have clean : join ["/", clean (storedFile "d//x/.././b").path] = rooted [['d'], ['b']] := by decide +kernel
  have names : ∀ c ∈ [['d'], ['b']], IsName c := by decide
  obtain rfl := rooted_injective proper (fun c member => (names c member).proper) (path.symm.trans clean)
  obtain ⟨m, held, node⟩ := chained.node [] ['d'] [['b']] rfl
  have before : ((storeOf firstStored).nodes (generateFsID padded "/d")).map (·.gen) = some 0 := by decide +kernel
  obtain ⟨old, there, gen⟩ := Option.map_eq_some_iff.mp before
  have listed : generateFsID padded "/d/a" ∈ (storeOf firstStored).children (generateFsID padded "/d") := by
    decide +kernel
  refine ⟨ks', rfl, ⟨m, held, ?_⟩, (chained.child _ _).mpr (.inl listed), (chained.child _ _).mpr (.inr ?_)⟩
  · rw [node.gen old there, gen]
    rfl
  · exact ⟨[['d']], ['b'], [], rfl, rfl, rfl⟩

end Blobcache.FileSystem
