import Blobcache.Lib.Execution
import Blobcache.FileSystem.Node

/-!
# The tree of nodes

What links ids, paths, names and children in the store (`Tree`): a node is stored under the
id of its path, it has the name and the parent of the path and is a child of its parent's
id, and every child is the id of a path one name longer. A handle has the path and the id of
some path, but the node need not be there any more.

Every operation keeps the tree: making an entry sets a node and links it, removing one
unlinks it again (`Tree.link`, `Tree.unlink`), and `StoreContentInBlobFs` makes one entry
after the other. None of them needs the ids of different paths to be different.
-/

namespace Blobcache.FileSystem
set_option autoImplicit false
open Service Execution FilePath
open Coordinator

/-- A name, as the kernel passes it, without a percent sign. -/
structure IsName (c : Component) : Prop where
  proper : Proper c
  no_percent : '%' ∉ c

instance (c : Component) : Decidable (IsName c) :=
  decidable_of_iff ((c ≠ [] ∧ c ≠ ['.'] ∧ c ≠ ['.', '.'] ∧ '/' ∉ c) ∧ '%' ∉ c)
    ⟨fun checked => ⟨⟨checked.1.1, checked.1.2.1, checked.1.2.2.1, checked.1.2.2.2⟩, checked.2⟩,
      fun name => ⟨⟨name.proper.nonempty, name.proper.not_here, name.proper.not_parent, name.proper.no_separator⟩,
        name.no_percent⟩⟩

/-- The components of a path of the tree. -/
def IsPath (p : List Component) : Prop := ∀ c ∈ p, IsName c

theorem IsPath.nil : IsPath [] := fun c member => by cases member

theorem IsPath.append {p : List Component} {c : Component} (path : IsPath p) (name : IsName c) : IsPath (p ++ [c]) :=
  List.forall_mem_append.mpr ⟨path, List.forall_mem_singleton.mpr name⟩

theorem IsPath.proper {p : List Component} (path : IsPath p) : ∀ c ∈ p, Proper c := fun c member => (path c member).proper

theorem IsPath.no_percent {p : List Component} (path : IsPath p) : '%' ∉ (rooted p).toList := by
  intro member
  rcases mem_rooted member with ⟨part, inPath, inPart⟩ | separator
  · exact (path part inPath).no_percent inPart
  · exact absurd separator (by decide)

section

variable (sha256 : List UInt8 → List UInt8)

/-- The id of a path. -/
def idOf (p : List Component) : String := generateFsID sha256 (rooted p)

theorem plain_generateFsID (name : String) : Plain (generateFsID sha256 name) := by
  intro colon
  exact absurd (Hex.mem_encodeToString colon) (by decide)

theorem idOf_injective (noCollisions : Function.Injective (generateFsID sha256)) {p q : List Component}
    (proper : ∀ c ∈ p, Proper c) (proper' : ∀ c ∈ q, Proper c) (same : idOf sha256 p = idOf sha256 q) : p = q :=
  rooted_injective proper proper' (noCollisions same)

/-- The metadata is that of a node at the path. -/
structure IsNode (m : BlobFsMetadata) (p : List Component) : Prop where
  path : m.path = rooted p
  id : m.id = idOf sha256 p
  name : ∀ q c, p = q ++ [c] → m.name = String.ofList c
  pid : ∀ q c, p = q ++ [c] → m.pid = idOf sha256 q

structure Tree (st : NodeStore) : Prop where
  node : ∀ id m, st.nodes id = some m → ∃ p, IsPath p ∧ id = idOf sha256 p ∧ IsNode sha256 m p ∧
    ∀ q c, p = q ++ [c] → id ∈ st.children (idOf sha256 q)
  child : ∀ pid id, id ∈ st.children pid → ∃ q c, IsPath (q ++ [c]) ∧ pid = idOf sha256 q ∧ id = idOf sha256 (q ++ [c])
  nodup : ∀ pid, (st.children pid).Nodup

/-- The handle was given out for the path. -/
structure Handle (n : FSNode) (p : List Component) : Prop where
  isPath : IsPath p
  path : n.bfsNode.path = rooted p
  id : n.bfsNode.id = idOf sha256 p

end

variable {sha256 : List UInt8 → List UInt8} {st : NodeStore} {p : List Component} {c : Component}

theorem Tree.empty : Tree sha256 .empty where
  node id m held := by cases held
  child pid id member := by cases member
  nodup pid := List.nodup_nil

/-- What a node is stays the same on the way, and in its next version. -/
theorem IsNode.stored {m : BlobFsMetadata} (isNode : IsNode sha256 m p) (via : Connection) (old : Option BlobFsMetadata) :
    IsNode sha256 (BlobCacheMetadata.nextVersion (via.passes m) old) p := by
  cases via <;> cases old <;> exact ⟨isNode.path, isNode.id, isNode.name, isNode.pid⟩

/-- A node is set and linked to its parent. -/
theorem Tree.link (tree : Tree sha256 st) (path : IsPath (p ++ [c])) {m : BlobFsMetadata}
    (isNode : IsNode sha256 m (p ++ [c])) :
    Tree sha256 ((st.setNode (idOf sha256 (p ++ [c])) (some m)).addChild (idOf sha256 p) (idOf sha256 (p ++ [c]))) where
  node id m' held := by
    rw [NodeStore.addChild_nodes] at held
    by_cases same : id = idOf sha256 (p ++ [c])
    · subst same
      rw [NodeStore.setNode_self] at held
      cases held
      refine ⟨p ++ [c], path, rfl, isNode, fun q d parts => ?_⟩
      obtain ⟨rfl, -⟩ := List.append_inj' parts rfl
      exact NodeStore.mem_addChild.mpr (.inr ⟨rfl, rfl⟩)
    · rw [NodeStore.setNode_other _ _ same] at held
      obtain ⟨q, isPath, rfl, isNode', linked⟩ := tree.node id m' held
      exact ⟨q, isPath, rfl, isNode', fun q' d parts => NodeStore.mem_addChild.mpr (.inl (linked q' d parts))⟩
  child pid id member := by
    rcases NodeStore.mem_addChild.mp member with old | ⟨rfl, rfl⟩
    · exact tree.child pid id old
    · exact ⟨p, c, path, rfl, rfl⟩
  nodup := by
    have nodup : ∀ pid, ((st.setNode (idOf sha256 (p ++ [c])) (some m)).children pid).Nodup := tree.nodup
    exact NodeStore.nodup_addChild nodup _ _

/-- A node is removed and unlinked. -/
theorem Tree.unlink (tree : Tree sha256 st) (pid id : String) :
    Tree sha256 ((st.setNode id none).removeChild pid id) := by
  constructor
  · intro id' m' held
    rw [NodeStore.removeChild_nodes] at held
    by_cases same : id' = id
    · rw [same, NodeStore.setNode_self] at held
      cases held
    · rw [NodeStore.setNode_other _ _ same] at held
      obtain ⟨q, isPath, rfl, isNode', linked⟩ := tree.node id' m' held
      refine ⟨q, isPath, rfl, isNode', fun q' d parts => ?_⟩
      rw [NodeStore.mem_removeChild]
      exact ⟨linked q' d parts, fun removed => same removed.2⟩
  · intro pid' id' member
    exact tree.child pid' id' (NodeStore.mem_removeChild.mp member).1
  · have nodup : ∀ pid, ((st.setNode id none).children pid).Nodup := tree.nodup
    exact NodeStore.nodup_removeChild nodup pid id

/-- The root is not linked. -/
theorem Tree.setRoot (tree : Tree sha256 st) {m : BlobFsMetadata} (isNode : IsNode sha256 m []) :
    Tree sha256 (st.setNode (idOf sha256 []) (some m)) where
  node id m' held := by
    by_cases same : id = idOf sha256 []
    · subst same
      rw [NodeStore.setNode_self] at held
      cases held
      exact ⟨[], .nil, rfl, isNode, fun q d parts => by simp at parts⟩
    · rw [NodeStore.setNode_other _ _ same] at held
      exact tree.node id m' held
  child := tree.child
  nodup := tree.nodup

/-! ## What the operations do to the store -/

section

variable (via : Connection) (n : FSNode) (name : String) (st : NodeStore)

theorem run_makeNode (mode : UInt32) (now : Time) :
    (n.makeNode sha256 name mode now).run (NodeStore.serve via) st =
      (.ok (n.newEntry sha256 name mode),
        (st.setNode (n.fsId sha256 name) (some (BlobCacheMetadata.nextVersion
          (via.passes (n.newMetadata sha256 name mode now)) (st.nodes (n.fsId sha256 name))))).addChild
            n.bfsNode.id (n.fsId sha256 name)) := by
  simp [FSNode.makeNode, FSNode.linkNew]

theorem run_unlink :
    (n.unlink sha256 name).run (NodeStore.serve via) st =
      (.ok (), (st.setNode (n.fsId sha256 name) none).removeChild n.bfsNode.id (n.fsId sha256 name)) := by
  simp [FSNode.unlink, FSNode.unlinkChild]

theorem run_rmdir :
    (n.rmdir sha256 name).run (NodeStore.serve via) st =
      if st.present (n.fsId sha256 name) = [] then (n.unlink sha256 name).run (NodeStore.serve via) st
      else (.error .enotempty, st) := by
  simp only [FSNode.rmdir, Program.run_bind, Program.run_perform, NodeStore.serve_getFsNodeChildren, List.map_eq_nil_iff]
  split <;> rfl

theorem run_readdir :
    (n.readdir sha256).run (NodeStore.serve via) st =
      (.ok ((st.present (generateFsID sha256 n.bfsNode.path)).map fun m => dirEntry (via.passes m)), st) := by
  simp [FSNode.readdir, Function.comp_def]

theorem run_inodeFromFsId (fsId : String) :
    (n.inodeFromFsId fsId).run (NodeStore.serve via) st =
      ((st.nodes fsId).elim (.error .enoent) fun m => .ok (n.foundEntry (via.passes m)), st) := by
  cases held : st.nodes fsId with
  | none =>
    obtain ⟨e, answer⟩ := NodeStore.serve_getFsNode_of_none via st held
    simp [FSNode.inodeFromFsId, answer]
  | some m => simp [FSNode.inodeFromFsId, NodeStore.serve_getFsNode_of_some via st held]

theorem run_lookup (storeContentFromFUSE : String → Program FsCall (Except String String))
    (no_percent : '%' ∉ (n.fullPath name).toList) :
    (n.lookup sha256 name storeContentFromFUSE).run (NodeStore.serve via) st =
      ((st.nodes (n.fsId sha256 name)).elim (.error .enoent) fun m => .ok (n.foundEntry (via.passes m)), st) := by
  rw [FSNode.lookup, if_neg no_percent]
  exact run_inodeFromFsId via n st _

end

/-! ## The operations keep the tree -/

section

variable {n : FSNode} (via : Connection)

theorem Handle.fullPath (handle : Handle sha256 n p) {name : String} (proper : Proper name.toList) :
    n.fullPath name = rooted (p ++ [name.toList]) := by
  have joined := join_rooted handle.isPath.proper proper
  rw [String.ofList_toList, ← handle.path] at joined
  exact joined

theorem Handle.fsId (handle : Handle sha256 n p) {name : String} (proper : Proper name.toList) :
    n.fsId sha256 name = idOf sha256 (p ++ [name.toList]) := by
  rw [FSNode.fsId, handle.fullPath proper]
  rfl

theorem Handle.newMetadata (handle : Handle sha256 n p) {name : String} (proper : Proper name.toList) (mode : UInt32)
    (now : Time) : IsNode sha256 (n.newMetadata sha256 name mode now) (p ++ [name.toList]) where
  path := handle.fullPath proper
  id := handle.fsId proper
  name q d parts := by
    obtain ⟨-, last⟩ := List.append_inj' parts rfl
    cases last
    exact String.ofList_toList.symm
  pid q d parts := by
    obtain ⟨rfl, -⟩ := List.append_inj' parts rfl
    exact handle.id

/-- `Create` and `Mkdir` make an entry and give out a handle for it. -/
theorem Tree.makeNode (tree : Tree sha256 st) (handle : Handle sha256 n p) {name : String} (named : IsName name.toList)
    (mode : UInt32) (now : Time) :
    Tree sha256 ((n.makeNode sha256 name mode now).run (NodeStore.serve via) st).2 ∧
      Handle sha256 (n.newEntry sha256 name mode).node (p ++ [name.toList]) := by
  have path := handle.isPath.append named
  refine ⟨?_, path, handle.fullPath named.proper, handle.fsId named.proper⟩
  rw [run_makeNode, handle.fsId named.proper, handle.id]
  exact tree.link path ((handle.newMetadata named.proper mode now).stored via _)

theorem Tree.runUnlink (tree : Tree sha256 st) (n : FSNode) (name : String) :
    Tree sha256 ((n.unlink sha256 name).run (NodeStore.serve via) st).2 := by
  rw [run_unlink]
  exact tree.unlink _ _

theorem Tree.runRmdir (tree : Tree sha256 st) (n : FSNode) (name : String) :
    Tree sha256 ((n.rmdir sha256 name).run (NodeStore.serve via) st).2 := by
  rw [run_rmdir]
  split
  · exact tree.runUnlink via n name
  · exact tree

/-- A handle for a node of the tree. -/
theorem Tree.foundEntry (tree : Tree sha256 st) {id : String} {m : BlobFsMetadata} (held : st.nodes id = some m)
    (n : FSNode) : ∃ p, Handle sha256 (n.foundEntry (via.passes m)).node p := by
  obtain ⟨p, path, -, isNode, -⟩ := tree.node id m held
  have passed := isNode.stored via none
  exact ⟨p, path, passed.path, passed.id⟩

/-- Mounting makes the root, if it is not there, and gives out a handle for it. -/
theorem Tree.newFileSystem (tree : Tree sha256 st) :
    Tree sha256 ((newFileSystem sha256 via).run (NodeStore.serve via) st).2 ∧
      ∀ n, ((FileSystem.newFileSystem sha256 via).run (NodeStore.serve via) st).1 = .ok n → ∃ p, Handle sha256 n p := by
  simp only [FileSystem.newFileSystem, Program.run_bind, Program.run_perform]
  cases held : st.nodes (generateFsID sha256 "/") with
  | none =>
    obtain ⟨e, answer⟩ := NodeStore.serve_getFsNode_of_none via st held
    simp only [answer, Program.run_bind, Program.run_perform, NodeStore.serve_setFsNode, Program.run_pure]
    refine ⟨tree.setRoot (IsNode.stored ⟨rfl, rfl, ?_, ?_⟩ via _), fun n made => ?_⟩
    · exact fun q d parts => by simp at parts
    · exact fun q d parts => by simp at parts
    · cases made
      exact ⟨[], .nil, rfl, rfl⟩
  | some m =>
    obtain ⟨p, path, -, isNode, -⟩ := tree.node _ m held
    have passed := isNode.stored via none
    simp only [NodeStore.serve_getFsNode_of_some via st held, Program.run_pure]
    refine ⟨tree, fun n found => ?_⟩
    cases found
    exact ⟨p, path, passed.path, passed.id⟩

/-! ## Storing a file -/

theorem partMetadata_isNode {file : StoredFile} {round : Nat} {m : BlobFsMetadata}
    (made : partMetadata sha256 file round (String.ofList c) (rooted (p ++ [c])) (idOf sha256 p) = .ok m) :
    IsNode sha256 m (p ++ [c]) := by
  have directory (inode : UInt64) : IsNode sha256
      (directoryMetadata sha256 (idOf sha256 p) (String.ofList c) (rooted (p ++ [c])) inode (file.now round)) (p ++ [c]) := by
    refine ⟨rfl, rfl, fun q d parts => ?_, fun q d parts => ?_⟩
    · obtain ⟨-, last⟩ := List.append_inj' parts rfl
      cases last
      rfl
    · obtain ⟨rfl, -⟩ := List.append_inj' parts rfl
      rfl
  unfold partMetadata at made
  split at made
  · cases made
  · rename_i inode _
    dsimp only at made
    split at made
    · split at made
      · cases made
      · cases made
        exact ⟨(directory inode).path, (directory inode).id, (directory inode).name, (directory inode).pid⟩
    · cases made
      exact directory inode

/-- The path of the next round. -/
theorem currentPath_eq {p : List Component} (proper : ∀ c ∈ p, Proper c) {c : Component} (name : Proper c) :
    (if rooted p = "/" then join ["/", String.ofList c] else join [rooted p, String.ofList c]) = rooted (p ++ [c]) := by
  split
  · rename_i root
    rw [← root]
    exact join_rooted proper name
  · exact join_rooted proper name

/-- Whatever happens on the way, the entries made so far are linked. -/
theorem Tree.storeParts (tree : Tree sha256 st) (file : StoredFile) {parts : List Component} (names : IsPath parts)
    (path : IsPath p) (round : Nat) :
    Tree sha256 ((storeParts sha256 file (parts.map String.ofList) round (rooted p) (idOf sha256 p)).run
      (NodeStore.serve via) st).2 := by
  induction parts generalizing p st round with
  | nil => exact tree
  | cons c parts ih =>
    have name := names c List.mem_cons_self
    have path' := path.append name
    simp only [List.map_cons, FileSystem.storeParts, currentPath_eq path.proper name.proper]
    cases made : partMetadata sha256 file round (String.ofList c) (rooted (p ++ [c])) (idOf sha256 p) with
    | error e => exact tree
    | ok m =>
      simp only [Program.run_bind, Program.run_perform, NodeStore.serve_setFsNode, NodeStore.serve_addFsNodeChild]
      apply ih _ (fun other member => names other (List.mem_cons_of_mem _ member)) path'
      exact tree.link path' ((partMetadata_isNode made).stored via _)

/-- The path of a file to be stored, when it is clean. -/
theorem storedPath {path : String} (no_percent : '%' ∉ path.toList) :
    ∃ q, IsPath q ∧ join ["/", clean path] = rooted q := by
  refine ⟨_, fun k member => ⟨components_proper member, fun percent => ?_⟩, join_root _⟩
  have chars := mem_components member _ percent
  simp only [List.mem_cons, show ('%' : Char) ≠ '/' by decide, false_or] at chars
  rcases mem_clean chars with inside | separator | dot
  · exact no_percent inside
  · exact absurd separator (by decide)
  · exact absurd dot (by decide)

/-- `StoreContentInBlobFs` of a path with at least one component. -/
theorem Tree.storeContentInBlobFs (tree : Tree sha256 st) (file : StoredFile) (no_percent : '%' ∉ file.path.toList)
    (some_component : join ["/", clean file.path] ≠ "/") :
    Tree sha256 ((storeContentInBlobFs sha256 file).run (NodeStore.serve via) st).2 := by
  obtain ⟨q, path, clean⟩ := storedPath no_percent
  have some : q ≠ [] := by
    rintro rfl
    exact some_component clean
  simp only [FileSystem.storeContentInBlobFs, clean, split_rooted path.proper some, List.head?_cons, if_true,
    List.tail_cons]
  exact tree.storeParts via _ path .nil 0

end

end Blobcache.FileSystem
