import Blobcache.FileSystem.Listing

/-!
# Renaming

`Rename` stores the metadata of the entry, with the new name and path, under the id of the
new name in the directory of the old one, and exchanges the two ids among the children of
that directory. It does not look at the new parent, it leaves the id and the parent's id of
the metadata as they are, and it does not remove the node of the old name: this can be
looked up as before. So a rename never moves an entry, not even within its directory.
-/

namespace Blobcache.FileSystem
set_option autoImplicit false
open Service Execution FilePath
open Coordinator
open Redis (Keyspace)

/-- Two entries have the same hash, size and mode. -/
def EntryOut.SameContent (entry other : EntryOut) : Prop :=
  entry.node.bfsNode.hash = other.node.bfsNode.hash ∧ entry.attr.size = other.attr.size ∧ entry.attr.mode = other.attr.mode

section

variable (sha256 : List UInt8 → List UInt8) (storeContentFromFUSE : String → Program FsCall (Except String String))

namespace FSNode

/-- What `Lookup` returns in a state of Redis. -/
def lookedUp (n : FSNode) (name : String) (ks : Keyspace) : Except Errno EntryOut :=
  ((n.lookup sha256 name storeContentFromFUSE).run n.filesystem.serve ks).1

/-- What `Readdir` returns. -/
def listed (n : FSNode) (ks : Keyspace) : Except Errno (List DirEntry) :=
  ((n.readdir sha256).run n.filesystem.serve ks).1

/-- The result of `Rename`, and the state of Redis after it. -/
def renamed (n : FSNode) (oldName : String) (newParent : FSNode) (newName : String) (ks : Keyspace) :
    Except Errno Unit × Keyspace :=
  (n.rename sha256 oldName newParent newName).run n.filesystem.serve ks

end FSNode

/-- In the listing of a directory the entry is no longer at the old path but at the new one,
and nothing else has changed. -/
def ListingMoves (before after : Keyspace) (oldPath : String) (newParent : FSNode) (newName : String) (mode : UInt32)
    (dir : FSNode) : Prop :=
  ∃ entries entries', dir.listed sha256 before = .ok entries ∧ dir.listed sha256 after = .ok entries' ∧
    (∀ entry ∈ entries', dir.fullPath entry.name ≠ oldPath) ∧
    (dir.bfsNode.path = newParent.bfsNode.path → ∃ entry ∈ entries', entry.name = newName ∧ entry.mode = mode) ∧
    ∀ entry, dir.fullPath entry.name ≠ oldPath → dir.fullPath entry.name ≠ newParent.fullPath newName →
      (entry ∈ entries' ↔ entry ∈ entries)

/-- The entry has been moved. -/
structure Moves (before after : Keyspace) (n : FSNode) (oldName : String) (newParent : FSNode) (newName : String) :
    Prop where
  old_fails : ¬ ∃ found, n.lookedUp sha256 storeContentFromFUSE oldName after = .ok found
  new_found : ∃ old new, n.lookedUp sha256 storeContentFromFUSE oldName before = .ok old ∧
    newParent.lookedUp sha256 storeContentFromFUSE newName after = .ok new ∧ new.SameContent old ∧
    new.node.bfsNode.id = newParent.fsId sha256 newName ∧
    new.node.bfsNode.pid = generateFsID sha256 newParent.bfsNode.path ∧
    (∀ dir ∈ [n, newParent],
      ListingMoves sha256 before after (n.fullPath oldName) newParent newName new.attr.mode dir) ∧
    ∀ name child, IsName name.toList → old.node.lookedUp sha256 storeContentFromFUSE name before = .ok child →
      ∃ child', new.node.lookedUp sha256 storeContentFromFUSE name after = .ok child' ∧ child'.SameContent child

end

/-! ## What a rename does -/

section

variable {sha256 : List UInt8 → List UInt8} (via : Connection) (n : FSNode) (oldName : String) (newParent : FSNode)
  (newName : String) {st : NodeStore} {m : BlobFsMetadata}

/-- The store after the node of the old name has been renamed. -/
def afterRename (sha256 : List UInt8 → List UInt8) (st : NodeStore) (m : BlobFsMetadata) : NodeStore :=
  let metadata := via.passes { via.passes m with name := newName, path := n.fullPath newName }
  ((st.setNode (n.fsId sha256 newName)
    (some (BlobCacheMetadata.nextVersion metadata (st.nodes (n.fsId sha256 newName))))).removeChild
      n.bfsNode.id (n.fsId sha256 oldName)).addChild n.bfsNode.id (n.fsId sha256 newName)

theorem run_rename :
    (n.rename sha256 oldName newParent newName).run (NodeStore.serve via) st =
      (st.nodes (n.fsId sha256 oldName)).elim (.error .enoent, st) fun m =>
        (.ok (), afterRename via n oldName newName sha256 st m) := by
  cases held : st.nodes (n.fsId sha256 oldName) with
  | none =>
    obtain ⟨e, answer⟩ := NodeStore.serve_getFsNode_of_none via st held
    simp [FSNode.rename, answer]
  | some m => simp [FSNode.rename, NodeStore.serve_getFsNode_of_some via st held, afterRename]

theorem rename_plain {p : List Component} (handle : Handle sha256 n p) :
    (n.rename sha256 oldName newParent newName).Calls FsCall.OnPlain := by
  have plain (name : String) := plain_generateFsID sha256 (n.fullPath name)
  refine plain_calls (plain _) fun answer => ?_
  cases answer with
  | error e => exact .ret _
  | ok metadata =>
    refine plain_calls (plain _) fun answer => ?_
    cases answer with
    | error e => exact .ret _
    | ok =>
      refine plain_calls ⟨handle.plain, plain _⟩ fun answer => ?_
      cases answer with
      | error e => exact .ret _
      | ok =>
        refine plain_calls ⟨handle.plain, plain _⟩ fun answer => ?_
        cases answer <;> exact .ret _

/-- The node of the old name and the node of the new name have the content of the old node. -/
theorem afterRename_nodes {id : String} (held : st.nodes (n.fsId sha256 oldName) = some m)
    (either : id = n.fsId sha256 oldName ∨ id = n.fsId sha256 newName) :
    ∃ m', (afterRename via n oldName newName sha256 st m).nodes id = some m' ∧
      (n.foundEntry (via.passes m')).SameContent (n.foundEntry (via.passes m)) := by
  simp only [afterRename, NodeStore.addChild_nodes, NodeStore.removeChild_nodes]
  by_cases new : id = n.fsId sha256 newName
  · rw [new, NodeStore.setNode_self]
    refine ⟨_, rfl, ?_⟩
    cases via <;> cases st.nodes (n.fsId sha256 newName) <;> exact ⟨rfl, rfl, rfl⟩
  · rw [NodeStore.setNode_other _ _ new, either.resolve_right new]
    exact ⟨m, held, rfl, rfl, rfl⟩

end

section

variable {sha256 : List UInt8 → List UInt8} {w : World} {n : FSNode} {oldName newName : String}
  (storeContentFromFUSE : String → Program FsCall (Except String String))

/-- **Rename copies.** After a rename the entry is found under the old name and under the new
one, in the directory of the old one. -/
theorem rename_copies (run : Trace (World.step sha256) World.Allowed .fresh w) (member : n ∈ w.handles)
    (named : IsName oldName.toList) (newParent : FSNode)
    (ok : (n.renamed sha256 oldName newParent newName w.redis).1 = .ok ()) {name : String}
    (either : name = oldName ∨ name = newName ∧ IsName newName.toList) :
    ∃ old found, n.lookedUp sha256 storeContentFromFUSE oldName w.redis = .ok old ∧
      n.lookedUp sha256 storeContentFromFUSE name (n.renamed sha256 oldName newParent newName w.redis).2 = .ok found ∧
      found.SameContent old := by
  obtain ⟨st, sound⟩ := sound_world run
  obtain ⟨p, handle⟩ := sound.handles n member
  obtain ⟨same, after⟩ := sound.represents.run n.filesystem (rename_plain n oldName newParent newName handle)
  rw [FSNode.renamed, same] at ok
  rw [run_rename] at ok after
  cases held : st.nodes (n.fsId sha256 oldName) with
  | none =>
    rw [held] at ok
    cases ok
  | some m =>
    rw [held, Option.elim_some] at after
    have legal : IsName name.toList := by
      rcases either with rfl | ⟨rfl, new⟩
      · exact named
      · exact new
    have id : n.fsId sha256 name = n.fsId sha256 oldName ∨ n.fsId sha256 name = n.fsId sha256 newName := by
      rcases either with rfl | ⟨rfl, -⟩
      · exact .inl rfl
      · exact .inr rfl
    obtain ⟨m', held', content⟩ := afterRename_nodes n.filesystem n oldName newName held id
    refine ⟨_, _, ?_, ?_, content⟩
    · rw [FSNode.lookedUp, lookup_represented sound.represents _ (handle.no_percent named), held]
      rfl
    · rw [FSNode.lookedUp, FSNode.renamed, lookup_represented after _ (handle.no_percent legal)]
      rw [held', Option.elim_some]

/-- **No rename moves its entry.** Whatever the new parent and the new name, the old name can
still be looked up. -/
theorem rename_never_moves (run : Trace (World.step sha256) World.Allowed .fresh w) (member : n ∈ w.handles)
    (named : IsName oldName.toList) (newParent : FSNode)
    (ok : (n.renamed sha256 oldName newParent newName w.redis).1 = .ok ()) :
    ¬ Moves sha256 storeContentFromFUSE w.redis (n.renamed sha256 oldName newParent newName w.redis).2
      n oldName newParent newName := by
  intro moves
  obtain ⟨old, found, -, still, -⟩ := rename_copies storeContentFromFUSE run member named newParent ok (.inl rfl)
  exact moves.old_fails ⟨found, still⟩

end

/-- A directory and a file in the root. -/
def mkdirAndCreate : List FsOp :=
  [.newFileSystem .direct, .mkdir (root .direct) "d" 0o755 ⟨1, 0⟩, .create (root .direct) "a" 0o644 ⟨2, 0⟩]

def directoryAndFile : World := after (World.step padded) mkdirAndCreate .fresh

theorem mkdirAndCreate_run : Trace (World.step padded) World.Allowed .fresh directoryAndFile := by
  have mounted : root .direct ∈ (after (World.step padded) (mkdirAndCreate.take 1) .fresh).handles := by decide
  have stillThere : root .direct ∈ (after (World.step padded) (mkdirAndCreate.take 2) .fresh).handles := by decide
  apply Trace.of_list
  rintro ⟨_ | _ | _ | k, below⟩
  · trivial
  · exact ⟨mounted, by decide⟩
  · exact ⟨stillThere, by decide⟩
  · exact absurd below (by simp [mkdirAndCreate])

/-- Within one directory. -/
theorem rename_never_moves_to_b :
    ((root .direct).renamed padded "a" (root .direct) "b" directoryAndFile.redis).1 = .ok () ∧
      ¬ Moves padded storeNothing directoryAndFile.redis
        ((root .direct).renamed padded "a" (root .direct) "b" directoryAndFile.redis).2
        (root .direct) "a" (root .direct) "b" := by
  have ok : ((root .direct).renamed padded "a" (root .direct) "b" directoryAndFile.redis).1 = .ok () := by
    decide +kernel
  exact ⟨ok, rename_never_moves storeNothing mkdirAndCreate_run (by decide) (by decide) (root .direct) ok⟩

/-- A file is renamed into a directory: it is still there under the old name, it is not in
the directory, and it is in the root under the new name, with the id of the old one. -/
theorem renamed_but_not_moved :
    let before := directoryAndFile.redis
    let after := ((root .direct).renamed padded "a" directoryD "b" before).2
    Trace (World.step padded) World.Allowed .fresh directoryAndFile ∧
      root .direct ∈ directoryAndFile.handles ∧ directoryD ∈ directoryAndFile.handles ∧
      ((root .direct).renamed padded "a" directoryD "b" before).1 = .ok () ∧
      ((root .direct).lookedUp padded storeNothing "a" after).isOk = true ∧
      directoryD.lookedUp padded storeNothing "b" after = .error .enoent ∧
      ((root .direct).lookedUp padded storeNothing "b" after).map (·.node.bfsNode.id) =
        .ok ((root .direct).fsId padded "a") ∧
      ¬ Moves padded storeNothing before after (root .direct) "a" directoryD "b" := by
  have found : ((root .direct).lookedUp padded storeNothing "a" ((root .direct).renamed padded "a" directoryD "b"
      directoryAndFile.redis).2).isOk = true := by decide +kernel
  refine ⟨mkdirAndCreate_run, by decide, by decide, by decide +kernel, found, by decide +kernel, by decide +kernel, ?_⟩
  exact fun moves => moves.old_fails (ok_of_isOk found)

end Blobcache.FileSystem
