import Blobcache.FileSystem.Tree

/-!
# Listing a directory and looking up its entries

Any number of clients mount the file system, make and remove entries through any handles
they have been given, and servers store files (`World`). Each operation runs to its end, by
calls that the coordinator answers from Redis. The operations only call with ids that are
hashes, so Redis represents a store of nodes throughout, and the store is a tree.

`Readdir` goes through the children of the directory's id, `Lookup` by the id of the full
path. In a tree, and if the ids of different paths are different, they agree.
-/

namespace Blobcache.FileSystem
set_option autoImplicit false
open Service Execution FilePath
open Coordinator
open Redis (Keyspace)

/-- The state of Redis, and the handles that have been given out. -/
structure World where
  redis : Keyspace
  handles : List FSNode

inductive FsOp where
  | newFileSystem (via : Connection)
  | storeContentInBlobFs (via : Connection) (file : StoredFile)
  | lookup (n : FSNode) (name : String) (storeContentFromFUSE : String → Program FsCall (Except String String))
  | create (n : FSNode) (name : String) (mode : UInt32) (now : Time)
  | mkdir (n : FSNode) (name : String) (mode : UInt32) (now : Time)
  | rmdir (n : FSNode) (name : String)
  | unlink (n : FSNode) (name : String)

/-- The handle that an operation gives out. -/
def given {ε : Type} : Except ε EntryOut → List FSNode
  | .ok entry => [entry.node]
  | .error _ => []

namespace World

def fresh : World := ⟨.empty, []⟩

variable (sha256 : List UInt8 → List UInt8)

def step (op : FsOp) (w : World) : World :=
  match op with
  | .newFileSystem via =>
    let (result, redis) := (newFileSystem sha256 via).run via.serve w.redis
    ⟨redis, w.handles ++ result.toOption.toList⟩
  | .storeContentInBlobFs via file => { w with redis := ((storeContentInBlobFs sha256 file).run via.serve w.redis).2 }
  | .lookup n name storeContentFromFUSE =>
    let (result, redis) := (n.lookup sha256 name storeContentFromFUSE).run n.filesystem.serve w.redis
    ⟨redis, w.handles ++ given result⟩
  | .create n name mode now =>
    let (result, redis) := (n.create sha256 name mode now).run n.filesystem.serve w.redis
    ⟨redis, w.handles ++ given result⟩
  | .mkdir n name mode now =>
    let (result, redis) := (n.mkdir sha256 name mode now).run n.filesystem.serve w.redis
    ⟨redis, w.handles ++ given result⟩
  | .rmdir n name => { w with redis := ((n.rmdir sha256 name).run n.filesystem.serve w.redis).2 }
  | .unlink n name => { w with redis := ((n.unlink sha256 name).run n.filesystem.serve w.redis).2 }

/-- Operations are on handles that have been given out, with names as the kernel passes
them; a file that is stored has a path of at least one component. -/
def Allowed (w : World) : FsOp → Prop
  | .newFileSystem _ => True
  | .storeContentInBlobFs _ file => '%' ∉ file.path.toList ∧ join ["/", clean file.path] ≠ "/"
  | .lookup n name _ => n ∈ w.handles ∧ IsName name.toList
  | .create n name _ _ => n ∈ w.handles ∧ IsName name.toList
  | .mkdir n name _ _ => n ∈ w.handles ∧ IsName name.toList
  | .rmdir n name => n ∈ w.handles ∧ IsName name.toList
  | .unlink n name => n ∈ w.handles ∧ IsName name.toList

end World

/-! ## All ids are hashes -/

section

variable {sha256 : List UInt8 → List UInt8} {n : FSNode} {p : List Component} (name : String)

/-- A program that first makes a call on plain ids. -/
theorem plain_calls {α β : Type} {c : FsCall α} {rest : α → Program FsCall β} (plain : c.OnPlain)
    (later : ∀ answer, (rest answer).Calls FsCall.OnPlain) :
    (Program.perform c >>= rest).Calls FsCall.OnPlain :=
  Program.calls_bind (Program.calls_perform plain) later

theorem Handle.plain (handle : Handle sha256 n p) : Plain n.bfsNode.id := by
  rw [handle.id]
  exact plain_generateFsID sha256 _

theorem newFileSystem_plain (via : Connection) : (newFileSystem sha256 via).Calls FsCall.OnPlain := by
  refine plain_calls (plain_generateFsID sha256 _) fun answer => ?_
  cases answer with
  | ok dirMeta => exact .ret _
  | error e =>
    refine plain_calls (plain_generateFsID sha256 _) fun answer => ?_
    cases answer <;> exact .ret _

theorem inodeFromFsId_plain {id : String} (plain : Plain id) : (n.inodeFromFsId id).Calls FsCall.OnPlain := by
  refine plain_calls plain fun answer => ?_
  cases answer <;> exact .ret _

theorem lookup_plain (storeContentFromFUSE : String → Program FsCall (Except String String))
    (no_percent : '%' ∉ (n.fullPath name).toList) :
    (n.lookup sha256 name storeContentFromFUSE).Calls FsCall.OnPlain := by
  rw [FSNode.lookup, if_neg no_percent]
  exact inodeFromFsId_plain (plain_generateFsID sha256 _)

theorem readdir_plain : (n.readdir sha256).Calls FsCall.OnPlain := by
  refine plain_calls (plain_generateFsID sha256 _) fun answer => ?_
  cases answer <;> exact .ret _

theorem makeNode_plain (handle : Handle sha256 n p) (mode : UInt32) (now : Time) :
    (n.makeNode sha256 name mode now).Calls FsCall.OnPlain := by
  refine plain_calls (plain_generateFsID sha256 _) fun answer => ?_
  cases answer with
  | error e => exact .ret _
  | ok =>
    refine plain_calls ⟨handle.plain, plain_generateFsID sha256 _⟩ fun answer => ?_
    cases answer <;> exact .ret _

theorem unlink_plain (handle : Handle sha256 n p) : (n.unlink sha256 name).Calls FsCall.OnPlain := by
  refine plain_calls (plain_generateFsID sha256 _) fun answer => ?_
  cases answer with
  | error e => exact .ret _
  | ok =>
    refine plain_calls ⟨handle.plain, plain_generateFsID sha256 _⟩ fun answer => ?_
    cases answer <;> exact .ret _

theorem rmdir_plain (handle : Handle sha256 n p) : (n.rmdir sha256 name).Calls FsCall.OnPlain := by
  refine plain_calls (plain_generateFsID sha256 _) fun answer => ?_
  cases answer with
  | error e => exact .ret _
  | ok children =>
    dsimp only
    split
    · exact unlink_plain name handle
    · exact .ret _

theorem storeParts_plain (file : StoredFile) (parts : List String) (round : Nat) (before : String) {pid : String}
    (plain : Plain pid) : (storeParts sha256 file parts round before pid).Calls FsCall.OnPlain := by
  induction parts generalizing round before pid with
  | nil => exact .ret _
  | cons part parts ih =>
    unfold storeParts
    dsimp only
    split
    · exact .ret _
    · refine plain_calls (plain_generateFsID sha256 _) fun answer => ?_
      cases answer with
      | error e => exact .ret _
      | ok =>
        refine plain_calls ⟨plain, plain_generateFsID sha256 _⟩ fun answer => ?_
        cases answer with
        | error e => exact .ret _
        | ok => exact ih _ _ (plain_generateFsID sha256 _)

theorem storeContentInBlobFs_plain (file : StoredFile) :
    (storeContentInBlobFs sha256 file).Calls FsCall.OnPlain := by
  unfold storeContentInBlobFs
  apply storeParts_plain
  exact plain_generateFsID sha256 _

end

/-! ## Every state is a tree -/

section

variable {sha256 : List UInt8 → List UInt8}

/-- Redis represents a tree, and every handle is one for a path. -/
structure Sound (sha256 : List UInt8 → List UInt8) (w : World) (st : NodeStore) : Prop where
  represents : Represents w.redis st
  tree : Tree sha256 st
  handles : ∀ n ∈ w.handles, ∃ p, Handle sha256 n p

theorem Sound.fresh : Sound sha256 .fresh .empty :=
  ⟨.empty, .empty, fun n member => by cases member⟩

/-- After a program of plain calls that keeps the tree, and gives out handles for paths. -/
theorem Sound.run {w : World} {st : NodeStore} (sound : Sound sha256 w st) (via : Connection) {ε α : Type}
    {program : Program FsCall (Except ε α)} (plain : program.Calls FsCall.OnPlain)
    (tree : Tree sha256 (program.run (NodeStore.serve via) st).2) (new : Except ε α → List FSNode)
    (handles : ∀ n ∈ new (program.run (NodeStore.serve via) st).1, ∃ p, Handle sha256 n p) :
    ∃ st', Sound sha256
      ⟨(program.run via.serve w.redis).2, w.handles ++ new (program.run via.serve w.redis).1⟩ st' := by
  obtain ⟨same, after⟩ := sound.represents.run via plain
  refine ⟨_, after, tree, fun n member => ?_⟩
  rw [same] at member
  rcases List.mem_append.mp member with old | new
  · exact sound.handles n old
  · exact handles n new

/-- The same for a program that gives out no handle. -/
theorem Sound.run_only {w : World} {st : NodeStore} (sound : Sound sha256 w st) (via : Connection) {ε α : Type}
    {program : Program FsCall (Except ε α)} (plain : program.Calls FsCall.OnPlain)
    (tree : Tree sha256 (program.run (NodeStore.serve via) st).2) :
    ∃ st', Sound sha256 { w with redis := (program.run via.serve w.redis).2 } st' := by
  obtain ⟨-, after⟩ := sound.represents.run via plain
  exact ⟨_, after, tree, sound.handles⟩

theorem Sound.makeNode {w : World} {st : NodeStore} (sound : Sound sha256 w st) {n : FSNode} {name : String}
    (member : n ∈ w.handles) (named : IsName name.toList) (mode : UInt32) (now : Time) :
    ∃ st', Sound sha256
      ⟨((n.makeNode sha256 name mode now).run n.filesystem.serve w.redis).2,
        w.handles ++ given ((n.makeNode sha256 name mode now).run n.filesystem.serve w.redis).1⟩ st' := by
  obtain ⟨p, handle⟩ := sound.handles n member
  have made := sound.tree.makeNode n.filesystem handle named mode now
  refine sound.run n.filesystem (makeNode_plain name handle mode now) made.1 given fun n' new => ?_
  rw [run_makeNode] at new
  rw [List.mem_singleton.mp new]
  exact ⟨_, made.2⟩

/-- The path of an entry has no percent sign. -/
theorem Handle.no_percent {n : FSNode} {p : List Component} (handle : Handle sha256 n p) {name : String}
    (named : IsName name.toList) : '%' ∉ (n.fullPath name).toList := by
  rw [handle.fullPath named.proper]
  exact (handle.isPath.append named).no_percent

/-- One operation. -/
theorem Sound.step {w : World} {st : NodeStore} (sound : Sound sha256 w st) {op : FsOp} (allowed : w.Allowed op) :
    ∃ st', Sound sha256 (w.step sha256 op) st' := by
  cases op with
  | newFileSystem via =>
    obtain ⟨tree, root⟩ := sound.tree.newFileSystem via
    refine sound.run via (newFileSystem_plain via) tree (·.toOption.toList) fun n new => ?_
    cases made : ((newFileSystem sha256 via).run (NodeStore.serve via) st).1 with
    | error e =>
      rw [made] at new
      cases new
    | ok n' =>
      rw [made] at new
      rw [List.mem_singleton.mp new]
      exact root n' made
  | storeContentInBlobFs via file =>
    have tree := sound.tree.storeContentInBlobFs via file allowed.1 allowed.2
    exact sound.run_only via (storeContentInBlobFs_plain file) tree
  | lookup n name storeContentFromFUSE =>
    obtain ⟨p, handle⟩ := sound.handles n allowed.1
    have no_percent := handle.no_percent allowed.2
    have found := @run_lookup sha256 n.filesystem n name st storeContentFromFUSE no_percent
    refine sound.run n.filesystem (lookup_plain name storeContentFromFUSE no_percent) ?_ given fun n' new => ?_
    · rw [found]
      exact sound.tree
    · rw [found] at new
      cases held : st.nodes (n.fsId sha256 name) with
      | none =>
        rw [held] at new
        cases new
      | some m =>
        rw [held] at new
        rw [List.mem_singleton.mp new]
        exact sound.tree.foundEntry n.filesystem held n
  | create n name mode now => exact sound.makeNode allowed.1 allowed.2 mode now
  | mkdir n name mode now => exact sound.makeNode allowed.1 allowed.2 (sIFDIR ||| mode) now
  | rmdir n name =>
    obtain ⟨p, handle⟩ := sound.handles n allowed.1
    exact sound.run_only n.filesystem (rmdir_plain name handle) (sound.tree.runRmdir n.filesystem n name)
  | unlink n name =>
    obtain ⟨p, handle⟩ := sound.handles n allowed.1
    exact sound.run_only n.filesystem (unlink_plain name handle) (sound.tree.runUnlink n.filesystem n name)

theorem sound_world {w : World} (run : Trace (World.step sha256) World.Allowed .fresh w) : ∃ st, Sound sha256 w st :=
  run.invariant (I := fun w => ∃ st, Sound sha256 w st) (fun _ _ ⟨_, sound⟩ allowed => sound.step allowed) ⟨_, .fresh⟩

end

/-! ## Listing and looking up -/

section

variable {sha256 : List UInt8 → List UInt8} {st : NodeStore} {n : FSNode} {p : List Component} {c : Component}

theorem IsPath.init (path : IsPath (p ++ [c])) : IsPath p := fun d member => path d (List.mem_append_left _ member)

/-- The entries of a directory that are there are the nodes at the paths of its names. -/
theorem Tree.mem_present (tree : Tree sha256 st) (noCollisions : Function.Injective (generateFsID sha256))
    (path : IsPath p) {m : BlobFsMetadata} :
    m ∈ st.present (idOf sha256 p) ↔
      ∃ c, IsName c ∧ st.nodes (idOf sha256 (p ++ [c])) = some m ∧ m.name = String.ofList c := by
  rw [NodeStore.present, List.mem_filterMap]
  constructor
  · rintro ⟨id, member, held⟩
    obtain ⟨q, c, path', sameId, rfl⟩ := tree.child _ id member
    cases idOf_injective sha256 noCollisions path.proper path'.init.proper sameId
    obtain ⟨q, path'', sameId, isNode, -⟩ := tree.node _ m held
    cases idOf_injective sha256 noCollisions path'.proper path''.proper sameId
    exact ⟨c, path' c (by simp), held, isNode.name p c rfl⟩
  · rintro ⟨c, name, held, -⟩
    obtain ⟨q, path', sameId, -, linked⟩ := tree.node _ m held
    cases idOf_injective sha256 noCollisions (path.append name).proper path'.proper sameId
    exact ⟨_, linked p c rfl, held⟩

/-- No two entries of a directory have the same name. -/
theorem Tree.names_nodup (tree : Tree sha256 st) (noCollisions : Function.Injective (generateFsID sha256))
    (path : IsPath p) : ((st.present (idOf sha256 p)).map BlobFsMetadata.name).Nodup := by
  have distinct : (st.present (idOf sha256 p)).Nodup := by
    refine (tree.nodup _).filterMap fun id id' m held held' => ?_
    obtain ⟨q, -, rfl, isNode, -⟩ := tree.node id m held
    obtain ⟨q', -, rfl, isNode', -⟩ := tree.node id' m held'
    rw [← isNode.id, ← isNode'.id]
  refine distinct.map_on fun m inside m' inside' same => ?_
  obtain ⟨c, -, held, named⟩ := (tree.mem_present noCollisions path).mp inside
  obtain ⟨c', -, held', named'⟩ := (tree.mem_present noCollisions path).mp inside'
  have sameName : c = c' := String.ofList_injective (named.symm.trans (same.trans named'))
  rw [sameName, held'] at held
  cases held
  rfl

/-- The entry with a name is the node at the path of the name. -/
theorem Tree.present_named (tree : Tree sha256 st) (noCollisions : Function.Injective (generateFsID sha256))
    (path : IsPath p) {name : String} (named : IsName name.toList) {m : BlobFsMetadata} :
    m ∈ st.present (idOf sha256 p) ∧ m.name = name ↔ st.nodes (idOf sha256 (p ++ [name.toList])) = some m := by
  rw [tree.mem_present noCollisions path]
  constructor
  · rintro ⟨⟨c, -, held, called⟩, rfl⟩
    rwa [called, String.toList_ofList]
  · intro held
    obtain ⟨q, path', sameId, isNode, -⟩ := tree.node _ m held
    cases idOf_injective sha256 noCollisions (path.append named).proper path'.proper sameId
    have called := isNode.name p name.toList rfl
    exact ⟨⟨_, named, held, called⟩, called.trans String.ofList_toList⟩

/-- What `Lookup` finds, Redis representing a store. -/
theorem lookup_represented {ks : Keyspace} (represents : Represents ks st) {name : String}
    (storeContentFromFUSE : String → Program FsCall (Except String String))
    (no_percent : '%' ∉ (n.fullPath name).toList) :
    ((n.lookup sha256 name storeContentFromFUSE).run n.filesystem.serve ks).1 =
      (st.nodes (n.fsId sha256 name)).elim (.error .enoent) fun m => .ok (n.foundEntry (n.filesystem.passes m)) := by
  have same := (represents.run n.filesystem (@lookup_plain sha256 n name storeContentFromFUSE no_percent)).1
  rwa [run_lookup _ _ _ _ _ no_percent] at same

theorem passes_name (via : Connection) (m : BlobFsMetadata) : (via.passes m).name = m.name := by cases via <;> rfl

/-- **Listing and looking up agree.** In every state reached, for every handle that was given
out: `Readdir` lists each name once, it lists a name exactly if `Lookup` finds it, and then
both report the same mode and inode. -/
theorem readdir_agrees_with_lookup (noCollisions : Function.Injective (generateFsID sha256)) {w : World}
    (run : Trace (World.step sha256) World.Allowed .fresh w) (member : n ∈ w.handles) {name : String}
    (named : IsName name.toList) (storeContentFromFUSE : String → Program FsCall (Except String String)) :
    let looked := ((n.lookup sha256 name storeContentFromFUSE).run n.filesystem.serve w.redis).1
    ∃ entries, ((n.readdir sha256).run n.filesystem.serve w.redis).1 = .ok entries ∧
      (entries.map DirEntry.name).Nodup ∧
      ((∃ entry ∈ entries, entry.name = name) ↔ ∃ found, looked = .ok found) ∧
      ∀ entry ∈ entries, entry.name = name → ∀ found, looked = .ok found →
        entry.mode = found.attr.mode ∧ entry.ino = found.attr.ino ∧
        entry.mode = found.stable.mode ∧ entry.ino = found.stable.ino := by
  obtain ⟨st, sound⟩ := sound_world run
  obtain ⟨p, handle⟩ := sound.handles n member
  have no_percent := handle.no_percent named
  have entryAt {m : BlobFsMetadata} := sound.tree.present_named noCollisions handle.isPath named (m := m)
  have looked := @lookup_represented sha256 _ _ _ sound.represents _ storeContentFromFUSE no_percent
  have listed := (sound.represents.run n.filesystem (@readdir_plain sha256 n)).1
  rw [handle.fsId named.proper] at looked
  rw [run_readdir, handle.path, ← idOf] at listed
  simp only [looked]
  refine ⟨_, listed, ?_, ⟨?_, ?_⟩, ?_⟩
  · have names := sound.tree.names_nodup noCollisions handle.isPath
    simpa only [List.map_map, Function.comp_def, dirEntry, passes_name] using names
  · rintro ⟨entry, member, called⟩
    obtain ⟨m, inside, rfl⟩ := List.mem_map.mp member
    rw [entryAt.mp ⟨inside, (passes_name _ m).symm.trans called⟩]
    exact ⟨_, rfl⟩
  · rintro ⟨found, ok⟩
    cases held : st.nodes (idOf sha256 (p ++ [name.toList])) with
    | none =>
      rw [held] at ok
      cases ok
    | some m =>
      obtain ⟨inside, called⟩ := entryAt.mpr held
      exact ⟨_, List.mem_map_of_mem inside, (passes_name _ m).trans called⟩
  · intro entry member called found ok
    obtain ⟨m, inside, rfl⟩ := List.mem_map.mp member
    rw [entryAt.mp ⟨inside, (passes_name _ m).symm.trans called⟩] at ok
    cases ok
    exact ⟨rfl, rfl, rfl, rfl⟩

end

/-! ## A run -/

/-- A hash without collisions. -/
def padded (bytes : List UInt8) : List UInt8 := bytes ++ List.replicate 32 0

theorem padded_injective : Function.Injective (generateFsID padded) := by
  intro name name' same
  have bytes := List.append_cancel_right (Hex.encodeToString_injective same)
  exact String.toByteArray_inj.mp (ByteArray.ext (Array.toList_inj.mp bytes))

/-- The handle that mounting gives out. -/
def root (via : Connection) : FSNode :=
  rootNode via { id := generateFsID padded "/", path := "/", ino := 1, mode := sIFDIR ||| 0o755 }

/-- The handle that `Mkdir` gives out. -/
def directoryD : FSNode := ((root .direct).newEntry padded "d" (sIFDIR ||| 0o755)).node

/-- Stores nothing. -/
def storeNothing (_ : String) : Program FsCall (Except String String) := return .error "no source"

def storedFile (path : String) : StoredFile where
  path := path
  hash := "h"
  size := 3
  stat := .ok ⟨0o644, ⟨1, 0⟩, ⟨1, 0⟩, false⟩
  now := fun _ => ⟨1, 0⟩

def storeAndMkdir : List FsOp :=
  [.newFileSystem .direct, .storeContentInBlobFs .remote (storedFile "/a"), .mkdir (root .direct) "d" 0o755 ⟨1, 0⟩]

def fileAndDirectory : World := after (World.step padded) storeAndMkdir .fresh

theorem ok_of_isOk {ε α : Type} {result : Except ε α} (isOk : result.isOk) : ∃ value, result = .ok value := by
  cases result with
  | ok value => exact ⟨value, rfl⟩
  | error e => cases isOk

theorem readdir_agrees_after_store :
    root .direct ∈ fileAndDirectory.handles ∧
      ∃ entries, (((root .direct).readdir padded).run (root .direct).filesystem.serve
        fileAndDirectory.redis).1 = .ok entries ∧ ∃ entry ∈ entries, entry.name = "a" := by
  have member : root .direct ∈ fileAndDirectory.handles := by decide
  have mounted : root .direct ∈ (after (World.step padded) (storeAndMkdir.take 2) .fresh).handles := by decide
  have run : Trace (World.step padded) World.Allowed .fresh fileAndDirectory := by
    apply Trace.of_list
    rintro ⟨_ | _ | _ | k, below⟩
    · trivial
    · exact ⟨by decide, by decide⟩
    · exact ⟨mounted, by decide⟩
    · exact absurd below (by simp [storeAndMkdir])
  obtain ⟨entries, listed, -, ⟨-, found⟩, -⟩ :=
    readdir_agrees_with_lookup padded_injective run member (show IsName "a".toList by decide) storeNothing
  have looked : (((root .direct).lookup padded "a" storeNothing).run (root .direct).filesystem.serve
      fileAndDirectory.redis).1.isOk := by decide +kernel
  exact ⟨member, entries, listed, found (ok_of_isOk looked)⟩

end Blobcache.FileSystem
