import Blobcache.FileSystem.Commands
import Blobcache.FileSystem.Listing

/-!
# Operations of many clients at once

Any number of clients mount the file system, look up, list, make and remove entries, and
servers store files. An operation under way is what it has still to do: Redis commands, made
through its connection to the coordinator. The commands of all operations come in any order
(`Mounts`). Operations are on handles that returned operations have given out.

Whatever the order, every operation that returns has an answer that fits the path it was
called for (`Scope.Answers`), and an entry that no operation of the run removes is found and
listed by every operation that starts after the one that made it has returned
(`Request.Shows`). No component of a path has a percent sign. `Rename` is not among the
operations: it stores a node that has not the id of its path.
-/

namespace Blobcache.FileSystem
set_option autoImplicit false
open Service Execution Interleaving FilePath
open Coordinator
open Redis (Keyspace Command)

/-- An operation of `World`, or a listing. -/
inductive Request where
  | op (op : FsOp)
  | readdir (n : FSNode)

inductive Failure where
  | errno (e : Errno)
  | coordinator (e : CoordinatorError)
  | store (e : StoreError)

/-- What an operation returns. -/
inductive Outcome where
  | mounted (n : FSNode)
  | entry (out : EntryOut)
  | entries (listed : List DirEntry)
  | done
  | failed (failure : Failure)

namespace Outcome

def of {ε α : Type} (failed : ε → Failure) (returned : α → Outcome) : Except ε α → Outcome
  | .error e => .failed (failed e)
  | .ok value => returned value

/-- The handles that are given out. -/
def handles : Outcome → List FSNode
  | .mounted n => [n]
  | .entry out => [out.node]
  | _ => []

end Outcome

namespace Request

/-- The connection of the client or of the server. -/
def via : Request → Connection
  | .op (.newFileSystem via) => via
  | .op (.storeContentInBlobFs via _) => via
  | .op (.lookup n _ _) => n.filesystem
  | .op (.create n _ _ _) => n.filesystem
  | .op (.mkdir n _ _ _) => n.filesystem
  | .op (.rmdir n _) => n.filesystem
  | .op (.unlink n _) => n.filesystem
  | .readdir n => n.filesystem

/-- The handle that the operation is on. -/
def handle : Request → Option FSNode
  | .op (.newFileSystem _) => none
  | .op (.storeContentInBlobFs _ _) => none
  | .op (.lookup n _ _) => some n
  | .op (.create n _ _ _) => some n
  | .op (.mkdir n _ _ _) => some n
  | .op (.rmdir n _) => some n
  | .op (.unlink n _) => some n
  | .readdir n => some n

variable (sha256 : List UInt8 → List UInt8)

def program : Request → Program FsCall Outcome
  | .op (.newFileSystem via) => do return .of .coordinator .mounted (← newFileSystem sha256 via)
  | .op (.storeContentInBlobFs _ file) => do return .of .store (fun _ => .done) (← storeContentInBlobFs sha256 file)
  | .op (.lookup n name storeContentFromFUSE) => do
    return .of .errno .entry (← n.lookup sha256 name storeContentFromFUSE)
  | .op (.create n name mode now) => do return .of .errno .entry (← n.create sha256 name mode now)
  | .op (.mkdir n name mode now) => do return .of .errno .entry (← n.mkdir sha256 name mode now)
  | .op (.rmdir n name) => do return .of .errno (fun _ => .done) (← n.rmdir sha256 name)
  | .op (.unlink n name) => do return .of .errno (fun _ => .done) (← n.unlink sha256 name)
  | .readdir n => do return .of .errno .entries (← n.readdir sha256)

end Request

/-- An operation under way. -/
structure Running where
  request : Request
  rest : Program Command Outcome

namespace Running

def start (sha256 : List UInt8 → List UInt8) (request : Request) : Running :=
  ⟨request, (request.program sha256).translate request.via.client⟩

/-- The next command. -/
def move (_ : Unit) (ks : Keyspace) (running : Running) : Keyspace × Running :=
  let next := running.rest.advance Keyspace.serve ks
  (next.1, ⟨running.request, next.2⟩)

end Running

/-- All operations that have been started, over one Redis. -/
abbrev Mounts := Pool Keyspace Running

namespace Mounts

abbrev step : Action Running Empty Unit → Mounts → Mounts := Pool.step Empty.elim Running.move

def fresh : Mounts := ⟨.empty, []⟩

/-- The operation has returned. -/
def Returned (p : Mounts) (i : Nat) (request : Request) (outcome : Outcome) : Prop :=
  p.threads[i]? = some ⟨request, .ret outcome⟩

/-- The handle has been given out. -/
def Given (p : Mounts) (n : FSNode) : Prop := ∃ i request outcome, p.Returned i request outcome ∧ n ∈ outcome.handles

end Mounts

/-! ## What is asked for and what is answered -/

/-- The entry of the directory is at the path. -/
def EntryAt (n : FSNode) (name : String) (p : List Component) : Prop :=
  ∃ q, n.bfsNode.path = rooted q ∧ p = q ++ [name.toList]

/-- The file is stored at the path. -/
structure StoredFile.At (file : StoredFile) (p : List Component) : Prop where
  isPath : IsPath p
  some_component : p ≠ []
  clean : join ["/", clean file.path] = rooted p

/-- The operation makes an entry at the path. -/
def Request.Makes (p : List Component) : Request → Prop
  | .op (.storeContentInBlobFs _ file) => p ≠ [] ∧ ∃ r, file.At r ∧ p <+: r
  | .op (.create n name _ _) => EntryAt n name p
  | .op (.mkdir n name _ _) => EntryAt n name p
  | _ => False

/-- The outcome shows the entry at the path, if the operation is one that should. -/
def Request.Shows (p : List Component) : Request → Outcome → Prop
  | .op (.lookup n name _), outcome => EntryAt n name p → ∃ out, outcome = .entry out
  | .readdir n, outcome => ∀ name, EntryAt n name p →
      ∃ listed, outcome = .entries listed ∧ ∃ entry ∈ listed, entry.name = name
  | .op (.rmdir n name), outcome => ∀ q c, EntryAt n name q → p = q ++ [c] → outcome = .failed (.errno .enotempty)
  | _, _ => True

namespace Scope

variable {sha256 : List UInt8 → List UInt8} (scope : Scope sha256)

/-- The paths of the operation are in the sets. -/
def Covers : Request → Prop
  | .op (.newFileSystem _) => [] ∈ scope.made
  | .op (.storeContentInBlobFs _ file) => [] ∈ scope.named ∧
      ∃ p, file.At p ∧ ∀ r, r ≠ [] → r <+: p → r ∈ scope.made
  | .op (.lookup n name _) => ∃ p ∈ scope.named, EntryAt n name p
  | .op (.create n name _ _) => ∃ p ∈ scope.made, EntryAt n name p
  | .op (.mkdir n name _ _) => ∃ p ∈ scope.made, EntryAt n name p
  | .op (.rmdir n name) => ∃ p ∈ scope.named, p ∉ scope.kept ∧ EntryAt n name p
  | .op (.unlink n name) => ∃ p ∈ scope.named, p ∉ scope.kept ∧ EntryAt n name p
  | .readdir _ => True

/-- The operations that are started: on handles that have been given out. -/
def Allowed (p : Mounts) : Action Running Empty Unit → Prop
  | .spawn running => ∃ request, running = .start sha256 request ∧ scope.Covers request ∧
      ∀ n, request.handle = some n → p.Given n
  | _ => True

/-- The runs of the clients and servers. -/
abbrev Run : Mounts → Mounts → Prop := Trace Mounts.step scope.Allowed

/-- The entry that is returned is the one that was asked for: its node has the path, the id and the name. The
parent is left out, since the node that `Create` and `Mkdir` return has none. -/
structure IsEntry (n : FSNode) (name : String) (out : EntryOut) (p : List Component) : Prop where
  made : p ∈ scope.made
  at_ : EntryAt n name p
  handle : Handle sha256 out.node p
  name : out.node.bfsNode.name = name

/-- The answers of the operations. -/
def Answers : Request → Outcome → Prop
  | .op (.newFileSystem _), outcome => ∃ n, outcome = .mounted n ∧ [] ∈ scope.made ∧ Handle sha256 n []
  | .op (.storeContentInBlobFs _ _), outcome => outcome = .done ∨
      ∃ e, outcome = .failed (.store e) ∧ ∀ cause, e ≠ .coordinator cause
  | .op (.lookup n name _), outcome => outcome = .failed (.errno .enoent) ∨
      ∃ out p, outcome = .entry out ∧ scope.IsEntry n name out p
  | .op (.create n name _ _), outcome => ∃ out p, outcome = .entry out ∧ scope.IsEntry n name out p
  | .op (.mkdir n name _ _), outcome => ∃ out p, outcome = .entry out ∧ scope.IsEntry n name out p
  | .op (.rmdir _ _), outcome => outcome = .done ∨ outcome = .failed (.errno .enotempty)
  | .op (.unlink _ _), outcome => outcome = .done
  | .readdir n, outcome => ∃ listed, outcome = .entries listed ∧ (listed.map DirEntry.name).Nodup ∧
      ∀ entry ∈ listed, ∃ p ∈ scope.made, EntryAt n entry.name p

end Scope

/-! ## Each operation among the others -/

/-- The path is stored, and linked to its directory. -/
structure There (sha256 : List UInt8 → List UInt8) (p : List Component) (ks : Keyspace) : Prop where
  stored : Stored sha256 p ks
  linked : ∀ q c, p = q ++ [c] → Linked sha256 q c ks

section

variable {sha256 : List UInt8 → List UInt8} {scope : Scope sha256} {ks : Keyspace} {n : FSNode}
  {p q : List Component} {c : Component} {name : String} (via : Connection)

theorem There.of_linked (stored : Stored sha256 (q ++ [c]) ks) (linked : Linked sha256 q c ks) :
    There sha256 (q ++ [c]) ks where
  stored := stored
  linked q' c' parts := by
    obtain ⟨rfl, last⟩ := List.append_inj' parts rfl
    cases last
    exact linked

theorem safe_newFileSystem (typed : scope.Typed ks) (made : [] ∈ scope.made) :
    scope.Safe (fun answer _ => ∃ n, answer = .ok n ∧ Handle sha256 n []) ks
      ((newFileSystem sha256 via).translate via.client) := by
  have mounted {m : BlobFsMetadata} (isNode : IsNode sha256 m []) : Handle sha256 (rootNode via m) [] :=
    ⟨.nil, isNode.path, isNode.id⟩
  have rootId : generateFsID sha256 "/" = idOf sha256 [] := rfl
  unfold newFileSystem
  dsimp only
  rw [rootId]
  refine Safe.implemented (calls_getFsNode via typed (scope.made_named made)) fun answer t others holds => ?_
  cases answer with
  | ok m => exact .ret fun u more => ⟨_, rfl, mounted ((holds u more).1 m rfl).2⟩
  | error e =>
    have isNode : IsNode sha256 { pid := "", id := idOf sha256 [], path := "/", ino := 1, mode := sIFDIR ||| 0o755 } [] :=
      ⟨rfl, rfl, fun q d parts => (by simp at parts), fun q d parts => (by simp at parts)⟩
    refine Safe.implemented (calls_setFsNode via (typed.others others) made isNode) fun answer u _ holds => ?_
    cases (holds u (.refl u)).1
    exact .ret fun v _ => ⟨_, rfl, mounted isNode⟩

theorem safe_inodeFromFsId (typed : scope.Typed ks) (named : p ∈ scope.named) (n : FSNode) :
    scope.Safe (fun answer _ =>
        (answer = .error .enoent ∨ ∃ m, answer = .ok (n.foundEntry m) ∧ p ∈ scope.made ∧ IsNode sha256 m p) ∧
        (p ∈ scope.kept → Stored sha256 p ks → ∃ out, answer = .ok out)) ks
      ((n.inodeFromFsId (idOf sha256 p)).translate via.client) := by
  refine Safe.implemented (calls_getFsNode via typed named) fun answer t _ holds => ?_
  obtain ⟨isNode, kept⟩ := holds t (.refl t)
  cases answer with
  | ok m => exact .ret fun u _ => ⟨.inr ⟨m, rfl, isNode m rfl⟩, fun _ _ => ⟨_, rfl⟩⟩
  | error e =>
    refine .ret fun u _ => ⟨.inl rfl, fun stays stored => ?_⟩
    obtain ⟨m, ok⟩ := kept stays stored
    cases ok

theorem safe_readdir (typed : scope.Typed ks) (handle : Handle sha256 n q) (named : q ∈ scope.named) :
    scope.Safe (fun answer _ => ∃ nodes, answer = .ok (nodes.map dirEntry) ∧ scope.Lists q ks nodes) ks
      ((n.readdir sha256).translate via.client) := by
  rw [FSNode.readdir, handle.path]
  refine Safe.implemented (calls_getFsNodeChildren via typed named) fun answer t _ holds => ?_
  obtain ⟨nodes, rfl, lists⟩ := holds t (.refl t)
  exact .ret fun u _ => ⟨nodes, rfl, lists⟩

theorem safe_makeNode (typed : scope.Typed ks) (handle : Handle sha256 n q) (directory : q ∈ scope.named)
    (made : q ++ [name.toList] ∈ scope.made) (mode : UInt32) (now : Time) :
    scope.Safe (fun answer t => answer = .ok (n.newEntry sha256 name mode) ∧
        (q ++ [name.toList] ∈ scope.kept → There sha256 (q ++ [name.toList]) t)) ks
      ((n.makeNode sha256 name mode now).translate via.client) := by
  have proper := ((scope.isPath _ (scope.made_named made)) name.toList (by simp)).proper
  have isNode := handle.newMetadata proper mode now
  unfold FSNode.makeNode FSNode.linkNew
  rw [handle.fsId proper, handle.id]
  refine Safe.implemented (calls_setFsNode via typed made isNode) fun answer t others stored => ?_
  cases (stored t (.refl t)).1
  refine Safe.implemented (calls_addFsNodeChild via (typed.others others) directory made) fun answer u more linked => ?_
  cases (linked u (.refl u)).1
  refine .ret fun v rest => ⟨rfl, fun kept => ?_⟩
  exact .of_linked ((stored v (more.trans rest)).2 kept) ((linked v rest).2 kept)

theorem safe_unlink (typed : scope.Typed ks) (handle : Handle sha256 n q) (directory : q ∈ scope.named)
    (named : q ++ [name.toList] ∈ scope.named) (removed : q ++ [name.toList] ∉ scope.kept) :
    scope.Safe (fun answer _ => answer = .ok ()) ks ((n.unlink sha256 name).translate via.client) := by
  have proper := (scope.isPath _ named name.toList (by simp)).proper
  unfold FSNode.unlink FSNode.unlinkChild
  rw [handle.fsId proper, handle.id]
  refine Safe.implemented (calls_removeFsNode via typed named removed) fun answer t others holds => ?_
  cases holds t (.refl t)
  refine Safe.implemented (calls_removeFsNodeChild via (typed.others others) directory named removed)
    fun answer u _ holds => ?_
  cases holds u (.refl u)
  exact .ret fun _ _ => rfl

theorem safe_rmdir (typed : scope.Typed ks) (handle : Handle sha256 n q) (directory : q ∈ scope.named)
    (named : q ++ [name.toList] ∈ scope.named) (removed : q ++ [name.toList] ∉ scope.kept) :
    scope.Safe (fun answer _ => (answer = .ok () ∨ answer = .error .enotempty) ∧
        ((∃ c, q ++ [name.toList] ++ [c] ∈ scope.kept ∧ There sha256 (q ++ [name.toList] ++ [c]) ks) →
          answer = .error .enotempty)) ks
      ((n.rmdir sha256 name).translate via.client) := by
  have proper := (scope.isPath _ named name.toList (by simp)).proper
  rw [FSNode.rmdir, handle.fsId proper]
  refine Safe.implemented (calls_getFsNodeChildren via typed named) fun answer t others holds => ?_
  obtain ⟨nodes, rfl, lists⟩ := holds t (.refl t)
  dsimp only
  split
  · rename_i empty
    refine (safe_unlink via (typed.others others) handle directory named removed).mono fun answer u _ ok => ⟨.inl ok, ?_⟩
    -- an entry that stays is among the children
    rintro ⟨c, kept, there⟩
    obtain ⟨m, member, -⟩ := lists.kept c kept (there.linked _ c rfl) there.stored
    rw [empty] at member
    cases member
  · exact .ret fun _ _ => ⟨.inr rfl, fun _ => rfl⟩

theorem partMetadata_not_coordinator {file : StoredFile} {round : Nat} {part currentPath previousParentId : String}
    {cause : CoordinatorError} :
    partMetadata sha256 file round part currentPath previousParentId ≠ .error (.coordinator cause) := by
  unfold partMetadata
  split
  · exact fun failed => by cases failed
  · dsimp only
    split
    · split <;> exact fun failed => by cases failed
    · exact fun failed => by cases failed

/-- The rounds that are left of a store, in the directory made last. -/
theorem safe_storeParts (typed : scope.Typed ks) (file : StoredFile) {parts : List Component} (directory : q ∈ scope.named)
    (made : ∀ r, r ≠ [] → r <+: parts → q ++ r ∈ scope.made) (round : Nat) :
    scope.Safe (fun answer t => (∀ cause, answer ≠ .error (.coordinator cause)) ∧
        (answer = .ok () → ∀ r, r ≠ [] → r <+: parts → q ++ r ∈ scope.kept → There sha256 (q ++ r) t)) ks
      ((storeParts sha256 file (parts.map String.ofList) round (rooted q) (idOf sha256 q)).translate via.client) := by
  induction parts generalizing q ks round with
  | nil =>
    refine .ret fun t _ => ⟨fun cause failed => (by cases failed), fun _ r some before => ?_⟩
    exact absurd (List.prefix_nil.mp before) some
  | cons c parts ih =>
    have here : q ++ [c] ∈ scope.made := made [c] (List.cons_ne_nil _ _) (List.prefix_append [c] parts)
    have path := scope.isPath _ (scope.made_named here)
    have proper : Proper c := (path c (by simp)).proper
    simp only [List.map_cons, storeParts, currentPath_eq (scope.isPath q directory).proper proper]
    cases metadata : partMetadata sha256 file round (String.ofList c) (rooted (q ++ [c])) (idOf sha256 q) with
    | error e =>
      refine .ret fun t _ => ⟨fun cause failed => ?_, fun ok => (by cases ok)⟩
      cases failed
      exact absurd metadata partMetadata_not_coordinator
    | ok m =>
      refine Safe.implemented (calls_setFsNode via typed here (partMetadata_isNode metadata)) fun answer t others stored => ?_
      cases (stored t (.refl t)).1
      refine Safe.implemented (calls_addFsNodeChild via (typed.others others) directory here) fun answer u more linked => ?_
      cases (linked u (.refl u)).1
      have below (r : List Component) (some : r ≠ []) (before : r <+: parts) : q ++ [c] ++ r ∈ scope.made := by
        rw [List.append_assoc]
        exact made (c :: r) (List.cons_ne_nil _ _) (List.cons_prefix_cons.mpr ⟨rfl, before⟩)
      refine (ih ((typed.others others).others more) (scope.made_named here) below (round + 1)).mono
        fun answer v rest holds => ⟨holds.1, fun ok r some before kept => ?_⟩
      obtain ⟨c', r, rfl⟩ := List.exists_cons_of_ne_nil some
      obtain ⟨rfl, inner⟩ := List.cons_prefix_cons.mp before
      rw [← List.singleton_append, ← List.append_assoc] at kept ⊢
      rcases eq_or_ne r [] with rfl | some
      · rw [List.append_nil] at kept ⊢
        exact .of_linked ((stored v (more.trans rest)).2 kept) ((linked v rest).2 kept)
      · exact holds.2 ok r some inner kept

theorem safe_storeContentInBlobFs (typed : scope.Typed ks) (root : [] ∈ scope.named) {file : StoredFile} (at_ : file.At p)
    (made : ∀ r, r ≠ [] → r <+: p → r ∈ scope.made) :
    scope.Safe (fun answer t => (∀ cause, answer ≠ .error (.coordinator cause)) ∧
        (answer = .ok () → ∀ r, r ≠ [] → r <+: p → r ∈ scope.kept → There sha256 r t)) ks
      ((storeContentInBlobFs sha256 file).translate via.client) := by
  simp only [storeContentInBlobFs, at_.clean, split_rooted at_.isPath.proper at_.some_component, List.head?_cons, if_true,
    List.tail_cons]
  exact safe_storeParts via typed _ root made 0

end

/-! ## Operations and their answers -/

namespace Scope

variable {sha256 : List UInt8 → List UInt8} (scope : Scope sha256)

/-- What is known of an operation that was started in `start` and has returned: its answer
fits, what it made is there, and what was there is shown. -/
structure Meets (start : Keyspace) (request : Request) (outcome : Outcome) (ks : Keyspace) : Prop where
  answers : scope.Answers request outcome
  makes : ∀ p ∈ scope.kept, request.Makes p → (∀ e, outcome ≠ .failed e) → There sha256 p ks
  shows : ∀ p ∈ scope.kept, There sha256 p start → request.Shows p outcome

/-- The handle is one for a path that has been made. -/
def HandleMade (n : FSNode) : Prop := ∃ q ∈ scope.made, Handle sha256 n q

end Scope

section

variable {sha256 : List UInt8 → List UInt8} {scope : Scope sha256} {ks : Keyspace} {n : FSNode}
  {p q : List Component} {c : Component} {name : String}

/-- The path of an entry is that of the handle, one name longer. -/
theorem Handle.entryAt (handle : Handle sha256 n q) (at_ : EntryAt n name p) (path : IsPath p) :
    p = q ++ [name.toList] := by
  obtain ⟨q', same, rfl⟩ := at_
  rw [rooted_injective handle.isPath.proper path.init.proper (handle.path.symm.trans same)]

theorem StoredFile.At.unique {file : StoredFile} (at_ : file.At p) (at' : file.At q) : p = q :=
  rooted_injective at_.isPath.proper at'.isPath.proper (at_.clean.symm.trans at'.clean)

theorem safe_of {ε α : Type} {via : Connection} {program : Program FsCall (Except ε α)} (failed : ε → Failure)
    (returned : α → Outcome) {Q : Except ε α → Keyspace → Prop} {R : Outcome → Keyspace → Prop}
    (safe : scope.Safe Q ks (program.translate via.client))
    (meets : ∀ answer t, Q answer t → R (.of failed returned answer) t) :
    scope.Safe R ks (Program.translate via.client (do return .of failed returned (← program))) := by
  rw [Program.translate_bind]
  exact safe.map _ meets

/-- `Create` and `Mkdir`. -/
theorem safe_making (typed : scope.Typed ks) {request : Request} (handle : scope.HandleMade n)
    (covers : ∃ p ∈ scope.made, EntryAt n name p) (mode : UInt32) (now : Time)
    (answers : ∀ outcome, scope.Answers request outcome ↔ ∃ out p, outcome = .entry out ∧ scope.IsEntry n name out p)
    (makes : ∀ p, request.Makes p ↔ EntryAt n name p) (shows : ∀ p outcome, request.Shows p outcome) :
    scope.Safe (scope.Meets ks request) ks (Program.translate n.filesystem.client (do
      return .of .errno .entry (← n.makeNode sha256 name mode now))) := by
  obtain ⟨q, directory, handle⟩ := handle
  obtain ⟨p, made, at_⟩ := covers
  obtain rfl := handle.entryAt at_ (scope.isPath _ (scope.made_named made))
  have proper := (scope.isPath _ (scope.made_named made) name.toList (by simp)).proper
  refine safe_of .errno .entry (safe_makeNode _ typed handle (scope.made_named directory) made mode now) ?_
  rintro answer t ⟨rfl, there⟩
  refine ⟨(answers _).mpr ⟨_, _, rfl, made, at_, ?_, rfl⟩, fun p kept at' _ => ?_, fun p _ _ => shows p _⟩
  · exact ⟨scope.isPath _ (scope.made_named made), handle.fullPath proper, handle.fsId proper⟩
  · obtain rfl := handle.entryAt ((makes p).mp at') (scope.isPath _ (scope.kept_named kept))
    exact there kept

theorem safe_lookup (typed : scope.Typed ks) (handle : scope.HandleMade n)
    (storeContentFromFUSE : String → Program FsCall (Except String String))
    (covers : ∃ p ∈ scope.named, EntryAt n name p) :
    scope.Safe (scope.Meets ks (.op (.lookup n name storeContentFromFUSE))) ks
      (Running.start sha256 (.op (.lookup n name storeContentFromFUSE))).rest := by
  obtain ⟨q, -, handle⟩ := handle
  obtain ⟨p, named, at_⟩ := covers
  have path := scope.isPath _ named
  obtain rfl := handle.entryAt at_ path
  have isName := path name.toList (by simp)
  have inode := @safe_inodeFromFsId sha256 scope ks _ n.filesystem typed named n
  have program : n.lookup sha256 name storeContentFromFUSE = n.inodeFromFsId (idOf sha256 (q ++ [name.toList])) := by
    rw [FSNode.lookup, if_neg (handle.no_percent isName), handle.fullPath isName.proper]
    rfl
  refine safe_of .errno .entry (program ▸ inode) ?_
  rintro answer t ⟨found, shown⟩
  refine ⟨?_, fun _ _ makes => makes.elim, fun p kept there at' => ?_⟩
  · rcases found with rfl | ⟨m, rfl, made, isNode⟩
    · exact .inl rfl
    · refine .inr ⟨_, _, rfl, made, at_, ⟨path, isNode.path, isNode.id⟩, ?_⟩
      exact (isNode.name q name.toList rfl).trans String.ofList_toList
  · obtain rfl := handle.entryAt at' (scope.isPath _ (scope.kept_named kept))
    obtain ⟨out, rfl⟩ := shown kept there.stored
    exact ⟨out, rfl⟩

theorem safe_listing (typed : scope.Typed ks) (handle : scope.HandleMade n) :
    scope.Safe (scope.Meets ks (.readdir n)) ks (Running.start sha256 (.readdir n)).rest := by
  obtain ⟨q, directory, handle⟩ := handle
  refine safe_of .errno .entries (safe_readdir n.filesystem typed handle (scope.made_named directory)) ?_
  rintro answer t ⟨nodes, rfl, lists⟩
  have called {m : BlobFsMetadata} {c : Component} (isNode : IsNode sha256 m (q ++ [c])) : m.name = String.ofList c :=
    isNode.name q c rfl
  refine ⟨⟨_, rfl, ?_, fun entry member => ?_⟩, fun _ _ makes => makes.elim, fun p kept there name at_ => ?_⟩
  · -- two nodes of one name have one path, so one id
    rw [List.map_map]
    refine (List.Nodup.of_map _ lists.nodup).map_on fun m inside m' inside' same => ?_
    obtain ⟨c, -, isNode⟩ := lists.isNode m inside
    obtain ⟨c', -, isNode'⟩ := lists.isNode m' inside'
    have name : c = c' := String.ofList_injective ((called isNode).symm.trans (same.trans (called isNode')))
    refine List.inj_on_of_nodup_map lists.nodup inside inside' ?_
    rw [isNode.id, isNode'.id, name]
  · obtain ⟨m, inside, rfl⟩ := List.mem_map.mp member
    obtain ⟨c, made, isNode⟩ := lists.isNode m inside
    refine ⟨_, made, q, handle.path, ?_⟩
    rw [dirEntry, called isNode, String.toList_ofList]
  · obtain rfl := handle.entryAt at_ (scope.isPath _ (scope.kept_named kept))
    obtain ⟨m, inside, isNode⟩ := lists.kept _ kept (there.linked q _ rfl) there.stored
    exact ⟨_, rfl, _, List.mem_map_of_mem inside, (called isNode).trans String.ofList_toList⟩

theorem safe_removing (typed : scope.Typed ks) (handle : scope.HandleMade n)
    (covers : ∃ p ∈ scope.named, p ∉ scope.kept ∧ EntryAt n name p) :
    scope.Safe (scope.Meets ks (.op (.unlink n name))) ks (Running.start sha256 (.op (.unlink n name))).rest ∧
      scope.Safe (scope.Meets ks (.op (.rmdir n name))) ks (Running.start sha256 (.op (.rmdir n name))).rest := by
  obtain ⟨q, directory, handle⟩ := handle
  obtain ⟨p, named, removed, at_⟩ := covers
  obtain rfl := handle.entryAt at_ (scope.isPath _ named)
  have directory := scope.made_named directory
  constructor
  · refine safe_of .errno (fun _ => .done) (safe_unlink n.filesystem typed handle directory named removed) ?_
    rintro answer t rfl
    exact ⟨rfl, fun _ _ makes => makes.elim, fun _ _ _ => trivial⟩
  · refine safe_of .errno (fun _ => .done) (safe_rmdir n.filesystem typed handle directory named removed) ?_
    rintro answer t ⟨answered, nonempty⟩
    refine ⟨?_, fun _ _ makes => makes.elim, fun p kept there q' c at' below => ?_⟩
    · exact answered.imp (fun ok => by rw [ok]; rfl) fun failed => by rw [failed]; rfl
    · subst below
      obtain rfl := handle.entryAt at' (scope.isPath _ (scope.kept_named kept)).init
      rw [nonempty ⟨c, kept, there⟩]
      rfl

theorem safe_storing (via : Connection) {file : StoredFile} (typed : scope.Typed ks)
    (covers : scope.Covers (.op (.storeContentInBlobFs via file))) :
    scope.Safe (scope.Meets ks (.op (.storeContentInBlobFs via file))) ks
      (Running.start sha256 (.op (.storeContentInBlobFs via file))).rest := by
  obtain ⟨root, p, at_, made⟩ := covers
  have safe := safe_storeContentInBlobFs via typed root at_ made
  simp only [Running.start, Request.program, Request.via]
  generalize storeContentInBlobFs sha256 file = program at safe ⊢
  refine safe_of .store (fun _ => .done) safe fun answer t holds => ?_
  cases answer with
  | error e =>
    refine ⟨.inr ⟨e, rfl, fun cause failed => holds.1 cause (by rw [failed])⟩, fun _ _ _ ok => ?_, fun _ _ _ => trivial⟩
    exact absurd rfl (ok _)
  | ok =>
    refine ⟨.inl rfl, fun r kept makes _ => ?_, fun _ _ _ => trivial⟩
    obtain ⟨some, p', at', before⟩ := makes
    obtain rfl := at_.unique at'
    exact holds.2 rfl r some before kept

/-- **Each operation is safe among the others**, and meets what is expected of it. -/
theorem safe_start (typed : scope.Typed ks) {request : Request} (covers : scope.Covers request)
    (handles : ∀ n, request.handle = some n → scope.HandleMade n) :
    scope.Safe (scope.Meets ks request) ks (Running.start sha256 request).rest := by
  cases request with
  | readdir n => exact safe_listing typed (handles n rfl)
  | op op =>
    cases op with
    | newFileSystem via =>
      refine safe_of .coordinator .mounted (safe_newFileSystem via typed covers) ?_
      rintro answer t ⟨n, rfl, handle⟩
      exact ⟨⟨n, rfl, covers, handle⟩, fun _ _ makes => makes.elim, fun _ _ _ => trivial⟩
    | storeContentInBlobFs via file => exact safe_storing via typed covers
    | lookup n name storeContentFromFUSE => exact safe_lookup typed (handles n rfl) storeContentFromFUSE covers
    | create n name mode now =>
      exact safe_making typed (handles n rfl) covers mode now (fun _ => .rfl) (fun _ => .rfl) fun _ _ => trivial
    | mkdir n name mode now =>
      exact safe_making typed (handles n rfl) covers _ now (fun _ => .rfl) (fun _ => .rfl) fun _ _ => trivial
    | rmdir n name => exact (safe_removing typed (handles n rfl) covers).2
    | unlink n name => exact (safe_removing typed (handles n rfl) covers).1

end

/-! ## Runs -/

namespace Scope

variable {sha256 : List UInt8 → List UInt8} {scope : Scope sha256}

theorem Answers.handles {request : Request} {outcome : Outcome} (answers : scope.Answers request outcome) {n : FSNode}
    (member : n ∈ outcome.handles) : scope.HandleMade n := by
  have entry {out : EntryOut} {n' : FSNode} {name : String} {p : List Component} (isEntry : scope.IsEntry n' name out p)
      (member : n ∈ (Outcome.entry out).handles) : scope.HandleMade n := by
    rw [List.mem_singleton.mp member]
    exact ⟨p, isEntry.made, isEntry.handle⟩
  cases request with
  | readdir n' =>
    obtain ⟨listed, rfl, -⟩ := answers
    cases member
  | op op =>
    cases op with
    | newFileSystem via =>
      obtain ⟨n', rfl, made, handle⟩ := answers
      rw [List.mem_singleton.mp member]
      exact ⟨[], made, handle⟩
    | storeContentInBlobFs via file => rcases answers with rfl | ⟨e, rfl, -⟩ <;> cases member
    | lookup n' name storeContentFromFUSE =>
      rcases answers with rfl | ⟨out, p, rfl, isEntry⟩
      · cases member
      · exact entry isEntry member
    | create n' name mode now | mkdir n' name mode now =>
      obtain ⟨out, p, rfl, isEntry⟩ := answers
      exact entry isEntry member
    | rmdir n' name => rcases answers with rfl | rfl <;> cases member
    | unlink n' name => cases answers; cases member

/-- The operation was started in one of the states, and is safe. -/
def Under (scope : Scope sha256) (starts : Set Keyspace) (ks : Keyspace) (running : Running) : Prop :=
  ∃ start ∈ starts, scope.Safe (scope.Meets start running.request) ks running.rest

theorem Under.returned {starts : Set Keyspace} {p : Mounts} {i : Nat} {request : Request} {outcome : Outcome}
    (under : ∀ running, p.threads[i]? = some running → scope.Under starts p.shared running)
    (returned : p.Returned i request outcome) : ∃ start ∈ starts, scope.Meets start request outcome p.shared := by
  obtain ⟨start, member, safe⟩ := under _ returned
  exact ⟨start, member, safe.of_ret⟩

theorem Under.handleMade {starts : Nat → Set Keyspace} {p : Mounts}
    (under : ∀ i running, p.threads[i]? = some running → scope.Under (starts i) p.shared running) {n : FSNode}
    (given : p.Given n) : scope.HandleMade n := by
  obtain ⟨i, request, outcome, returned, member⟩ := given
  obtain ⟨start, -, meets⟩ := Under.returned (under i) returned
  exact meets.answers.handles member

/-- **All operations are safe along every run.** Of those that are started later, nothing is
asked about the state in which they start. -/
theorem Run.under {first last : Mounts} (run : scope.Run first last) (starts : Nat → Set Keyspace)
    (later : ∀ i, first.threads.length ≤ i → starts i = Set.univ) (typed : scope.Typed first.shared)
    (threads : ∀ i running, first.threads[i]? = some running → scope.Under (starts i) first.shared running) :
    scope.Typed last.shared ∧ ∀ i running, last.threads[i]? = some running → scope.Under (starts i) last.shared running := by
  refine Pool.invariant_indexed (L := fun i => scope.Under (starts i)) ?_ ?_ ?_ run typed threads
  · exact fun _ e => e.elim
  · rintro p _ ⟨request, rfl, covers, given⟩ typed threads more
    refine ⟨p.shared, ?_, safe_start typed covers fun n handle => Under.handleMade threads (given n handle)⟩
    rw [later _ more]
    trivial
  · rintro p t - running - - typed ⟨start, member, safe⟩
    obtain ⟨others, safe'⟩ := safe.advance
    refine ⟨typed.others others, ⟨start, member, safe'⟩, ?_⟩
    rintro i other ⟨start, member, safe⟩
    exact ⟨start, member, safe.rely others⟩

theorem Run.under_fresh {p : Mounts} (run : scope.Run .fresh p) :
    scope.Typed p.shared ∧
      ∀ (i : Nat) running, p.threads[i]? = some running → scope.Under Set.univ p.shared running :=
  run.under (fun _ => Set.univ) (fun _ _ => rfl) .empty fun i running none => by cases none

end Scope

section

variable {sha256 : List UInt8 → List UInt8} {scope : Scope sha256} {p p' : Mounts}

/-- **Every answer fits.** Whatever order the commands come in, an operation that has returned
has answered for the path that it was called for, if the paths of the run have no percent sign
and different ids. `Lookup`, `Create` and `Mkdir` return a node with the path, the id and the
name of the entry; `Readdir` lists each name once and only names of paths at which an entry was
made; and none of them fails because of the others. -/
theorem answers_among_others (run : scope.Run .fresh p) {i : Nat} {request : Request} {outcome : Outcome}
    (returned : p.Returned i request outcome) : scope.Answers request outcome := by
  obtain ⟨start, -, meets⟩ := Scope.Under.returned ((Scope.Run.under_fresh run).2 i) returned
  exact meets.answers

/-- **What was made is found.** An entry that no `Rmdir` and no `Unlink` of the whole run is called
for is shown by every operation that starts after the one that made it has returned: `Lookup`
finds it, `Readdir` lists it, and `Rmdir` of its directory gives up. Here too the paths have no
percent sign. -/
theorem made_entry_is_shown (run : scope.Run .fresh p) {i : Nat} {maker : Request} {made : Outcome}
    (returned : p.Returned i maker made) (succeeded : ∀ e, made ≠ .failed e) {path : List Component}
    (makes : maker.Makes path) (kept : path ∈ scope.kept) {request : Request}
    (starts : scope.Allowed p (.spawn (.start sha256 request)))
    (later : scope.Run (Mounts.step (.spawn (.start sha256 request)) p) p') {outcome : Outcome}
    (answered : p'.Returned p.threads.length request outcome) : request.Shows path outcome := by
  obtain ⟨typed, under⟩ := Scope.Run.under_fresh run
  obtain ⟨start, -, met⟩ := Scope.Under.returned (under i) returned
  have there := met.makes path kept makes succeeded
  -- of the operation that starts now we keep in which state it does
  let startsIn (k : Nat) : Set Keyspace := if k = p.threads.length then {p.shared} else Set.univ
  have atStart : scope.Under {p.shared} p.shared (.start sha256 request) := by
    obtain ⟨request', same, covers, given⟩ := starts
    cases congrArg Running.request same
    exact ⟨p.shared, rfl, safe_start typed covers fun n handle => Scope.Under.handleMade under (given n handle)⟩
  have after := Scope.Run.under later startsIn (fun k more => if_neg ?_) typed fun k running found => ?_
  · obtain ⟨start, here, meets⟩ := Scope.Under.returned (after.2 _) answered
    rw [show startsIn p.threads.length = {p.shared} from if_pos rfl] at here
    cases here
    exact meets.shows path kept there
  · rw [Mounts.step, Pool.step, List.length_append, List.length_singleton] at more
    omega
  · rcases Nat.lt_trichotomy k p.threads.length with old | rfl | none
    · rw [Mounts.step, Pool.step, List.getElem?_append_left old] at found
      rw [show startsIn k = Set.univ from if_neg (by omega)]
      exact under k running found
    · rw [Mounts.step, Pool.step, List.getElem?_concat_length] at found
      cases found
      rw [show startsIn p.threads.length = {p.shared} from if_pos rfl]
      exact atStart
    · rw [Mounts.step, Pool.step, List.getElem?_eq_none (by simp; omega)] at found
      cases found

end

/-! ## A run -/

namespace Mounts

/-- What the operation has returned, if it has. -/
def result (p : Mounts) (i : Nat) : Option Outcome :=
  match p.threads[i]? with
  | some ⟨_, .ret outcome⟩ => some outcome
  | _ => none

/-- The operations that an action starts. -/
def started : Action Running Empty Unit → List Request
  | .spawn running => [running.request]
  | _ => []

theorem step_requests (a : Action Running Empty Unit) (p : Mounts) :
    (step a p).threads.map Running.request = p.threads.map Running.request ++ started a := by
  cases a with
  | env e => cases e
  | spawn running => exact List.map_append
  | move t choice =>
    simp only [step, Pool.step, started, List.append_nil]
    cases found : p.threads[t]? with
    | none => rfl
    | some running =>
      dsimp only
      rw [List.map_set]
      have same : (p.threads.map Running.request)[t]? = some (running.move choice p.shared).2.request := by
        rw [List.getElem?_map, found]
        rfl
      obtain ⟨inside, same⟩ := List.getElem?_eq_some_iff.mp same
      rw [← same, List.set_getElem_self]

theorem after_requests (actions : List (Action Running Empty Unit)) (p : Mounts) :
    (after step actions p).threads.map Running.request = p.threads.map Running.request ++ actions.flatMap started := by
  induction actions generalizing p with
  | nil => simp [after]
  | cons a actions ih =>
    rw [List.flatMap_cons, ← List.append_assoc, ← step_requests]
    exact ih _

theorem returned_of_result {p : Mounts} {i : Nat} {request : Request}
    (requested : (p.threads.map Running.request)[i]? = some request) (returned : (p.result i).isSome) :
    ∃ outcome, p.result i = some outcome ∧ p.Returned i request outcome := by
  obtain ⟨outcome, result⟩ := Option.isSome_iff_exists.mp returned
  refine ⟨outcome, result, ?_⟩
  rw [List.getElem?_map, Option.map_eq_some_iff] at requested
  obtain ⟨⟨_, rest⟩, found, rfl⟩ := requested
  rw [Mounts.result, found] at result
  cases rest with
  | ret other => cases result; exact found
  | call command next => cases result

end Mounts

namespace Mounts

/-- What has returned stays as it is. -/
theorem Returned.step {p : Mounts} {i : Nat} {request : Request} {outcome : Outcome}
    (returned : p.Returned i request outcome) (a : Action Running Empty Unit) :
    (step a p).Returned i request outcome := by
  have kept : ∃ running, (Mounts.step a p).threads[i]? = some running ∧
      running = Running.mk request (.ret outcome) :=
    Pool.thread_step (P := (· = ⟨request, .ret outcome⟩)) (fun choice s running at_ => by rw [at_]; rfl) returned rfl a
  obtain ⟨_, there, rfl⟩ := kept
  exact there

theorem Given.step {p : Mounts} {n : FSNode} (given : p.Given n) (a : Action Running Empty Unit) : (step a p).Given n := by
  obtain ⟨i, request, outcome, returned, member⟩ := given
  exact ⟨i, request, outcome, returned.step a, member⟩

theorem Given.later {p : Mounts} {n : FSNode} (given : p.Given n) (actions : List (Action Running Empty Unit)) :
    (after Mounts.step actions p).Given n := by
  induction actions generalizing p with
  | nil => exact given
  | cons a actions ih => exact ih (given.step a)

/-- A run of operations on a handle that has been given out. -/
theorem after_run {sha256 : List UInt8 → List UInt8} {scope : Scope sha256} {n : FSNode} {p : Mounts} (given : p.Given n)
    (actions : List (Action Running Empty Unit))
    (spawns : ∀ running, .spawn running ∈ actions → ∃ request, running = .start sha256 request ∧ scope.Covers request ∧
      request.handle = some n) : scope.Run p (after step actions p) := by
  induction actions generalizing p with
  | nil => exact .refl _
  | cons a actions ih =>
    have first : scope.Run p (step a p) := by
      refine (Trace.refl p).tail a ?_
      cases a with
      | env e => trivial
      | move t choice => trivial
      | spawn running =>
        obtain ⟨request', rfl, covers, handle⟩ := spawns running List.mem_cons_self
        refine ⟨request', rfl, covers, fun n' on => ?_⟩
        cases handle.symm.trans on
        exact given
    refine first.trans (ih (given.step a) fun running later => ?_)
    exact spawns running (List.mem_cons_of_mem _ later)

end Mounts

theorem padded_distinct : Set.InjOn (idOf padded) { p | IsPath p } := fun _ path _ path' same =>
  idOf_injective padded padded_injective path.proper path'.proper same

theorem isPath_d : ({[['d']]} : Set (List Component)) ⊆ { p | IsPath p } := by
  rintro _ rfl
  exact List.forall_mem_singleton.mpr (by decide)

/-- Nobody removes the directory. -/
def keepD : Scope padded where
  made := { p | IsPath p }
  named := { p | IsPath p }
  kept := {[['d']]}
  isPath _ path := path
  made_named := subset_rfl
  kept_named := isPath_d
  distinct := padded_distinct

def mountRoot : Request := .op (.newFileSystem .direct)

def makeD : Request := .op (.mkdir (root .direct) "d" 0o755 ⟨1, 0⟩)

def makeA : Request := .op (.create (root .direct) "a" 0o644 ⟨2, 0⟩)

/-- The file system has been mounted. -/
def mountedOnly : Mounts :=
  after Mounts.step [.spawn (.start padded mountRoot), .move 0 (), .move 0 (), .move 0 ()] .fresh

/-- A directory has been made while a file is being made. -/
def madeD : Mounts :=
  after Mounts.step [.spawn (.start padded makeD), .spawn (.start padded makeA), .move 2 (), .move 1 (), .move 1 (),
    .move 2 (), .move 1 ()] mountedOnly

/-- The root has been listed, and between the commands for it the file was linked. -/
def listedRoot : Mounts :=
  after Mounts.step [.move 3 (), .move 2 (), .move 3 ()]
    (Mounts.step (.spawn (.start padded (.readdir (root .direct)))) madeD)

theorem mountedOnly_given : mountedOnly.Given (root .direct) := by
  obtain ⟨outcome, result, returned⟩ := @Mounts.returned_of_result mountedOnly 0 mountRoot
    (by rw [mountedOnly, Mounts.after_requests]; rfl) (by decide +kernel)
  have handles : (mountedOnly.result 0).map Outcome.handles = some [root .direct] := by decide +kernel
  rw [result] at handles
  exact ⟨0, mountRoot, outcome, returned, by rw [Option.some.inj handles]; exact List.mem_singleton_self _⟩

theorem rootEntry (name : String) : EntryAt (root .direct) name [name.toList] := ⟨[], rfl, rfl⟩

theorem mountedOnly_run : keepD.Run .fresh mountedOnly := by
  have root : [] ∈ keepD.made := .nil
  apply Trace.of_list
  rintro ⟨_ | _ | _ | _ | k, below⟩
  · exact ⟨mountRoot, rfl, root, fun n handle => by cases handle⟩
  · trivial
  · trivial
  · trivial
  · exact absurd below (by simp)

theorem madeD_run : keepD.Run .fresh madeD := by
  have path (name : String) (named : IsName name.toList) : ∃ p ∈ keepD.made, EntryAt (root .direct) name p :=
    ⟨_, List.forall_mem_singleton.mpr named, rootEntry name⟩
  refine mountedOnly_run.trans (Mounts.after_run mountedOnly_given _ fun running member => ?_)
  simp only [List.mem_cons, List.not_mem_nil, Action.spawn.injEq, reduceCtorEq, or_false] at member
  rcases member with rfl | rfl
  · exact ⟨makeD, rfl, path "d" (by decide), rfl⟩
  · exact ⟨makeA, rfl, path "a" (by decide), rfl⟩

/-- The directory was made while a file was being made. -/
theorem answers_among_others_madeD :
    ∃ outcome, madeD.Returned 1 makeD outcome ∧ keepD.Answers makeD outcome := by
  obtain ⟨outcome, -, returned⟩ := @Mounts.returned_of_result madeD 1 makeD
    (by simp only [madeD, mountedOnly, Mounts.after_requests]; rfl) (by decide +kernel)
  exact ⟨outcome, returned, answers_among_others madeD_run returned⟩

/-- The root is listed while the file is linked to it. -/
theorem made_entry_is_shown_listedRoot :
    ∃ listed, listedRoot.Returned 3 (.readdir (root .direct)) (.entries listed) ∧ ∃ entry ∈ listed, entry.name = "d" := by
  obtain ⟨made, result, returned⟩ := @Mounts.returned_of_result madeD 1 makeD
    (by simp only [madeD, mountedOnly, Mounts.after_requests]; rfl) (by decide +kernel)
  obtain ⟨outcome, -, answered⟩ := @Mounts.returned_of_result listedRoot 3 (.readdir (root .direct))
    (by simp only [listedRoot, madeD, mountedOnly, Mounts.after_requests, Mounts.step_requests]; rfl) (by decide +kernel)
  have succeeded (e : Failure) : made ≠ .failed e := by
    rintro rfl
    have handles : (madeD.result 1).map (fun outcome => outcome.handles.length) = some 1 := by decide +kernel
    rw [result] at handles
    cases handles
  have given : madeD.Given (root .direct) := mountedOnly_given.later _
  have starts : keepD.Allowed madeD (.spawn (.start padded (.readdir (root .direct)))) :=
    ⟨_, rfl, trivial, fun n handle => by cases handle; exact given⟩
  have later : keepD.Run (Mounts.step (.spawn (.start padded (.readdir (root .direct)))) madeD) listedRoot :=
    Mounts.after_run (given.step _) _ (by simp)
  have shown := made_entry_is_shown madeD_run returned succeeded (rootEntry "d") (Set.mem_singleton _) starts later
    (show listedRoot.Returned madeD.threads.length _ _ from answered)
  obtain ⟨listed, rfl, entry⟩ := shown "d" (rootEntry "d")
  exact ⟨listed, answered, entry⟩

end Blobcache.FileSystem
