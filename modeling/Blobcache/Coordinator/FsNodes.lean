import Blobcache.Lib.Execution
import Blobcache.Lib.Keyspace
import Blobcache.Lib.TaggedRecord
import Mathlib.Data.List.Nodup

/-!
# File-system nodes in Redis

`BlobCacheMetadata` keeps the metadata of a file-system node in a hash, written and read
field by field, and the ids of its children in a set. Its functions are programs of single
Redis commands, as other clients' commands can come between any two of them.

A node is held by a hash that has all fields of its metadata (`Holds`). `SetFsNode` replaces
it as a whole, with the generation of the node before plus one.
-/

namespace Blobcache.Coordinator
set_option autoImplicit false
open Execution Service TaggedRecord
open Redis (Keyspace Fields Command)

structure BlobFsMetadata where
  pid : String := ""
  id : String := ""
  name : String := ""
  path : String := ""
  hash : String := ""
  ino : UInt64 := 0
  size : UInt64 := 0
  blocks : UInt64 := 0
  atime : UInt64 := 0
  mtime : UInt64 := 0
  ctime : UInt64 := 0
  atimensec : UInt32 := 0
  mtimensec : UInt32 := 0
  ctimensec : UInt32 := 0
  mode : UInt32 := 0
  nlink : UInt32 := 0
  rdev : UInt32 := 0
  blksize : UInt32 := 0
  padding : UInt32 := 0
  uid : UInt32 := 0
  gid : UInt32 := 0
  gen : UInt64 := 0
  deriving DecidableEq

/-- The fields of `BlobFsMetadata`, all of which have a `redis` tag. -/
inductive MetadataField where
  | pid | id | name | path | hash
  | ino | size | blocks | atime | mtime | ctime
  | atimensec | mtimensec | ctimensec | mode | nlink | rdev | blksize | padding | uid | gid
  | gen
  deriving DecidableEq

namespace MetadataField

def all : List MetadataField :=
  [.pid, .id, .name, .path, .hash, .ino, .size, .blocks, .atime, .mtime, .ctime, .atimensec, .mtimensec,
    .ctimensec, .mode, .nlink, .rdev, .blksize, .padding, .uid, .gid, .gen]

def tag : MetadataField → String
  | pid => "pid" | id => "id" | name => "name" | path => "path" | hash => "hash"
  | ino => "ino" | size => "size" | blocks => "blocks" | atime => "atime" | mtime => "mtime" | ctime => "ctime"
  | atimensec => "atimensec" | mtimensec => "mtimensec" | ctimensec => "ctimensec" | mode => "mode"
  | nlink => "nlink" | rdev => "rdev" | blksize => "blksize" | padding => "padding" | uid => "uid" | gid => "gid"
  | gen => "gen"

def kind : MetadataField → Kind
  | pid | id | name | path | hash => .string
  | ino | size | blocks | atime | mtime | ctime | gen => .uint64
  | atimensec | mtimensec | ctimensec | mode | nlink | rdev | blksize | padding | uid | gid => .uint32

theorem mem_all (i : MetadataField) : i ∈ all := by cases i <;> decide

theorem tag_injective : Function.Injective tag := by
  have distinct : (all.map tag).Nodup := by decide
  intro i j same
  exact List.inj_on_of_nodup_map distinct (mem_all i) (mem_all j) same

end MetadataField

namespace BlobFsMetadata

def values (m : BlobFsMetadata) : (i : MetadataField) → i.kind.type
  | .pid => m.pid | .id => m.id | .name => m.name | .path => m.path | .hash => m.hash
  | .ino => m.ino | .size => m.size | .blocks => m.blocks
  | .atime => m.atime | .mtime => m.mtime | .ctime => m.ctime
  | .atimensec => m.atimensec | .mtimensec => m.mtimensec | .ctimensec => m.ctimensec
  | .mode => m.mode | .nlink => m.nlink | .rdev => m.rdev | .blksize => m.blksize | .padding => m.padding
  | .uid => m.uid | .gid => m.gid | .gen => m.gen

def ofValues (v : (i : MetadataField) → i.kind.type) : BlobFsMetadata where
  pid := v .pid
  id := v .id
  name := v .name
  path := v .path
  hash := v .hash
  ino := v .ino
  size := v .size
  blocks := v .blocks
  atime := v .atime
  mtime := v .mtime
  ctime := v .ctime
  atimensec := v .atimensec
  mtimensec := v .mtimensec
  ctimensec := v .ctimensec
  mode := v .mode
  nlink := v .nlink
  rdev := v .rdev
  blksize := v .blksize
  padding := v .padding
  uid := v .uid
  gid := v .gid
  gen := v .gen

theorem values_ofValues (v : (i : MetadataField) → i.kind.type) : (ofValues v).values = v := by
  funext i
  cases i <;> rfl

def layout : Layout BlobFsMetadata MetadataField where
  fields := MetadataField.all
  complete := MetadataField.mem_all
  tag := MetadataField.tag
  tag_injective := MetadataField.tag_injective
  kind := MetadataField.kind
  view := ⟨values, ofValues, fun _ => rfl, values_ofValues⟩

/-- `ToSlice`. -/
def toSlice (m : BlobFsMetadata) : Fields := layout.toSlice m

/-- `ToStruct` into a new record. -/
def ofFields (fields : Fields) : BlobFsMetadata := layout.toStruct fields {}

end BlobFsMetadata

inductive CoordinatorError where
  | redis (e : Redis.Error)
  | nodeNotFound (id : String)
  | setFailed (key : String) (e : Redis.Error)
  | failed (operation : String)
  deriving DecidableEq

def CoordinatorError.text : CoordinatorError → String
  | .redis e => e.text
  | .nodeNotFound id => "blobfs node not found: " ++ id
  | .setFailed key e => "failed to set blobfs node metadata <" ++ key ++ ">: " ++ e.text
  | .failed operation => "failed to " ++ operation

namespace BlobCacheMetadata

def metadataFsNode (id : String) : String := "blobcache:fs:node:" ++ id

def metadataFsNodeChildren (id : String) : String := "blobcache:fs:node:" ++ id ++ ":children"

def getFsNode (id : String) : Program Command (Except CoordinatorError BlobFsMetadata) := do
  match ← .perform (.hgetall (metadataFsNode id)) with
  | .error e => return .error (.redis e)
  | .ok res => return if res = [] then .error (.nodeNotFound id) else .ok (.ofFields res)

/-- The metadata that `SetFsNode` writes over the fields found: if there are any, the inode
generation is incremented. -/
def incremented (res : Fields) (metadata : BlobFsMetadata) : BlobFsMetadata :=
  if res = [] then metadata else { metadata with gen := (BlobFsMetadata.ofFields res).gen + 1 }

/-- The second half of `SetFsNode`. -/
def writeFsNode (id : String) (metadata : BlobFsMetadata) : Program Command (Except CoordinatorError Unit) := do
  match ← .perform (.hset (metadataFsNode id) metadata.toSlice) with
  | .error e => return .error (.setFailed (metadataFsNode id) e)
  | .ok () => return .ok ()

def setFsNode (id : String) (metadata : BlobFsMetadata) : Program Command (Except CoordinatorError Unit) := do
  match ← .perform (.hgetall (metadataFsNode id)) with
  | .error e => return .error (.redis e)
  | .ok res => writeFsNode id (incremented res metadata)

/-- The loop of `GetFsNodeChildren`: a node that is not found is left out. -/
def getFsNodes : List String → Program Command (List BlobFsMetadata)
  | [] => return []
  | id :: ids => do
    let node ← getFsNode id
    let entries ← getFsNodes ids
    match node with
    | .error _ => return entries
    | .ok node => return node :: entries

def getFsNodeChildren (id : String) : Program Command (Except CoordinatorError (List BlobFsMetadata)) := do
  match ← .perform (.smembers (metadataFsNodeChildren id)) with
  | .error e => return .error (.redis e)
  | .ok ids => return .ok (← getFsNodes ids)

/-- The error of a command, as the caller gets it. -/
def reported : Except Redis.Error Unit → Except CoordinatorError Unit
  | .error e => .error (.redis e)
  | .ok () => .ok ()

def addFsNodeChild (pid id : String) : Program Command (Except CoordinatorError Unit) := do
  return reported (← .perform (.sadd (metadataFsNodeChildren pid) id))

def removeFsNode (id : String) : Program Command (Except CoordinatorError Unit) := do
  return reported (← .perform (.del (metadataFsNode id)))

def removeFsNodeChild (pid id : String) : Program Command (Except CoordinatorError Unit) := do
  return reported (← .perform (.srem (metadataFsNodeChildren pid) id))

end BlobCacheMetadata

/-! ## The hash of a node -/

/-- The hash has the fields of the metadata. -/
structure Written (fields : Fields) (m : BlobFsMetadata) : Prop where
  some_field : fields ≠ []
  lookup : ∀ i : MetadataField, fields.lookup i.tag = some (i.kind.print (m.values i))

theorem Written.ofFields {fields : Fields} {m : BlobFsMetadata} (written : Written fields m) :
    BlobFsMetadata.ofFields fields = m :=
  BlobFsMetadata.layout.toStruct_of_written written.lookup _

theorem toSlice_ne_nil (m : BlobFsMetadata) : m.toSlice ≠ [] := List.cons_ne_nil _ _

theorem Written.toSlice (m : BlobFsMetadata) : Written m.toSlice m where
  some_field := toSlice_ne_nil m
  lookup i := by
    obtain ⟨member, only⟩ := BlobFsMetadata.layout.mem_toSlice m i
    exact Fields.lookup_of_mem member only

/-- `HSET` of all fields leaves nothing of what was there. -/
theorem Written.setAll (fields : Fields) (m : BlobFsMetadata) : Written (fields.setAll m.toSlice) m where
  some_field := Fields.setAll_ne_nil (.inr (toSlice_ne_nil m))
  lookup i := by
    obtain ⟨member, only⟩ := BlobFsMetadata.layout.mem_toSlice m i
    exact Fields.lookup_setAll only (.inr ⟨_, member, rfl⟩)

namespace BlobCacheMetadata

/-- What Redis has under the key of the node. -/
def Holds (ks : Keyspace) (id : String) : Option BlobFsMetadata → Prop
  | none => ks (metadataFsNode id) = none
  | some m => ∃ fields, ks (metadataFsNode id) = some (.hash fields) ∧ Written fields m

/-- The metadata of the next version of a node. -/
def nextVersion (m : BlobFsMetadata) : Option BlobFsMetadata → BlobFsMetadata
  | none => m
  | some old => { m with gen := old.gen + 1 }

/-- What `GetFsNode` answers. -/
def found (id : String) : Option BlobFsMetadata → Except CoordinatorError BlobFsMetadata
  | none => .error (.nodeNotFound id)
  | some m => .ok m

theorem metadataFsNode_injective : Function.Injective metadataFsNode := by
  intro id id' same
  exact (String.append_right_inj _).mp same

/-- The fields that `HGETALL` returns of the node. -/
def ReadAs (res : Fields) : Option BlobFsMetadata → Prop
  | none => res = []
  | some m => Written res m

theorem ReadAs.incremented {res : Fields} {node : Option BlobFsMetadata} (read : ReadAs res node)
    (m : BlobFsMetadata) : incremented res m = nextVersion m node := by
  unfold BlobCacheMetadata.incremented
  cases node with
  | none => exact if_pos read
  | some old =>
    rw [if_neg read.some_field, read.ofFields]
    rfl

section

variable {ks ks' : Keyspace} {id : String} {node : Option BlobFsMetadata}

theorem Holds.hgetall (holds : Holds ks id node) :
    ∃ res, ks.hgetall (metadataFsNode id) = .ok res ∧ ReadAs res node := by
  unfold Keyspace.hgetall
  cases node with
  | none => exact ⟨[], by rw [show ks (metadataFsNode id) = none from holds], rfl⟩
  | some m =>
    obtain ⟨fields, held, written⟩ := holds
    exact ⟨fields, by rw [held], written⟩

theorem Holds.getFsNode (holds : Holds ks id node) : (getFsNode id).run Keyspace.serve ks = (found id node, ks) := by
  obtain ⟨res, answer, read⟩ := holds.hgetall
  simp only [BlobCacheMetadata.getFsNode, Program.run_bind, Program.run_perform, Keyspace.serve, answer]
  cases node with
  | none =>
    rw [show res = [] from read]
    rfl
  | some m =>
    simp only [if_neg read.some_field, read.ofFields]
    rfl

/-- The node is replaced by its next version. -/
theorem Holds.setFsNode (holds : Holds ks id node) (m : BlobFsMetadata) :
    ∃ fields, (setFsNode id m).run Keyspace.serve ks = (.ok (), ks.put (metadataFsNode id) (some (.hash fields))) ∧
      Written fields (nextVersion m node) := by
  obtain ⟨res, answer, read⟩ := holds.hgetall
  refine ⟨res.setAll (nextVersion m node).toSlice, ?_, Written.setAll _ _⟩
  simp only [BlobCacheMetadata.setFsNode, writeFsNode, Program.run_bind, Program.run_perform, Keyspace.serve,
    Keyspace.hset, answer, read.incremented, if_neg (toSlice_ne_nil _)]
  rfl

theorem Holds.congr (holds : Holds ks id node) (same : ks' (metadataFsNode id) = ks (metadataFsNode id)) :
    Holds ks' id node := by
  cases node with
  | none => exact same.trans holds
  | some m =>
    obtain ⟨fields, held, written⟩ := holds
    exact ⟨fields, same.trans held, written⟩

theorem Holds.of_put {fields : Fields} {m : BlobFsMetadata} (written : Written fields m) :
    Holds (ks.put (metadataFsNode id) (some (.hash fields))) id (some m) :=
  ⟨fields, Keyspace.put_self .., written⟩

/-- `SetFsNode` changes the key of its node at most. -/
theorem setFsNode_frame (ks : Keyspace) (id : String) (m : BlobFsMetadata) {key : String}
    (other : key ≠ metadataFsNode id) : ((setFsNode id m).run Keyspace.serve ks).2 key = ks key := by
  simp only [setFsNode, Program.run_bind, Program.run_perform, Keyspace.serve]
  cases answer : ks.hgetall (metadataFsNode id) with
  | error e => rfl
  | ok res =>
    simp only [writeFsNode, Program.run_bind, Program.run_perform, Keyspace.serve, Keyspace.hset, answer,
      if_neg (toSlice_ne_nil _)]
    exact Keyspace.put_other _ _ other

/-- `GetFsNode` leaves Redis as it is. -/
theorem getFsNode_redis (ks : Keyspace) (id : String) : ((getFsNode id).run Keyspace.serve ks).2 = ks := by
  simp only [getFsNode, Program.run_bind, Program.run_perform, Keyspace.serve]
  cases ks.hgetall (metadataFsNode id) with
  | error e => rfl
  | ok res =>
    dsimp only
    split <;> rfl

/-- `GetFsNode` looks at the key of its node only. -/
theorem getFsNode_congr (same : ks (metadataFsNode id) = ks' (metadataFsNode id)) :
    ((getFsNode id).run Keyspace.serve ks).1 = ((getFsNode id).run Keyspace.serve ks').1 := by
  have answer : ks.hgetall (metadataFsNode id) = ks'.hgetall (metadataFsNode id) := by
    unfold Keyspace.hgetall
    rw [same]
  simp only [getFsNode, Program.run_bind, Program.run_perform, Keyspace.serve, answer]
  cases ks'.hgetall (metadataFsNode id) <;> rfl

end

/-! ## Round trip -/

/-- One call of `SetFsNode` with the id and the metadata. -/
def setCall (call : String × BlobFsMetadata) (ks : Keyspace) : Keyspace :=
  ((setFsNode call.1 call.2).run Keyspace.serve ks).2

/-- Calls of `SetFsNode` keep the hash of every node that is not there yet in order. -/
theorem holds_of_sets {ks₀ ks : Keyspace} {id : String} (absent : ks₀ (metadataFsNode id) = none)
    (run : Trace setCall (fun _ _ => True) ks₀ ks) : ∃ node, Holds ks id node := by
  refine run.invariant (I := fun ks => ∃ node, Holds ks id node) ?_ ⟨none, absent⟩
  rintro ks ⟨other, m⟩ ⟨node, holds⟩ -
  by_cases same : other = id
  · subst same
    obtain ⟨fields, taken, written⟩ := holds.setFsNode m
    refine ⟨some (nextVersion m node), ?_⟩
    rw [setCall, taken]
    exact .of_put written
  · have kept := setFsNode_frame ks other m (metadataFsNode_injective.ne (Ne.symm same))
    exact ⟨node, holds.congr kept⟩

/-- **A node is read as it was set.** After any calls of `SetFsNode`, another one succeeds and
`GetFsNode` then returns its metadata, with the generation of the node before plus one if
there was one; the other nodes are as they were. -/
theorem node_round_trip {ks₀ ks : Keyspace} (id : String) (absent : ks₀ (metadataFsNode id) = none)
    (run : Trace setCall (fun _ _ => True) ks₀ ks) (m : BlobFsMetadata) :
    let before := ((getFsNode id).run Keyspace.serve ks).1
    let after := (setFsNode id m).run Keyspace.serve ks
    after.1 = .ok () ∧
    ((getFsNode id).run Keyspace.serve after.2).1 =
      .ok (match before with
        | .ok old => { m with gen := old.gen + 1 }
        | .error _ => m) ∧
    (∀ e, before = .error e → ks (metadataFsNode id) = none) ∧
    ∀ other, other ≠ id →
      ((getFsNode other).run Keyspace.serve after.2).1 = ((getFsNode other).run Keyspace.serve ks).1 := by
  obtain ⟨node, holds⟩ := holds_of_sets absent run
  obtain ⟨fields, taken, written⟩ := holds.setFsNode m
  have read : (getFsNode id).run Keyspace.serve _ = _ := (@Holds.of_put ks id _ _ written).getFsNode
  simp only [taken, read, holds.getFsNode]
  refine ⟨trivial, ?_, ?_, ?_⟩
  · cases node <;> rfl
  · intro e missing
    cases node with
    | none => exact holds
    | some old => cases missing
  · intro other different
    exact getFsNode_congr (Keyspace.put_other _ _ (metadataFsNode_injective.ne different))

/-- The largest numbers. -/
def largest : BlobFsMetadata :=
  { path := "/a b", ino := 18446744073709551615, mode := 4294967295, gen := 18446744073709551615 }

theorem node_round_trip_largest :
    ((getFsNode "x").run Keyspace.serve
      ((setFsNode "x" largest).run Keyspace.serve (setCall ("x", largest) .empty)).2).1 =
      .ok { largest with gen := 0 } := by
  have run : Trace setCall (fun _ _ => True) .empty (setCall ("x", largest) .empty) := .tail _ (.refl _) trivial
  have read := (node_round_trip "x" rfl run largest).2.1
  rw [read]
  decide

end BlobCacheMetadata

end Blobcache.Coordinator
