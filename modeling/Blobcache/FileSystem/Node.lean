import Blobcache.Lib.FilePath
import Blobcache.Lib.Hex
import Blobcache.Coordinator.NodeStore

/-!
# The operations of the file system

A node of the mounted file system is a handle: it has the path and the id with which it was
looked up or made, and keeps them whatever becomes of the node. A node is stored under the
hash of its path, and its id is in the set of the children of its directory. The operations
are programs of calls to the coordinator; `StoreContentInBlobFs` is the server's, which
stores the directories on the way to a file and the file.

`StoreContentFromFUSE`, which `Lookup` calls for a path with a percent sign, is a parameter.
-/

namespace Blobcache.FileSystem
set_option autoImplicit false
open Service
open Coordinator (BlobFsMetadata CoordinatorError FsCall Connection)

inductive Errno where
  | enoent
  | eio
  | enotempty
  | enoattr
  deriving DecidableEq

/-- `time.Now()`, and the times of a file. -/
structure Time where
  sec : UInt64
  nsec : UInt32

/-- `fuse.Attr`. -/
structure Attr where
  ino : UInt64 := 0
  size : UInt64 := 0
  blocks : UInt64 := 0
  atime : UInt64 := 0
  mtime : UInt64 := 0
  ctime : UInt64 := 0
  atimensec : UInt32 := 0
  mtimensec : UInt32 := 0
  ctimensec : UInt32 := 0
  mode : UInt32 := 0
  nlink : UInt32 := 0
  uid : UInt32 := 0
  gid : UInt32 := 0
  rdev : UInt32 := 0
  blksize : UInt32 := 0
  padding : UInt32 := 0
  deriving DecidableEq

def metaToAttr (metadata : BlobFsMetadata) : Attr where
  ino := metadata.ino
  size := metadata.size
  blocks := metadata.blocks
  atime := metadata.atime
  mtime := metadata.mtime
  ctime := metadata.ctime
  atimensec := metadata.atimensec
  mtimensec := metadata.mtimensec
  ctimensec := metadata.ctimensec
  mode := metadata.mode
  nlink := metadata.nlink
  uid := metadata.uid
  gid := metadata.gid
  rdev := metadata.rdev
  blksize := metadata.blksize
  padding := metadata.padding

structure BlobFsNode where
  path : String
  id : String
  pid : String := ""
  name : String := ""
  hash : String := ""
  attr : Attr := {}
  deriving DecidableEq

/-- A handle; of its file system only the connection to the coordinator matters. -/
structure FSNode where
  filesystem : Connection
  bfsNode : BlobFsNode
  deriving DecidableEq

/-- `fs.StableAttr`. -/
structure StableAttr where
  mode : UInt32
  ino : UInt64
  gen : UInt64 := 0
  deriving DecidableEq

/-- What `Lookup`, `Create` and `Mkdir` return: the new inode, and `out.Attr`. -/
structure EntryOut where
  node : FSNode
  stable : StableAttr
  attr : Attr
  deriving DecidableEq

/-- `fuse.DirEntry`. -/
structure DirEntry where
  mode : UInt32
  name : String
  ino : UInt64
  deriving DecidableEq

def dirEntry (child : BlobFsMetadata) : DirEntry := ⟨child.mode, child.name, child.ino⟩

/-- `fuse.S_IFDIR`. -/
def sIFDIR : UInt32 := 0x4000

section

variable (sha256 : List UInt8 → List UInt8)

def generateFsID (name : String) : String := Hex.encodeToString (sha256 name.toUTF8.data.toList)

/-- The first 8 bytes of a hash; all hashes have more. -/
def sha1StringToUint64 (hash : String) : Option UInt64 :=
  (Hex.decodeString (hash.toList.take 16)).map fun bytes => bytes.foldl (fun n byte => n * 256 + byte.toUInt64) 0

/-- The path of an entry of the directory. -/
def FSNode.fullPath (n : FSNode) (name : String) : String := FilePath.join [n.bfsNode.path, name]

/-- The path of the source that a name with percent signs stands for. -/
def FSNode.sourcePath (n : FSNode) (name : String) : String :=
  String.ofList ((n.fullPath name).toList.map fun c => if c = '%' then '/' else c)

/-- The id of an entry of the directory. -/
def FSNode.fsId (n : FSNode) (name : String) : String := generateFsID sha256 (n.fullPath name)

/-! ## Mounting -/

def rootNode (filesystem : Connection) (dirMeta : BlobFsMetadata) : FSNode :=
  ⟨filesystem, { path := dirMeta.path, id := dirMeta.id, pid := dirMeta.pid
                 attr := { ino := 1, mode := dirMeta.mode } }⟩

def newFileSystem (filesystem : Connection) : Program FsCall (Except CoordinatorError FSNode) := do
  let rootID := generateFsID sha256 "/"
  match ← .perform (.getFsNode rootID) with
  | .ok dirMeta => return .ok (rootNode filesystem dirMeta)
  | .error _ =>
    let dirMeta : BlobFsMetadata := { pid := "", id := rootID, path := "/", ino := 1, mode := sIFDIR ||| 0o755 }
    match ← .perform (.setFsNode rootID dirMeta) with
    | .error e => return .error e
    | .ok () => return .ok (rootNode filesystem dirMeta)

/-! ## Looking up -/

namespace FSNode

variable (n : FSNode) (name : String)

/-- The inode of a node that is there. -/
def foundEntry (metadata : BlobFsMetadata) : EntryOut where
  node := ⟨n.filesystem, { path := metadata.path, id := metadata.id, pid := metadata.pid, name := metadata.name
                           hash := metadata.hash, attr := metaToAttr metadata }⟩
  stable := ⟨metadata.mode, metadata.ino, metadata.gen⟩
  attr := metaToAttr metadata

def inodeFromFsId (fsId : String) : Program FsCall (Except Errno EntryOut) := do
  match ← .perform (.getFsNode fsId) with
  | .error _ => return .error .enoent
  | .ok metadata => return .ok (n.foundEntry metadata)

/-- A path with a percent sign is a request to store a file. -/
def lookup (storeContentFromFUSE : String → Program FsCall (Except String String)) :
    Program FsCall (Except Errno EntryOut) := do
  let fullPath := n.fullPath name
  if '%' ∈ fullPath.toList then
    let sourcePath := n.sourcePath name
    match ← storeContentFromFUSE sourcePath with
    | .error _ => return .error .enoent
    | .ok _ => n.inodeFromFsId (generateFsID sha256 sourcePath)
  else n.inodeFromFsId (generateFsID sha256 fullPath)

def readdir : Program FsCall (Except Errno (List DirEntry)) := do
  match ← .perform (.getFsNodeChildren (generateFsID sha256 n.bfsNode.path)) with
  | .error _ => return .error .enoattr
  | .ok children => return .ok (children.map dirEntry)

/-! ## Making and removing entries -/

/-- The metadata of a new file or directory. -/
def newMetadata (mode : UInt32) (now : Time) : BlobFsMetadata where
  pid := n.bfsNode.id
  id := n.fsId sha256 name
  name := name
  path := n.fullPath name
  ino := 0
  mode := mode
  atime := now.sec
  mtime := now.sec
  ctime := now.sec
  atimensec := now.nsec
  mtimensec := now.nsec
  ctimensec := now.nsec
  size := 0
  hash := ""

/-- The new inode, with the inode number of its metadata. -/
def newEntry (mode : UInt32) : EntryOut where
  node := ⟨n.filesystem, { path := n.fullPath name, id := n.fsId sha256 name, name := name, attr := { mode } }⟩
  stable := ⟨mode, 0, 0⟩
  attr := { mode, ino := 0 }

/-- The second half of `Create` and `Mkdir`. -/
def linkNew (mode : UInt32) : Program FsCall (Except Errno EntryOut) := do
  match ← .perform (.addFsNodeChild n.bfsNode.id (n.fsId sha256 name)) with
  | .error _ => return .error .eio
  | .ok () => return .ok (n.newEntry sha256 name mode)

/-- `Create` and `Mkdir`, which differ in the mode only. -/
def makeNode (mode : UInt32) (now : Time) : Program FsCall (Except Errno EntryOut) := do
  match ← .perform (.setFsNode (n.fsId sha256 name) (n.newMetadata sha256 name mode now)) with
  | .error _ => return .error .eio
  | .ok () => n.linkNew sha256 name mode

def create (mode : UInt32) (now : Time) : Program FsCall (Except Errno EntryOut) := n.makeNode sha256 name mode now

def mkdir (mode : UInt32) (now : Time) : Program FsCall (Except Errno EntryOut) :=
  n.makeNode sha256 name (sIFDIR ||| mode) now

/-- The last call of `Rmdir` and `Unlink`. -/
def unlinkChild : Program FsCall (Except Errno Unit) := do
  match ← .perform (.removeFsNodeChild n.bfsNode.id (n.fsId sha256 name)) with
  | .error _ => return .error .eio
  | .ok () => return .ok ()

def unlink : Program FsCall (Except Errno Unit) := do
  match ← .perform (.removeFsNode (n.fsId sha256 name)) with
  | .error _ => return .error .eio
  | .ok () => n.unlinkChild sha256 name

/-- `Rmdir` is `Unlink` of a directory without children. -/
def rmdir : Program FsCall (Except Errno Unit) := do
  match ← .perform (.getFsNodeChildren (n.fsId sha256 name)) with
  | .error _ => return .error .eio
  | .ok children => if children = [] then n.unlink sha256 name else return .error .enotempty

/-- The new parent is not looked at. -/
def rename (oldName : String) (_newParent : FSNode) (newName : String) : Program FsCall (Except Errno Unit) := do
  match ← .perform (.getFsNode (n.fsId sha256 oldName)) with
  | .error _ => return .error .enoent
  | .ok metadata =>
    let metadata := { metadata with name := newName, path := n.fullPath newName }
    match ← .perform (.setFsNode (n.fsId sha256 newName) metadata) with
    | .error _ => return .error .eio
    | .ok () =>
      match ← .perform (.removeFsNodeChild n.bfsNode.id (n.fsId sha256 oldName)) with
      | .error _ => return .error .eio
      | .ok () =>
        match ← .perform (.addFsNodeChild n.bfsNode.id (n.fsId sha256 newName)) with
        | .error _ => return .error .eio
        | .ok () => return .ok ()

end FSNode

/-! ## Storing a file -/

/-- `os.FileInfo`, as far as it is used. -/
structure FileInfo where
  mode : UInt32
  accessTime : Time
  modTime : Time
  isDir : Bool

inductive StoreError where
  | stat (text : String)
  | inode
  | coordinator (e : CoordinatorError)

/-- A file to be stored: its clean path, hash and size, what `os.Stat` says of it, and the
time in each round. -/
structure StoredFile where
  path : String
  hash : String
  size : UInt64
  stat : Except String FileInfo
  now : Nat → Time

/-- The metadata of a directory on the way. -/
def directoryMetadata (previousParentId part currentPath : String) (inode : UInt64) (now : Time) : BlobFsMetadata where
  pid := previousParentId
  id := generateFsID sha256 currentPath
  name := part
  path := currentPath
  ino := inode
  mode := sIFDIR ||| 0o755
  atime := now.sec
  mtime := now.sec
  ctime := now.sec
  atimensec := now.nsec
  mtimensec := now.nsec
  ctimensec := now.nsec

/-- What `os.Stat` says of the file goes into its metadata. -/
def fileMetadata (file : StoredFile) (info : FileInfo) (metadata : BlobFsMetadata) : BlobFsMetadata :=
  { metadata with
    mode := info.mode
    atime := info.accessTime.sec
    atimensec := info.accessTime.nsec
    mtime := info.modTime.sec
    mtimensec := info.modTime.nsec
    ctime := info.modTime.sec
    ctimensec := info.modTime.nsec
    hash := if info.isDir then generateFsID sha256 metadata.path else file.hash
    size := if info.isDir then 0 else file.size }

/-- The metadata of the node at the current path. -/
def partMetadata (file : StoredFile) (round : Nat) (part currentPath previousParentId : String) :
    Except StoreError BlobFsMetadata :=
  match sha1StringToUint64 (generateFsID sha256 currentPath) with
  | none => .error .inode
  | some inode =>
    let metadata := directoryMetadata sha256 previousParentId part currentPath inode (file.now round)
    if currentPath = file.path then
      match file.stat with
      | .error text => .error (.stat text)
      | .ok info => .ok (fileMetadata sha256 file info metadata)
    else .ok metadata

/-- The loop of `StoreContentInBlobFs`. -/
def storeParts (file : StoredFile) : List String → Nat → (currentPath previousParentId : String) →
    Program FsCall (Except StoreError Unit)
  | [], _, _, _ => return .ok ()
  | part :: parts, round, before, previousParentId => do
    let currentPath := if before = "/" then FilePath.join ["/", part] else FilePath.join [before, part]
    match partMetadata sha256 file round part currentPath previousParentId with
    | .error e => return .error e
    | .ok metadata =>
      match ← .perform (.setFsNode (generateFsID sha256 currentPath) metadata) with
      | .error e => return .error (.coordinator e)
      | .ok () =>
        match ← .perform (.addFsNodeChild previousParentId (generateFsID sha256 currentPath)) with
        | .error e => return .error (.coordinator e)
        | .ok () => storeParts file parts (round + 1) currentPath (generateFsID sha256 currentPath)

/-- The empty part before the root is skipped. -/
def storeContentInBlobFs (file : StoredFile) : Program FsCall (Except StoreError Unit) :=
  let path := FilePath.join ["/", FilePath.clean file.path]
  let parts := FilePath.split path
  storeParts sha256 { file with path } (if parts.head? = some "" then parts.tail else parts) 0 "/"
    (generateFsID sha256 "/")

end

end Blobcache.FileSystem
