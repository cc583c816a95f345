import Mathlib
import Blobcache.Lib.AdmissionCache
import Blobcache.Lib.Execution
import Blobcache.Lib.FilePath
import Blobcache.Lib.Int64
import Blobcache.Lib.Paging

/-!
# The two tiers of `ContentAddressableStorage`

`storage.go`. An object is a byte string under its hash. It is cut into chunks of
`PageSizeBytes`; chunk `i` is kept in the memory cache under the key `<hash>-<i>` and in
the file `<diskCacheDir>/<hash>/<hash>-<i>`, and the memory cache also maps the hash
itself to the comma-joined list of its chunk keys. The memory cache is an
`AdmissionCache`; the disk is a set of object directories and their files, by directory
and file name. `diskCachedUsageExceeded` is the flag of the usage monitor.

The server stores every object under `hex(sha256(c))`, which names a directory below
`diskCacheDir` (`PlainHash`); that requests may bring any other string is in `Storage.Paths`.

The metrics, the logger and the prefetcher's pattern detector, which neither tier reads,
are left out.
-/

namespace Blobcache.Storage
set_option autoImplicit false
open AdmissionCache

abbrev Bytes := List UInt8

/-- The server configuration the storage reads. `NewContentAddressableStorage` refuses a
`PageSizeBytes` that is not positive, and the field is an `int64`. -/
structure Config where
  pageSizeBytes : Nat
  positive : 0 < pageSizeBytes
  fits : pageSizeBytes < 2 ^ 63

/-- Pages of one byte and of two, for small examples. -/
def oneBytePages : Config := ⟨1, by decide, by decide⟩

def twoBytePages : Config := ⟨2, by decide, by decide⟩

/-- What the memory cache holds: a `cacheValue`, or the chunk keys of an object. -/
inductive Value where
  | chunk (hash : String) (content : Bytes)
  | index (chunkKeys : String)
  deriving DecidableEq, Repr

structure Cas where
  cache : Cache String Value
  /-- The object directories under `diskCacheDir`. -/
  dirs : String → Bool
  /-- The files of an object's directory. -/
  files : String → String → Option Bytes
  diskCachedUsageExceeded : Bool

/-- A server that has stored nothing yet. -/
def Cas.fresh : Cas := ⟨Cache.empty, fun _ => false, fun _ _ => none, false⟩

/-- `fmt.Sprintf("%s-%d", hash, chunkIdx)`. -/
def chunkKey (hash : String) (chunkIdx : Int) : String := hash ++ "-" ++ toString chunkIdx

/-- `strings.Join(chunkKeys, ",")`. -/
def joinKeys (chunkKeys : List String) : String :=
  String.ofList ([','].intercalate (chunkKeys.map String.toList))

/-- `strings.Split(chunks, ",")`. -/
def splitKeys (chunks : String) : List String :=
  (chunks.toList.splitOn ',').map String.ofList

namespace Cas

/-- `onEvict`, after the cache has removed the item: the other chunks of its object go
too, as far as the object's list of chunk keys is known. -/
def onEvict (s : Cas) (item : Value) : Cas :=
  match item with
  | .chunk hash _ =>
    match s.cache.get hash with
    | some (.index chunks) => { s with cache := s.cache.eraseAll (splitKeys chunks) }
    -- only `Add` writes an object's own key, and it writes the list of chunk keys
    | some (.chunk _ _) => s
    | none => s
  | .index chunks => { s with cache := s.cache.eraseAll (splitKeys chunks) }

/-- `os.Stat(filepath.Join(cas.diskCacheDir, hash))` finds a directory: that of an object, or the cache
directory itself or one above it, which `NewCacheService` has created. What else there is outside the
cache directory is not modelled. -/
def isDir (s : Cas) (hash : String) : Bool :=
  let path := FilePath.components false hash.toList
  path.all (· = ['.', '.']) || s.dirs (String.ofList (['/'].intercalate path))

/-- `Exists`: the object's key in memory, or its directory on disk. -/
def existsObject (s : Cas) (hash : String) : Bool :=
  (s.cache.get hash).isSome || s.isDir hash

/-- `os.MkdirAll` of the object's directory. -/
def mkdirAll (s : Cas) (hash : String) : Cas := { s with dirs := Function.update s.dirs hash true }

def setFile (s : Cas) (hash key : String) (content : Bytes) : Cas :=
  { s with files := Function.update s.files hash (Function.update (s.files hash) key (some content)) }

end Cas

/-- What happens around the calls: the memory cache's policy, and the usage monitor. -/
inductive EnvStep where
  | accept (key : String)
  | reject (key : String)
  | evict (key : String)
  | expire (key : String)
  | setUsageExceeded (exceeded : Bool)
  deriving DecidableEq, Repr

namespace Cas

def env (s : Cas) : EnvStep → Cas
  | .accept key => { s with cache := s.cache.accept key }
  | .reject key => { s with cache := s.cache.reject key }
  | .evict key =>
    match s.cache.victim key with
    | some item => { s with cache := s.cache.erase key }.onEvict item
    | none => s
  | .expire key => { s with cache := s.cache.expire key }
  | .setUsageExceeded exceeded => { s with diskCachedUsageExceeded := exceeded }

def envs (s : Cas) (steps : List EnvStep) : Cas := steps.foldl env s

theorem onEvict_cache_sub (s : Cas) (item : Value) : Cache.Sub (s.onEvict item).cache s.cache := by
  unfold onEvict
  split
  · split
    · exact Cache.eraseAll_sub _ _
    · exact Cache.Sub.refl _
    · exact Cache.Sub.refl _
  · exact Cache.eraseAll_sub _ _

theorem onEvict_disk (s : Cas) (item : Value) :
    (s.onEvict item).dirs = s.dirs ∧ (s.onEvict item).files = s.files ∧
      (s.onEvict item).diskCachedUsageExceeded = s.diskCachedUsageExceeded := by
  unfold onEvict
  split
  · split <;> exact ⟨rfl, rfl, rfl⟩
  · exact ⟨rfl, rfl, rfl⟩

/-- Left to itself the memory cache only loses or reveals entries. -/
theorem env_cache_sub (s : Cas) (e : EnvStep) : Cache.Sub (s.env e).cache s.cache := by
  cases e with
  | accept key => exact Cache.accept_sub _ _
  | reject key => exact Cache.reject_sub _ _
  | evict key =>
    simp only [env]
    split
    · exact (onEvict_cache_sub _ _).trans (Cache.erase_sub _ _)
    · exact Cache.Sub.refl _
  | expire key => exact Cache.expire_sub _ _
  | setUsageExceeded exceeded => exact Cache.Sub.refl _

theorem env_disk (s : Cas) (e : EnvStep) : (s.env e).dirs = s.dirs ∧ (s.env e).files = s.files := by
  cases e with
  | evict key =>
    simp only [env]
    split
    · exact ⟨(onEvict_disk _ _).1, (onEvict_disk _ _).2.1⟩
    · exact ⟨rfl, rfl⟩
  | _ => exact ⟨rfl, rfl⟩

/-- No step around the calls touches the disk. -/
theorem envs_disk (s : Cas) (steps : List EnvStep) :
    (s.envs steps).dirs = s.dirs ∧ (s.envs steps).files = s.files := by
  induction steps generalizing s with
  | nil => exact ⟨rfl, rfl⟩
  | cons e steps ih =>
    obtain ⟨dirs, files⟩ := ih (s.env e)
    exact ⟨dirs.trans (s.env_disk e).1, files.trans (s.env_disk e).2⟩

theorem envs_cache_sub (s : Cas) (steps : List EnvStep) : Cache.Sub (s.envs steps).cache s.cache := by
  induction steps generalizing s with
  | nil => exact Cache.Sub.refl _
  | cons e steps ih => exact (ih (s.env e)).trans (s.env_cache_sub e)

/-- Only the usage monitor changes the usage flag. -/
theorem envs_flag {s : Cas} {steps : List EnvStep} {flag : Bool} (now : s.diskCachedUsageExceeded = flag)
    (kept : ∀ e ∈ steps, e ≠ .setUsageExceeded !flag) : (s.envs steps).diskCachedUsageExceeded = flag := by
  induction steps generalizing s with
  | nil => exact now
  | cons e steps ih =>
    apply ih
    · cases e with
      | evict key =>
        simp only [env]
        split
        · rw [(onEvict_disk _ _).2.2]; exact now
        · exact now
      | setUsageExceeded exceeded =>
        have same := kept (.setUsageExceeded exceeded) (by simp)
        cases exceeded <;> cases flag <;> simp_all [env]
      | _ => exact now
    · exact fun e' member => kept e' (by simp [member])

@[simp] theorem setFile_self (s : Cas) (hash key : String) (content : Bytes) :
    (s.setFile hash key content).files hash key = some content := by
  simp [setFile]

theorem setFile_other (s : Cas) {hash key hash' key' : String} (content : Bytes)
    (other : (hash', key') ≠ (hash, key)) :
    (s.setFile hash key content).files hash' key' = s.files hash' key' := by
  by_cases sameHash : hash' = hash
  · subst sameHash
    have : key' ≠ key := fun e => other (by rw [e])
    simp [setFile, Function.update_of_ne this]
  · simp [setFile, Function.update_of_ne sameHash]

end Cas

/-! ## Keys -/

/-- The hash has neither of the separators of chunk keys and of key lists. -/
def NoSeparators (hash : String) : Prop := '-' ∉ hash.toList ∧ ',' ∉ hash.toList

instance (hash : String) : Decidable (NoSeparators hash) := inferInstanceAs (Decidable (_ ∧ _))

/-- A hash such as the server computes, `hex(sha256(c))`: it has no separators, and names a directory
below `diskCacheDir`, so it is neither empty nor a path of its own. -/
structure PlainHash (hash : String) : Prop where
  separators : NoSeparators hash
  name : FilePath.Proper hash.toList

instance (hash : String) : Decidable (PlainHash hash) :=
  decidable_of_iff (NoSeparators hash ∧ FilePath.Proper hash.toList)
    ⟨fun h => ⟨h.1, h.2⟩, fun h => ⟨h.separators, h.name⟩⟩

/-- `Exists` looks for the directory of the object. -/
theorem PlainHash.isDir {hash : String} (plain : PlainHash hash) (s : Cas) : s.isDir hash = s.dirs hash := by
  have path : FilePath.components false hash.toList = [hash.toList] := by
    have alone : hash.toList.splitOn '/' = [hash.toList] := List.splitOn_eq_singleton plain.name.no_separator
    rw [FilePath.components, alone]
    simp [FilePath.cleanStep, plain.name.nonempty, plain.name.not_here, plain.name.not_parent]
  rw [Cas.isDir, path]
  simp [plain.name.not_parent, String.ofList_toList]

theorem natRepr_isDigit {i : Nat} {c : Char} (member : c ∈ (Nat.repr i).toList) : c.isDigit = true :=
  Nat.isDigit_of_mem_toDigits (b := 10) (by decide) (by decide) (by simpa [Nat.repr] using member)

theorem natRepr_no_dash (i : Nat) : '-' ∉ (Nat.repr i).toList := by
  intro dash
  exact absurd (natRepr_isDigit dash) (by decide)

/-- A chunk key determines its object and its index. -/
theorem chunkKey_inj {hash hash' : String} {i : Nat} {j : Int} (plain : NoSeparators hash)
    (same : chunkKey hash i = chunkKey hash' j) : hash = hash' ∧ (i : Int) = j := by
  have chars := String.toList_inj.mpr same
  have dash : "-".toList = ['-'] := rfl
  simp only [chunkKey, String.toList_append, dash, List.append_assoc, List.singleton_append] at chars
  have noDash : '-' ∉ (toString (i : Int)).toList := natRepr_no_dash i
  obtain ⟨front, -, back⟩ := (List.append_cons_inj_of_notMem plain.1 noDash).mp chars
  exact ⟨String.toList_inj.mp front, Int.repr_injective (String.toList_inj.mp back)⟩

/-- The chunk keys of one object are distinct, whatever its hash. -/
theorem chunkKey_injective (hash : String) {i j : Int} (same : chunkKey hash i = chunkKey hash j) : i = j := by
  have chars := String.toList_inj.mpr same
  simp only [chunkKey, String.toList_append] at chars
  exact Int.repr_injective (String.toList_inj.mp (List.append_cancel_left chars))

/-- A chunk key is never an object's own key. -/
theorem chunkKey_not_plain (hash : String) (i : Int) : ¬ NoSeparators (chunkKey hash i) := by
  intro plain
  apply plain.1
  simp [chunkKey, String.toList_append]

end Blobcache.Storage
