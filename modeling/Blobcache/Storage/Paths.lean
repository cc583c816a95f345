import Blobcache.Lib.FilePath
import Blobcache.Storage.Get

/-!
# Where the storage looks on disk

The directory of an object is `filepath.Join(diskCacheDir, hash)`, and the file of a chunk
`filepath.Join(diskCacheDir, hash, chunkKey)`, with the hash once more in the chunk key. A
request brings its hash as it likes, and nothing checks it: `Exists` and `getFromDiskCache`
follow it wherever `Join` leads. They stay below the directory, whatever the directory,
exactly if the hash, read as a path, does not climb above its start and leads somewhere; the
index at the end of a chunk key always makes a name of its last component.
-/

namespace Blobcache.Storage
set_option autoImplicit false
open FilePath

/-! ## The paths of an access -/

/-- What `Exists` stats: nothing if the object is known in memory. -/
def existsPaths (diskCacheDir : String) (s : Cas) (hash : String) : List String :=
  if (s.cache.get hash).isSome then [] else [join [diskCacheDir, hash]]

/-- What `getFromDiskCache` opens and reads, if it has to. -/
def diskCachePaths (diskCacheDir : String) (s : Cas) (hash chunkKey : String) : List String :=
  if (s.cache.get chunkKey).isSome then [] else [join [diskCacheDir, hash, chunkKey]]

/-- The same for a step of `Get`. -/
def getStepPaths (cfg : Config) (diskCacheDir : String) (s : Cas) (f : GetFrame) : List String :=
  if f.pc = .disk then diskCachePaths diskCacheDir s f.hash (f.key cfg) else []

/-- The frames a call comes to, whatever the storage is at each of its steps. -/
inductive Visits (cfg : Config) (call : GetCall) : GetFrame → Prop where
  | start : Visits cfg call (GetFrame.start call.hash call.offset call.length call.dst)
  | step {f f' : GetFrame} (s : Cas) (setRefused : Bool) (before : Visits cfg call f)
      (next : (getStep cfg setRefused s f).2 = .inl f') : Visits cfg call f'

theorem getStep_hash {cfg : Config} {setRefused : Bool} {s : Cas} {f f' : GetFrame}
    (next : (getStep cfg setRefused s f).2 = .inl f') : f'.hash = f.hash := by
  rcases getStep_goes_on next with ⟨-, -, rfl⟩ | ⟨v, -, consumed⟩
  · rfl
  · exact (consume_next consumed).2.1

theorem Visits.hash {cfg : Config} {call : GetCall} {f : GetFrame} (visits : Visits cfg call f) : f.hash = call.hash := by
  induction visits with
  | start => rfl
  | step s setRefused _ next ih => exact (getStep_hash next).trans ih

/-! ## Chunk keys as paths -/

theorem int_no_separator (i : Int) : '/' ∉ (toString i).toList := by
  intro separator
  cases i with
  | ofNat n => exact absurd (natRepr_isDigit separator) (by decide)
  | negSucc n =>
    have chars : (toString (Int.negSucc n)).toList = '-' :: (Nat.repr (n + 1)).toList := by
      exact String.toList_append
    rw [chars] at separator
    rcases List.mem_cons.mp separator with dash | digits
    · cases dash
    · exact absurd (natRepr_isDigit digits) (by decide)

theorem suffix_no_separator (i : Int) : '/' ∉ ("-" ++ toString i).toList := by
  rw [String.toList_append]
  intro separator
  rcases List.mem_append.mp separator with dash | number
  · exact absurd dash (by decide)
  · exact int_no_separator i number

/-- With the index the last component is a name, whatever it was. -/
theorem suffix_proper (i : Int) (last : Component) (clean : '/' ∉ last) : Proper (last ++ ("-" ++ toString i).toList) := by
  have dash : '-' ∈ last ++ ("-" ++ toString i).toList := by
    rw [String.toList_append]
    exact List.mem_append_right _ (List.mem_append_left _ List.mem_cons_self)
  refine ⟨?_, ?_, ?_, fun separator => ?_⟩
  · exact List.ne_nil_of_mem dash
  · intro same
    rw [same] at dash
    exact absurd dash (by decide)
  · intro same
    rw [same] at dash
    exact absurd dash (by decide)
  · rcases List.mem_append.mp separator with inLast | inSuffix
    · exact clean inLast
    · exact suffix_no_separator i inSuffix

theorem walk_single {hash : String} {kept : List Component} (walk : descend hash = some kept) :
    ([hash].flatMap parts).foldlM descendStep [] = some kept := by
  rw [List.flatMap_cons, List.flatMap_nil, List.append_nil]
  exact walk

/-- The file of a chunk is inside the directory of the object. -/
theorem chunk_inside {dir hash : String} (named : dir ≠ "") {kept : List Component} (walk : descend hash = some kept)
    (somewhere : kept ≠ []) (i : Int) : Inside dir hash (join [dir, hash, chunkKey hash i]) := by
  obtain ⟨more, further, twice⟩ := walk_twice walk (suffix_no_separator i) (suffix_proper i)
  obtain ⟨proper, same⟩ := join_of_walk named twice
  rw [List.reverse_append] at proper same
  refine ⟨kept.reverse, more.reverse, fun none => somewhere (List.reverse_eq_nil_iff.mp none),
    fun none => further (List.reverse_eq_nil_iff.mp none), proper, (join_of_walk named (walk_single walk)).2, ?_⟩
  rw [chunkKey, String.append_assoc]
  exact same

/-- **When every access stays inside the cache directory**: over any directory and in any state of the
storage, what a call of `Exists` stats is below the directory, and what any step of a call of `Get`
opens is inside the directory of the object, which is below it, exactly if the hash does not climb
above its start and leads somewhere. -/
theorem accesses_inside_iff (hash : String) :
    (∀ diskCacheDir, diskCacheDir ≠ "" → ∀ cfg s,
      (∀ path ∈ existsPaths diskCacheDir s hash, Below diskCacheDir path) ∧
      ∀ call f, call.hash = hash → Visits cfg call f →
        ∀ path ∈ getStepPaths cfg diskCacheDir s f, Inside diskCacheDir hash path) ↔
    ∃ kept, descend hash = some kept ∧ kept ≠ [] := by
  constructor
  · intro inside
    by_contra none
    have stays : ∀ kept, descend hash = some kept → kept = [] :=
      fun kept walk => by_contra fun somewhere => none ⟨kept, walk, somewhere⟩
    obtain ⟨dir, named, outside⟩ := exists_not_below stays
    exact outside ((inside dir named oneBytePages Cas.fresh).1 _ List.mem_cons_self)
  · rintro ⟨kept, walk, somewhere⟩ dir named cfg s
    constructor
    · intro path member
      unfold existsPaths at member
      split at member
      · cases member
      · rw [List.mem_singleton.mp member]
        exact below_of_walk named (walk_single walk) somewhere
    · rintro call f rfl visits path member
      unfold getStepPaths diskCachePaths at member
      split at member
      · split at member
        · cases member
        · rw [List.mem_singleton.mp member, GetFrame.key, visits.hash]
          exact chunk_inside named walk somewhere _
      · cases member

/-- The first byte of a file beside the cache directory. -/
def readSecret : GetCall := ⟨"../secret", 0, 1, [0], Int64Arith.inRange_zero, Int64Arith.inRange_one⟩

/-- `HasContent("..")` stats the directory above the cache, and a read under `../secret` opens a file there. -/
theorem accesses_outside :
    existsPaths "/cache" Cas.fresh ".." = ["/"] ∧ ¬ Below "/cache" "/" ∧
      Visits oneBytePages readSecret ⟨"../secret", 0, 1, 0, [0], .disk⟩ ∧
      getStepPaths oneBytePages "/cache" Cas.fresh ⟨"../secret", 0, 1, 0, [0], .disk⟩ = ["/secret-0"] ∧
      ¬ Below "/cache" "/secret-0" := by
  have proper : ∀ c ∈ ["cache".toList], Proper c := by
    intro c member
    rw [List.mem_singleton.mp member]
    exact ⟨by decide, by decide, by decide, by decide⟩
  have elsewhere {p : List Component} (clean : ∀ c ∈ p, Proper c) (other : p.head? ≠ some "cache".toList) :
      ¬ Below "/cache" (rooted p) := by
    intro below
    obtain ⟨names, -, names_proper, same⟩ := (below_rooted_iff proper).mp below
    have all : ∀ c ∈ ["cache".toList] ++ names, Proper c := fun c member =>
      (List.mem_append.mp member).elim (proper c) (names_proper c)
    rw [rooted_injective clean all same] at other
    exact other rfl
  refine ⟨by decide, elsewhere (p := []) (fun c none => by cases none) (by decide), ?_, by decide,
    elsewhere (p := ["secret-0".toList]) (fun c member => ?_) (by decide)⟩
  · exact .step Cas.fresh false .start rfl
  · rw [List.mem_singleton.mp member]
    exact ⟨by decide, by decide, by decide, by decide⟩

end Blobcache.Storage
