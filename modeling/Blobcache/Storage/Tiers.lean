import Blobcache.Storage.State

/-!
# Invariants of the two tiers

Every statement about what the storage holds has one shape: each chunk in memory, and
each chunk file, stands under the key of its object and index and satisfies a predicate
of object, index and bytes. `Tiers` carries one predicate for the memory and one for the
disk, because a chunk file can be observed while it is being written. Its rules say which
state changes keep it; the steps of `Add` and `Get` are built from these changes.
-/

namespace Blobcache.Storage
set_option autoImplicit false
open AdmissionCache

/-- A property of chunk `i` of an object. -/
abbrev ChunkPred := String → Nat → Bytes → Prop

/-- A memory entry belongs under its key. -/
def ValueOk (p : ChunkPred) (key : String) : Value → Prop
  | .chunk hash content => NoSeparators hash ∧ ∃ i : Nat, key = chunkKey hash i ∧ p hash i content
  | .index _ => NoSeparators key

structure Tiers (inMemory onDisk : ChunkPred) (s : Cas) : Prop where
  memory : s.cache.All (ValueOk inMemory)
  disk : ∀ hash key content, s.files hash key = some content →
    NoSeparators hash ∧ ∃ i : Nat, key = chunkKey hash i ∧ onDisk hash i content

namespace Tiers

variable {inMemory onDisk : ChunkPred} {s : Cas}

theorem fresh : Tiers inMemory onDisk Cas.fresh :=
  ⟨Cache.All.empty, fun _ _ _ held => by simp [Cas.fresh] at held⟩

/-- A chunk key shows a chunk of its own object and index, never a key list. -/
theorem seen (h : Tiers inMemory onDisk s) {hash : String} {j : Int} {v : Value}
    (found : s.cache.get (chunkKey hash j) = some v) :
    ∃ content, ∃ i : Nat, v = .chunk hash content ∧ j = i ∧ inMemory hash i content := by
  have ok := h.memory.get found
  cases v with
  | chunk hash' content =>
    obtain ⟨plain, i, key, good⟩ := ok
    obtain ⟨same, index⟩ := chunkKey_inj plain key.symm
    subst same
    exact ⟨content, i, rfl, index.symm, good⟩
  | index chunkKeys => exact absurd ok (chunkKey_not_plain hash j)

/-- A chunk file holds a chunk of its own object and index. -/
theorem file (h : Tiers inMemory onDisk s) {hash : String} {j : Int} {content : Bytes}
    (found : s.files hash (chunkKey hash j) = some content) :
    NoSeparators hash ∧ ∃ i : Nat, j = i ∧ onDisk hash i content := by
  obtain ⟨plain, i, key, good⟩ := h.disk hash _ content found
  exact ⟨plain, i, (chunkKey_inj plain key.symm).2.symm, good⟩

theorem imp {inMemory' onDisk' : ChunkPred} (h : Tiers inMemory onDisk s)
    (memory : ∀ hash i content, inMemory hash i content → inMemory' hash i content)
    (disk : ∀ hash i content, onDisk hash i content → onDisk' hash i content) : Tiers inMemory' onDisk' s := by
  constructor
  · intro key e held
    have ok := h.memory key e held
    cases value : e.value with
    | index keys =>
      rw [value] at ok
      exact ok
    | chunk hash content =>
      rw [value] at ok
      obtain ⟨plain, i, same, good⟩ := ok
      exact ⟨plain, i, same, memory hash i content good⟩
  · intro hash key content held
    obtain ⟨plain, i, same, good⟩ := h.disk hash key content held
    exact ⟨plain, i, same, disk hash i content good⟩

theorem env (h : Tiers inMemory onDisk s) (e : EnvStep) : Tiers inMemory onDisk (s.env e) := by
  refine ⟨h.memory.sub (s.env_cache_sub e), ?_⟩
  rw [(s.env_disk e).2]
  exact h.disk

theorem envs (h : Tiers inMemory onDisk s) (steps : List EnvStep) : Tiers inMemory onDisk (s.envs steps) := by
  induction steps generalizing s with
  | nil => exact h
  | cons e steps ih => exact ih (h.env e)

theorem put_chunk (h : Tiers inMemory onDisk s) {hash : String} {i : Nat} {content : Bytes}
    (plain : NoSeparators hash) (good : inMemory hash i content) (refused : Bool) :
    Tiers inMemory onDisk
      { s with cache := (s.cache.put refused false (chunkKey hash i) (.chunk hash content)).1 } :=
  ⟨h.memory.put refused false ⟨plain, i, rfl, good⟩, h.disk⟩

theorem put_index (h : Tiers inMemory onDisk s) {hash : String} (plain : NoSeparators hash)
    (refused : Bool) (chunks : String) :
    Tiers inMemory onDisk { s with cache := (s.cache.put refused true hash (.index chunks)).1 } :=
  ⟨h.memory.put refused true plain, h.disk⟩

theorem set_file (h : Tiers inMemory onDisk s) {hash : String} {i : Nat} {content : Bytes}
    (plain : NoSeparators hash) (good : onDisk hash i content) :
    Tiers inMemory onDisk (s.setFile hash (chunkKey hash i) content) := by
  refine ⟨h.memory, ?_⟩
  intro hash' key' content' held
  by_cases same : (hash', key') = (hash, chunkKey hash i)
  · cases same
    rw [Cas.setFile_self] at held
    cases held
    exact ⟨plain, i, rfl, good⟩
  · rw [Cas.setFile_other s content same] at held
    exact h.disk hash' key' content' held

theorem make_dir (h : Tiers inMemory onDisk s) (hash : String) : Tiers inMemory onDisk (s.mkdirAll hash) :=
  ⟨h.memory, h.disk⟩

end Tiers

end Blobcache.Storage
