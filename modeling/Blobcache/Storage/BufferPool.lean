import Blobcache.Lib.Execution
import Mathlib.Algebra.Order.Ring.Int
import Mathlib.Logic.Function.Basic

/-!
# The buffer pool

`buffer_pool.go`. Byte slices are kept for reuse in three buckets by their capacity. A buffer is
taken from the smallest bucket that is large enough and cut to the size that is asked for; a
buffer that is put back goes into the bucket of its capacity, if there is one, whoever made it.
The bytes of a slice do not matter here: a slice is its length and its capacity.

A `sync.Pool` hands out any of the buffers it keeps, or makes a new one, and forgets buffers when
it likes. There is no bucket above the largest one, and none is looked for: a larger buffer is cut
from a buffer of 16 MiB as well.
-/

namespace Blobcache.Storage
set_option autoImplicit false
open Execution

def bufferSize1MB : Int := 1 * 1024 * 1024

def bufferSize4MB : Int := 4 * 1024 * 1024

def bufferSize16MB : Int := 16 * 1024 * 1024

/-- A slice that is not `nil`. -/
structure Slice where
  length : Int
  capacity : Int
  nonneg : 0 ≤ length
  within : length ≤ capacity
  deriving DecidableEq

/-- The slice of all that was allocated. -/
def Slice.whole (size : Int) (nonneg : 0 ≤ size) : Slice := ⟨size, size, nonneg, Int.le_refl size⟩

/-- `make([]byte, size)`, and `buf[:size]`; `none` is a panic. -/
def makeSlice (size : Int) : Option Slice := if nonneg : 0 ≤ size then some (.whole size nonneg) else none

def Slice.cut (buf : Slice) (size : Int) : Option Slice :=
  if inRange : 0 ≤ size ∧ size ≤ buf.capacity then some ⟨size, buf.capacity, inRange.1, inRange.2⟩ else none

/-- For each bucket the buffers that its `sync.Pool` keeps. -/
structure BufferPool where
  pools : Int → Option (List Slice)

namespace BufferPool

def sizes : List Int := [bufferSize1MB, bufferSize4MB, bufferSize16MB]

/-- `NewBufferPool`. -/
def new : BufferPool := ⟨fun size => if size ∈ sizes then some [] else none⟩

def selectPoolSize (size : Int) : Int :=
  if size ≤ bufferSize1MB then bufferSize1MB
  else if size ≤ bufferSize4MB then bufferSize4MB
  else bufferSize16MB

def setPool (bp : BufferPool) (size : Int) (buffers : List Slice) : BufferPool :=
  ⟨Function.update bp.pools size (some buffers)⟩

/-- The buffer at a place of the pool, if there is one. -/
def taken (buffers : List Slice) (choice : Option Nat) : Option Slice := choice.bind fun k => buffers[k]?

/-- `Get`. The choice is that of `sync.Pool`: a buffer that it keeps, or a new one. The buffer is out of
the pool also if cutting it panics. -/
def get (bp : BufferPool) (size : Int) (choice : Option Nat) : BufferPool × Option Slice :=
  let poolSize := selectPoolSize size
  match bp.pools poolSize with
  | some buffers =>
    match taken buffers choice with
    | some buf => (bp.setPool poolSize (buffers.eraseIdx (choice.getD 0)), buf.cut size)
    | none => (bp, (makeSlice poolSize).bind fun buf => buf.cut size)
  | none => (bp, makeSlice size)

/-- `Put`; `none` is `nil`. -/
def put (bp : BufferPool) (buf : Option Slice) : BufferPool :=
  match buf with
  | none => bp
  | some buf =>
    match bp.pools buf.capacity with
    | some buffers => bp.setPool buf.capacity (buffers ++ [.whole buf.capacity (Int.le_trans buf.nonneg buf.within)])
    | none => bp

/-- A bucket forgets a buffer. -/
def forget (bp : BufferPool) (size : Int) (k : Nat) : BufferPool :=
  match bp.pools size with
  | some buffers => bp.setPool size (buffers.eraseIdx k)
  | none => bp

inductive Act where
  | get (size : Int) (choice : Option Nat)
  | put (buf : Option Slice)
  | forget (size : Int) (k : Nat)

def step (a : Act) (bp : BufferPool) : BufferPool :=
  match a with
  | .get size choice => (bp.get size choice).1
  | .put buf => bp.put buf
  | .forget size k => bp.forget size k

/-- The actions of every run. -/
def Called (_ : BufferPool) : Act → Prop
  | .get size _ => 0 ≤ size
  | _ => True

/-! ## The buckets -/

/-- There are the three buckets, and the buffers in a bucket are of its size. -/
structure Sorted (bp : BufferPool) : Prop where
  buckets : ∀ size, (bp.pools size).isSome ↔ size ∈ sizes
  exact : ∀ size buffers, bp.pools size = some buffers → ∀ buf ∈ buffers, buf.length = size ∧ buf.capacity = size

theorem Sorted.new : Sorted BufferPool.new where
  buckets size := by
    unfold BufferPool.new
    dsimp only
    split <;> simp [*]
  exact size buffers found buf member := by
    unfold BufferPool.new at found
    dsimp only at found
    split at found
    · cases found
      cases member
    · cases found

/-- A bucket is replaced by one with buffers of its size. -/
theorem Sorted.setPool {bp : BufferPool} (h : Sorted bp) {size : Int} {buffers : List Slice}
    (bucket : (bp.pools size).isSome) (exact : ∀ buf ∈ buffers, buf.length = size ∧ buf.capacity = size) :
    Sorted (bp.setPool size buffers) := by
  constructor
  · intro size'
    by_cases same : size' = size
    · subst same
      simpa [BufferPool.setPool] using (h.buckets size').mp bucket
    · simpa [BufferPool.setPool, Function.update_of_ne same] using h.buckets size'
  · intro size' buffers' found
    by_cases same : size' = size
    · subst same
      simp only [BufferPool.setPool, Function.update_self, Option.some.injEq] at found
      subst found
      exact exact
    · simp only [BufferPool.setPool, Function.update_of_ne same] at found
      exact h.exact size' buffers' found

/-- Buffers can be taken out of a bucket. -/
theorem Sorted.eraseIdx {bp : BufferPool} (h : Sorted bp) {size : Int} {buffers : List Slice}
    (found : bp.pools size = some buffers) (k : Nat) : Sorted (bp.setPool size (buffers.eraseIdx k)) :=
  h.setPool (by rw [found]; rfl) fun buf member => h.exact size buffers found buf (List.mem_of_mem_eraseIdx member)

theorem Sorted.get {bp : BufferPool} (h : Sorted bp) (size : Int) (choice : Option Nat) :
    Sorted (bp.get size choice).1 := by
  unfold BufferPool.get
  dsimp only
  split
  · rename_i buffers found
    split
    · exact h.eraseIdx found _
    · exact h
  · exact h

theorem Sorted.put {bp : BufferPool} (h : Sorted bp) (buf : Option Slice) : Sorted (bp.put buf) := by
  unfold BufferPool.put
  split
  · exact h
  · rename_i buf
    split
    · rename_i buffers found
      refine h.setPool (by rw [found]; rfl) fun other member => ?_
      rcases List.mem_append.mp member with old | new
      · exact h.exact _ buffers found other old
      · rw [List.mem_singleton.mp new]
        exact ⟨rfl, rfl⟩
    · exact h

theorem Sorted.step {bp : BufferPool} (h : Sorted bp) (a : Act) : Sorted (step a bp) := by
  cases a with
  | get size choice => exact h.get size choice
  | put buf => exact h.put buf
  | forget size k =>
    simp only [BufferPool.step, forget]
    split
    · rename_i buffers found
      exact h.eraseIdx found k
    · exact h

/-! ## What `Get` returns -/

theorem selectPoolSize_mem (size : Int) : selectPoolSize size ∈ sizes := by
  unfold selectPoolSize sizes
  split
  · simp
  · split <;> simp

theorem le_selectPoolSize_iff (size : Int) : size ≤ selectPoolSize size ↔ size ≤ bufferSize16MB := by
  unfold selectPoolSize bufferSize1MB bufferSize4MB bufferSize16MB
  split
  · omega
  · split <;> omega

/-- Every buffer that is cut has the size of the bucket. -/
theorem Sorted.get_cuts {bp : BufferPool} (h : Sorted bp) (size : Int) (choice : Option Nat) :
    ∃ buf : Slice, buf.capacity = selectPoolSize size ∧ (bp.get size choice).2 = buf.cut size := by
  obtain ⟨buffers, found⟩ := Option.isSome_iff_exists.mp ((h.buckets _).mpr (selectPoolSize_mem size))
  simp only [BufferPool.get, found]
  cases kept : taken buffers choice with
  | some buf =>
    obtain ⟨k, -, here⟩ := Option.bind_eq_some_iff.mp kept
    exact ⟨buf, (h.exact _ buffers found buf (List.mem_of_getElem? here)).2, rfl⟩
  | none =>
    have nonneg : 0 ≤ selectPoolSize size := by
      have member := selectPoolSize_mem size
      simp only [sizes, List.mem_cons, List.not_mem_nil, or_false] at member
      rcases member with same | same | same <;> rw [same] <;> decide
    exact ⟨.whole _ nonneg, rfl, by simp [makeSlice, nonneg]⟩

/-- **What the pool serves.** In every run the buffers of a bucket are exactly of its size; and the next
`Get`, whichever buffer it takes, returns a slice of the size that is asked for exactly if that is not
more than the largest bucket. -/
theorem pool_serves_iff {bp : BufferPool} (run : Trace step Called BufferPool.new bp) :
    (∀ size buffers, bp.pools size = some buffers → ∀ buf ∈ buffers, buf.length = size ∧ buf.capacity = size) ∧
      ∀ size, 0 ≤ size →
        ((∀ choice, ∃ buf, (bp.get size choice).2 = some buf ∧ buf.length = size) ↔ size ≤ bufferSize16MB) := by
  have sorted : Sorted bp := run.invariant (fun _ a h _ => h.step a) Sorted.new
  refine ⟨sorted.exact, fun size asked => ?_⟩
  rw [← le_selectPoolSize_iff]
  constructor
  · intro serves
    obtain ⟨buf, cut, -⟩ := serves none
    obtain ⟨whole, capacity, returns⟩ := sorted.get_cuts size none
    rw [returns, Slice.cut] at cut
    split at cut
    · rename_i inRange
      rw [← capacity]
      exact inRange.2
    · cases cut
  · intro enough choice
    obtain ⟨whole, capacity, returns⟩ := sorted.get_cuts size choice
    have inRange : 0 ≤ size ∧ size ≤ whole.capacity := ⟨asked, by rw [capacity]; exact enough⟩
    exact ⟨⟨size, whole.capacity, inRange.1, inRange.2⟩, by rw [returns, Slice.cut, dif_pos inRange], rfl⟩

/-- A buffer of 1 MiB is handed out for a small size and put back; then the bucket keeps it whole, and the
next `Get` can cut it to another size. -/
theorem pool_serves_again :
    ∃ bp, Trace step Called BufferPool.new bp ∧
      bp.pools bufferSize1MB = some [.whole bufferSize1MB (by decide)] ∧
      ∀ choice, ∃ buf, (bp.get 7000 choice).2 = some buf ∧ buf.length = 7000 := by
  have first : Trace step Called BufferPool.new (step (.get 5 none) BufferPool.new) :=
    (Trace.refl _).tail (Act.get 5 none) (by decide : (0 : Int) ≤ 5)
  have run := first.tail (Act.put (some ⟨5, bufferSize1MB, by decide, by decide⟩)) trivial
  exact ⟨_, run, by decide, ((pool_serves_iff run).2 7000 (by decide)).mpr (by decide)⟩

/-- One byte more than the largest bucket holds is asked for: the slice expression is out of range. -/
theorem pool_panics_above_largest : (BufferPool.new.get (bufferSize16MB + 1) none).2 = none := by decide

end BufferPool

end Blobcache.Storage
