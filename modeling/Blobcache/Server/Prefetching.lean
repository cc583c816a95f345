import Blobcache.Storage.DiskUsage
import Blobcache.Storage.Prefetcher
import Blobcache.Storage.BufferPool
import Blobcache.Server.Totality

/-!
# The storage with its prefetcher

`storage.go`, `prefetcher.go` and `buffer_pool.go` together. Every `Get` reports to the prefetcher,
whose goroutines queue tasks; a worker that takes a task asks whether the object exists, takes a
buffer from the pool, reads the task with `Get`, which reports to the prefetcher again, and puts the
buffer back. So the workers read the storage beside the clients, and what they read depends on what
was read before.

The state holds the storage with every call of `Add` and `Get` so far, the prefetcher, the pool and
where the workers are. All of them move in any order, a file write is seen after every system call,
and the memory cache's policy, the usage monitor, `cleanup` and the pool act in between.

A panic in a worker would take the server down. There is none (`prefetching_never_panics`): a
buffer is as long as the task it was taken for, and the chunks in both tiers are at most a page long.
And the prefetcher does nothing to the storage but read it: what happens there is a run of the
storage alone, in which some of the reads are the workers'.
-/

namespace Blobcache.Server
set_option autoImplicit false
open AdmissionCache Execution Interleaving Int64Arith Storage

/-! ## No read panics -/

/-- A read that has room for what it was asked for does not panic. -/
def PanicFree (cfg : Config) : Thread → Prop
  | .add f result => result = none → Filling cfg f
  | .get call f result => 0 ≤ call.length → call.length ≤ call.dst.length →
      Within call.length call.dst.length f ∧ result ≠ some .panic

variable {cfg : Config}

theorem panicFree_starts {content : String → Bytes} {thread : Thread} (starts : Starts content thread) :
    PanicFree cfg thread := by
  cases starts with
  | add plain => exact fun _ => Filling.start plain.separators _
  | get call =>
    intro asked room
    exact ⟨⟨Int.le_refl 0, asked, Int.zero_add _, rfl, fun pc => by cases pc⟩, by simp⟩

theorem panicFree_get {call : GetCall} {f : GetFrame} {out : GetFrame ⊕ (GetFrame × GetResult)}
    (h : PanicFree cfg (.get call f none)) (seen : GetSeen cfg (AtMostPage cfg) Unknown f out) :
    PanicFree cfg (.ofGet call out) := by
  intro asked room
  obtain ⟨within, -⟩ := h asked room
  cases seen with
  | finished => exact ⟨within, by simp [resultOf]⟩
  | miss pc left =>
    exact ⟨⟨within.written, within.left, within.total, within.room_eq, fun _ => left⟩, by simp [resultOf]⟩
  | absent left e => exact ⟨within, by simp [resultOf]⟩
  | chunk left index short =>
    have more : 0 < f.remainingLength := by
      cases pc : f.pc with
      | loop => exact left pc
      | disk => exact within.pending pc
    rcases within.consume more room call.length_inRange.2 f.hash short with ⟨f', next, within'⟩ | ⟨r, stop, answers⟩
    · rw [next]
      exact ⟨within', by simp [resultOf]⟩
    · rw [stop]
      exact ⟨within, fun panics => answers.1 (Option.some.inj panics)⟩

/-- **No read panics** that has room for what it was asked for, in any interleaving of calls, whatever the offset. -/
theorem panicFree_run {content : String → Bytes} {sys : System}
    (run : Trace (System.step cfg) (CallSteps content) System.start sys) :
    Tiers (AtMostPage cfg) (AtMostPage cfg) sys.shared ∧ ∀ thread ∈ sys.threads, PanicFree cfg thread := by
  refine System.invariant ?_ ?_ ?_ ?_ run Tiers.fresh rfl
  · exact fun _ _ starts => panicFree_starts starts
  · intro p t c f _ tiers free
    have filling : FillingThread cfg (.ofAdd f (addStep cfg c p.shared f).2) := (free rfl).ofAdd
    refine ⟨(free rfl).tiers tiers, ?_⟩
    cases out : (addStep cfg c p.shared f).2 with
    | inl f' => rwa [out] at filling
    | inr r => exact nofun
  · exact fun p _ _ _ f _ _ => Loadable.same cfg (AtMostPage cfg) p.shared f
  · exact fun _ _ _ free seen => panicFree_get free seen

/-! ## The prefetcher's tasks -/

/-- Every task is as long as `startPrefetch` makes it. -/
structure Sized (pf : Prefetcher) : Prop where
  queue : ∀ task ∈ pf.workQueue, task.length = prefetchChunkSize
  workers : ∀ task, Worker.holds task ∈ pf.workers → task.length = prefetchChunkSize

theorem Sized.new (now : Nat) : Sized (Prefetcher.new now) := by
  refine ⟨fun task member => absurd member List.not_mem_nil, fun task member => ?_⟩
  cases (List.eq_of_mem_replicate member)

theorem Sized.onRead {pf : Prefetcher} (h : Sized pf) (hash : String) (offset length : Int) :
    Sized (pf.onRead hash offset length) := by
  obtain ⟨states, read⟩ := Prefetcher.onRead_eq pf hash offset length
  rw [read]
  exact ⟨h.queue, h.workers⟩

theorem Sized.produce {pf : Prefetcher} (h : Sized pf) (k : Nat) (sees : Bool) : Sized (pf.produce k sees) := by
  unfold Prefetcher.produce
  cases pf.producers[k]? with
  | none => exact h
  | some p =>
    dsimp only
    split
    · split
      · split
        · exact ⟨h.queue, h.workers⟩
        · split
          · refine ⟨fun task member => ?_, h.workers⟩
            rcases List.mem_append.mp member with old | new
            · exact h.queue task old
            · rw [List.mem_singleton.mp new]
          · exact ⟨h.queue, h.workers⟩
      · exact ⟨h.queue, h.workers⟩
    · exact ⟨h.queue, h.workers⟩

theorem Sized.set {pf : Prefetcher} (h : Sized pf) {k : Nat} {w : Worker}
    (sized : ∀ task, w = .holds task → task.length = prefetchChunkSize) :
    Sized { pf with workers := pf.workers.set k w } := by
  refine ⟨h.queue, fun task member => ?_⟩
  rcases List.mem_or_eq_of_mem_set member with old | new
  · exact h.workers task old
  · exact sized task new.symm

theorem Sized.worker {pf : Prefetcher} (h : Sized pf) (k : Nat) (sees present : Bool) :
    Sized (pf.worker k sees present) := by
  unfold Prefetcher.worker
  split
  · exact h
  · exact h
  · split
    · exact h.set fun task none => by cases none
    · split
      · exact h
      · rename_i task rest queue
        have rest_sized : Sized { pf with workQueue := rest } :=
          ⟨fun other member => h.queue other (by rw [queue]; exact List.mem_cons_of_mem _ member), h.workers⟩
        refine rest_sized.set fun other same => ?_
        cases same
        exact h.queue task (by rw [queue]; exact List.mem_cons_self)
  · have waits := h.set (k := k) (w := .waits) fun task none => by cases none
    dsimp only
    split
    · exact waits.onRead _ _ _
    · exact waits

theorem Sized.step {pf : Prefetcher} (h : Sized pf) (a : Prefetcher.Act) : Sized (Prefetcher.step a pf) := by
  cases a with
  | clientRead r =>
    have read := h.onRead r.hash r.offset r.length
    exact ⟨read.queue, read.workers⟩
  | producer k sees => exact h.produce k sees
  | worker k sees present => exact h.worker k sees present
  | cleanup => exact ⟨h.queue, h.workers⟩
  | tick duration => exact ⟨h.queue, h.workers⟩
  | cancel => exact ⟨h.queue, h.workers⟩

theorem Sized.held {pf : Prefetcher} (h : Sized pf) {k : Nat} {task : PrefetchTask} (holds : pf.held k = some task) :
    task.length = prefetchChunkSize := by
  unfold Prefetcher.held at holds
  split at holds
  · rename_i other found
    cases holds
    exact h.workers task (List.mem_of_getElem? found)
  · cases holds

/-! ## The storage, the prefetcher and the pool -/

/-- Where a worker is in the body of its loop. Which task it holds is the prefetcher's matter. -/
inductive Reader where
  | select
  /-- `Exists` has answered that the object is there. -/
  | found
  | buffered (buf : Slice)
  /-- In `Get`, which is this call of the storage. -/
  | reading (call : Nat) (buf : Slice)
  | panicked
  deriving DecidableEq

/-- The buffer that a worker is about to read into. -/
def Reader.buffer : Reader → Option Slice
  | .buffered buf => some buf
  | _ => none

structure Prefetching where
  sys : System
  pf : Prefetcher
  bp : BufferPool
  readers : List Reader

/-- What a step of a worker leaves open: whether `select` sees that the context is done, the buffer that the
pool hands out, and the bytes in it. -/
structure WorkerChoice where
  sees : Bool
  kept : Option Nat
  bytes : Bytes

/-- The call of a worker. The fields of a task are 64-bit integers already. -/
def prefetchCall (task : PrefetchTask) (dst : Bytes) : GetCall :=
  ⟨task.hash, wrap task.offset, wrap task.length, dst, inRange_wrap _, inRange_wrap _⟩

namespace Prefetching

/-- `NewContentAddressableStorage`, which starts the prefetcher. -/
def new (now : Nat) : Prefetching :=
  ⟨System.start, Prefetcher.new now, BufferPool.new, List.replicate prefetchWorkers .select⟩

def setReader (p : Prefetching) (k : Nat) (reader : Reader) : Prefetching :=
  { p with readers := p.readers.set k reader }

/-- The next step of a worker. -/
def worker (cfg : Config) (p : Prefetching) (k : Nat) (c : WorkerChoice) : Prefetching :=
  match p.readers[k]?, p.pf.held k with
  | some .select, none => { p with pf := p.pf.worker k c.sees false }
  | some .select, some task =>
    if p.sys.shared.existsObject task.hash then p.setReader k .found
    else { p with pf := p.pf.worker k c.sees false }
  | some .found, some task =>
    match p.bp.get task.length c.kept with
    | (bp, some buf) => { p with bp := bp }.setReader k (.buffered buf)
    | (bp, none) => { p with bp := bp }.setReader k .panicked
  | some (.buffered buf), some task =>
    -- the first thing that `Get` does is to call `OnRead`
    { p with
      sys := System.step cfg (.spawn (.startGet (prefetchCall task c.bytes))) p.sys
      pf := p.pf.worker k c.sees true }.setReader k (.reading p.sys.threads.length buf)
  | some (.reading call buf), _ =>
    match p.sys.threads[call]? with
    | some (.get _ _ (some .panic)) => p.setReader k .panicked
    | some (.get _ _ (some _)) => { p with bp := p.bp.put (some buf) }.setReader k .select
    | _ => p
  | _, _ => p

inductive Act where
  /-- A call of `Add` begins. -/
  | add (hash : String) (content : Bytes)
  /-- A client's call of `Get` begins, and calls `OnRead`. -/
  | get (call : GetCall)
  /-- A call of the storage moves on. -/
  | call (t : Nat) (c : AddChoice)
  | env (e : EnvStep)
  | producer (k : Nat) (sees : Bool)
  | worker (k : Nat) (c : WorkerChoice)
  | cleanup
  | tick (duration : Nat)
  | cancel
  /-- The pool forgets a buffer. -/
  | forget (size : Int) (k : Nat)

def step (cfg : Config) (a : Act) (p : Prefetching) : Prefetching :=
  match a with
  | .add hash content => { p with sys := System.step cfg (.spawn (.startAdd hash content)) p.sys }
  | .get call =>
    { p with
      sys := System.step cfg (.spawn (.startGet call)) p.sys
      pf := Prefetcher.step (.clientRead ⟨call.hash, call.offset, call.length⟩) p.pf }
  | .call t c => { p with sys := System.step cfg (.move t c) p.sys }
  | .env e => { p with sys := System.step cfg (.env e) p.sys }
  | .producer k sees => { p with pf := Prefetcher.step (.producer k sees) p.pf }
  | .worker k c => p.worker cfg k c
  | .cleanup => { p with pf := Prefetcher.step .cleanup p.pf }
  | .tick duration => { p with pf := Prefetcher.step (.tick duration) p.pf }
  | .cancel => { p with pf := Prefetcher.step .cancel p.pf }
  | .forget size k => { p with bp := BufferPool.step (.forget size k) p.bp }

/-- The actions of every run: what is stored under a hash is its content, and a buffer has as many bytes as its
length says. -/
def Runs (content : String → Bytes) (p : Prefetching) : Act → Prop
  | .add hash bytes => PlainHash hash ∧ bytes = content hash
  | .worker k c => ∀ buf ∈ p.readers[k]?.bind Reader.buffer, (c.bytes.length : Int) = buf.length
  | _ => True

/-! ## Every run -/

/-- A worker that reads, or is about to, has room for what it asks for. -/
def Fitting (sys : System) : Reader → Prop
  | .select => True
  | .found => True
  | .buffered buf => buf.length = prefetchChunkSize
  | .reading call _ => ∃ get f result, sys.threads[call]? = some (.get get f result) ∧
      0 ≤ get.length ∧ get.length ≤ get.dst.length
  | .panicked => False

/-- Each part has made a run of its own, and no worker has panicked. -/
structure Sound (cfg : Config) (content : String → Bytes) (now : Nat) (p : Prefetching) : Prop where
  sys : Trace (System.step cfg) (CallSteps content) System.start p.sys
  pf : Trace Prefetcher.step Prefetcher.Interleaved (Prefetcher.new now) p.pf
  bp : Trace BufferPool.step BufferPool.Called BufferPool.new p.bp
  readers : ∀ reader ∈ p.readers, Fitting p.sys reader

variable {content : String → Bytes} {now : Nat} {p : Prefetching}

theorem Sound.new : Sound cfg content now (Prefetching.new now) := by
  refine ⟨.refl _, .refl _, .refl _, fun reader member => ?_⟩
  rw [List.eq_of_mem_replicate member]
  trivial

/-- A call of `Get` stays that call. -/
theorem Fitting.step {sys : System} {reader : Reader} (h : Fitting sys reader) (a : Storage.Act) :
    Fitting (System.step cfg a sys) reader := by
  cases reader with
  | reading call buf =>
    obtain ⟨get, f, result, found, asked, room⟩ := h
    obtain ⟨f', result', still⟩ := System.get_stays found a
    exact ⟨get, f', result', still, asked, room⟩
  | _ => exact h

theorem Sound.storage (h : Sound cfg content now p) (a : Storage.Act) (admitted : CallSteps content p.sys a) :
    Sound cfg content now { p with sys := System.step cfg a p.sys } :=
  ⟨h.sys.tail a admitted, h.pf, h.bp, fun reader member => (h.readers reader member).step a⟩

theorem Sound.prefetcher (h : Sound cfg content now p) (a : Prefetcher.Act) (admitted : Prefetcher.Interleaved p.pf a) :
    Sound cfg content now { p with pf := Prefetcher.step a p.pf } :=
  ⟨h.sys, h.pf.tail a admitted, h.bp, h.readers⟩

theorem Sound.pool (h : Sound cfg content now p) (a : BufferPool.Act) (admitted : BufferPool.Called p.bp a) :
    Sound cfg content now { p with bp := BufferPool.step a p.bp } :=
  ⟨h.sys, h.pf, h.bp.tail a admitted, h.readers⟩

theorem Sound.setReader (h : Sound cfg content now p) (k : Nat) {reader : Reader} (fits : Fitting p.sys reader) :
    Sound cfg content now (p.setReader k reader) := by
  refine ⟨h.sys, h.pf, h.bp, fun other member => ?_⟩
  rcases List.mem_or_eq_of_mem_set member with old | rfl
  · exact h.readers other old
  · exact fits

theorem Sound.held (h : Sound cfg content now p) {k : Nat} {task : PrefetchTask} (holds : p.pf.held k = some task) :
    task.length = prefetchChunkSize :=
  Sized.held (h.pf.invariant (fun _ a sized _ => sized.step a) (Sized.new now)) holds

/-- The pool has a buffer for every task. -/
theorem Sound.get (h : Sound cfg content now p) (kept : Option Nat) :
    ∃ buf, (p.bp.get prefetchChunkSize kept).2 = some buf ∧ buf.length = prefetchChunkSize := by
  have sorted : p.bp.Sorted := h.bp.invariant (fun _ a sorted _ => sorted.step a) BufferPool.Sorted.new
  obtain ⟨whole, capacity, returns⟩ := sorted.get_cuts prefetchChunkSize kept
  have inside : 0 ≤ prefetchChunkSize ∧ prefetchChunkSize ≤ whole.capacity := by
    rw [capacity]
    decide
  exact ⟨⟨prefetchChunkSize, whole.capacity, inside.1, inside.2⟩, by rw [returns, Slice.cut, dif_pos inside], rfl⟩

theorem prefetchCall_fits {task : PrefetchTask} (sized : task.length = prefetchChunkSize) {bytes : Bytes}
    (filled : (bytes.length : Int) = prefetchChunkSize) :
    0 ≤ (prefetchCall task bytes).length ∧
      (prefetchCall task bytes).length ≤ (prefetchCall task bytes).dst.length := by
  have exact : (prefetchCall task bytes).length = prefetchChunkSize := by
    show wrap task.length = prefetchChunkSize
    rw [sized]
    decide
  rw [exact]
  exact ⟨by decide, filled.ge⟩

theorem Sound.worker (h : Sound cfg content now p) (k : Nat) {c : WorkerChoice}
    (filled : ∀ buf ∈ p.readers[k]?.bind Reader.buffer, (c.bytes.length : Int) = buf.length) :
    Sound cfg content now (p.worker cfg k c) := by
  unfold Prefetching.worker
  split
  · exact h.prefetcher (.worker k c.sees false) trivial
  · split
    · exact h.setReader k trivial
    · exact h.prefetcher (.worker k c.sees false) trivial
  · rename_i task _ holds
    have sized := h.held holds
    obtain ⟨buf, returned, length⟩ := h.get c.kept
    have taken := h.pool (.get task.length c.kept) (by rw [BufferPool.Called, sized]; decide)
    rw [BufferPool.step, sized] at taken
    rw [sized]
    generalize p.bp.get prefetchChunkSize c.kept = got at returned taken ⊢
    obtain ⟨bp, answer⟩ := got
    cases returned
    exact taken.setReader k length
  · rename_i buf task here holds
    have length : buf.length = prefetchChunkSize := h.readers _ (List.mem_of_getElem? here)
    have bytes := filled buf (by rw [here]; rfl)
    have begun := (h.storage (.spawn (.startGet (prefetchCall task c.bytes))) (.get _)).prefetcher
      (.worker k c.sees true) trivial
    refine begun.setReader k ⟨_, _, _, List.getElem?_concat_length .., ?_⟩
    exact prefetchCall_fits (h.held holds) (bytes.trans length)
  · rename_i call buf here
    split
    · -- the call has room, so it has not panicked
      rename_i get f panicked
      obtain ⟨get', f', result, found, asked, room⟩ := h.readers _ (List.mem_of_getElem? here)
      rw [panicked] at found
      cases found
      have free := (panicFree_run h.sys).2 _ (List.mem_of_getElem? panicked) asked room
      exact absurd rfl free.2
    · exact (h.pool (.put (some buf)) trivial).setReader k trivial
    · exact h
  · exact h

theorem Sound.step {a : Act} (h : Sound cfg content now p) (admitted : Runs content p a) :
    Sound cfg content now (step cfg a p) := by
  cases a with
  | add hash bytes =>
    obtain ⟨plain, rfl⟩ := admitted
    exact h.storage (.spawn (.startAdd hash (content hash))) (.add plain)
  | get call =>
    have begun := h.storage (.spawn (.startGet call)) (.get call)
    exact begun.prefetcher (.clientRead ⟨call.hash, call.offset, call.length⟩) ⟨call.offset_inRange, call.length_inRange⟩
  | call t c => exact h.storage (.move t c) trivial
  | env e => exact h.storage (.env e) trivial
  | producer k sees => exact h.prefetcher (.producer k sees) trivial
  | worker k c => exact h.worker k admitted
  | cleanup => exact h.prefetcher .cleanup trivial
  | tick duration => exact h.prefetcher (.tick duration) trivial
  | cancel => exact h.prefetcher .cancel trivial
  | forget size k => exact h.pool (.forget size k) trivial

/-- **Prefetching only reads, and never panics.** In every run the storage makes a run of its own, in which some of
the calls of `Get` are those of the workers, and so does the prefetcher; no worker has panicked, and no call of
`Get` has that was given room for what it asked for. -/
theorem prefetching_never_panics (run : Trace (step cfg) (Runs content) (Prefetching.new now) p) :
    Trace (System.step cfg) (CallSteps content) System.start p.sys ∧
      Trace Prefetcher.step Prefetcher.Interleaved (Prefetcher.new now) p.pf ∧
      Reader.panicked ∉ p.readers ∧
      ∀ call f result, Thread.get call f (some result) ∈ p.sys.threads → 0 ≤ call.length →
        call.length ≤ call.dst.length → result ≠ .panic := by
  have sound : Sound cfg content now p := run.invariant (fun _ _ h admitted => h.step admitted) Sound.new
  refine ⟨sound.sys, sound.pf, fun panicked => sound.readers _ panicked, fun call f result member asked room => ?_⟩
  rintro rfl
  exact ((panicFree_run sound.sys).2 _ member asked room).2 rfl

instance (p : Prefetching) : (a : Act) → Decidable (Runs (fun _ => [7]) p a)
  | .add _ _ => inferInstanceAs (Decidable (_ ∧ _))
  | .worker _ _ => inferInstanceAs (Decidable (∀ _ ∈ _, _))
  | .get _ => inferInstanceAs (Decidable True)
  | .call _ _ => inferInstanceAs (Decidable True)
  | .env _ => inferInstanceAs (Decidable True)
  | .producer _ _ => inferInstanceAs (Decidable True)
  | .cleanup => inferInstanceAs (Decidable True)
  | .tick _ => inferInstanceAs (Decidable True)
  | .cancel => inferInstanceAs (Decidable True)
  | .forget _ _ => inferInstanceAs (Decidable True)

/-- The directory of an object is made, two adjacent reads start a prefetch, and a worker takes the first task and a
buffer for it. -/
def takesTask : List Act :=
  [.add "a" [7], .call 0 ⟨.finish .ok, false, ""⟩, .call 0 ⟨.finish .ok, false, ""⟩, .get readOne,
    .get ⟨"a", 1, 1, [0], inRange_one, inRange_one⟩,
    .producer 0 false, .worker 0 ⟨false, none, []⟩, .worker 0 ⟨false, none, []⟩, .worker 0 ⟨false, none, []⟩]

theorem prefetching_never_panics_reads :
    ∃ p, Trace (step oneBytePages) (Runs fun _ => [7]) (Prefetching.new 0) p ∧
      p.bp.pools bufferSize4MB = some [.whole bufferSize4MB (by decide)] ∧
      Trace (System.step oneBytePages) (CallSteps fun _ => [7]) System.start p.sys ∧ Reader.panicked ∉ p.readers := by
  -- the buffer is far too long to be evaluated: it is any list of its length
  obtain ⟨bytes, long⟩ : ∃ bytes : Bytes, (bytes.length : Int) = prefetchChunkSize :=
    ⟨List.replicate (4 * 1024 * 1024) 0, by rw [List.length_replicate]; rfl⟩
  have taken : Trace (step oneBytePages) (Runs fun _ => [7]) (Prefetching.new 0)
      (after (step oneBytePages) takesTask (Prefetching.new 0)) :=
    Trace.of_list takesTask _ (by decide +kernel)
  have buffered : (after (step oneBytePages) takesTask (Prefetching.new 0)).readers[0]? =
      some (.buffered ⟨prefetchChunkSize, bufferSize4MB, by decide, by decide⟩) := by decide +kernel
  have reads := taken.tail (.worker 0 ⟨false, none, bytes⟩) fun buf member => by
    rw [buffered] at member
    cases member
    exact long
  have looked := reads.tail (Act.call 3 ⟨.finish .ok, false, ""⟩) trivial
  have missed := looked.tail (Act.call 3 ⟨.finish .ok, false, ""⟩) trivial
  have returned := missed.tail (Act.worker 0 ⟨false, none, []⟩) fun buf member => by cases member
  obtain ⟨storage, -, quiet, -⟩ := prefetching_never_panics returned
  exact ⟨_, returned, rfl, storage, quiet⟩

end Prefetching

end Blobcache.Server
