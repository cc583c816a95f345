import Blobcache.Lib.Execution
import Blobcache.Lib.Int64
import Mathlib.Algebra.Order.BigOperators.Group.List
import Mathlib.Data.Finset.Card
import Mathlib.Logic.Function.Basic

/-!
# The prefetcher

`prefetcher.go`. Every `Get` of the storage tells the prefetcher of its read (`OnRead`). When two
reads of an object follow each other closely, a goroutine puts sixteen tasks of 4 MiB on the work
queue, beginning where the second read ends. Four workers take the tasks and read the object with
`Get`, so that what they read is reported as well, as if a client had asked for it.

The reads of clients, the goroutines of `startPrefetch`, the workers, the removal of stale states
and the end of the context come in any order. What is done under the mutex is one step, and so is
one turn of a loop that sends to or receives from the queue. What the storage holds is not modelled:
an object of a task exists or not, as the step says.
-/

namespace Blobcache.Storage
set_option autoImplicit false
open Execution Int64Arith

def prefetchAheadChunks : Nat := 16

def prefetchThresholdBytes : Int := 2 * 1024 * 1024

def prefetchWorkers : Nat := 4

/-- In nanoseconds. -/
def prefetchCacheTime : Nat := 30 * 1000000000

/-- `chunkSize` of `startPrefetch`. -/
def prefetchChunkSize : Int := 4 * 1024 * 1024

/-- What the channel holds at most. -/
def workQueueSize : Nat := 100

structure PrefetchState where
  lastOffset : Int
  lastAccessTime : Nat
  sequential : Bool
  prefetching : Bool
  deriving DecidableEq, Repr

structure PrefetchTask where
  hash : String
  offset : Int
  length : Int
  deriving DecidableEq, Repr

/-- Where the goroutine of `startPrefetch` is: at the head of its loop, or out of it and about to
run the deferred function. -/
inductive ProducerPc where
  | loop (i : Nat)
  | deferred
  deriving DecidableEq, Repr

structure Producer where
  hash : String
  startOffset : Int
  pc : ProducerPc
  deriving DecidableEq, Repr

inductive Worker where
  | waits
  | holds (task : PrefetchTask)
  | returned
  deriving DecidableEq, Repr

/-- A `Get` that a client asks for. -/
structure ClientRead where
  hash : String
  offset : Int
  length : Int
  deriving DecidableEq, Repr

/-- The prefetcher with its goroutines. The last two fields are a record of the run, which no step
reads: the reads of clients, and every task ever put on the queue. -/
structure Prefetcher where
  states : String → Option PrefetchState
  workQueue : List PrefetchTask
  producers : List Producer
  workers : List Worker
  now : Nat
  /-- The context is done. -/
  done : Bool
  clientReads : List ClientRead
  queued : List PrefetchTask

namespace Prefetcher

/-- `NewPrefetcher`, at the time `now`. -/
def new (now : Nat) : Prefetcher :=
  { states := fun _ => none, workQueue := [], producers := [], workers := List.replicate prefetchWorkers .waits,
    now := now, done := false, clientReads := [], queued := [] }

/-! ## `OnRead` -/

/-- An assignment to fields of the state of a hash, if there is one. -/
def modify (pf : Prefetcher) (hash : String) (f : PrefetchState → PrefetchState) : Prefetcher :=
  { pf with states := Function.update pf.states hash ((pf.states hash).map f) }

/-- The read begins where the last one ended, or a little later. -/
def isSequential (state : PrefetchState) (offset : Int) : Bool :=
  decide (state.lastOffset ≤ offset) && decide (wrap (offset - state.lastOffset) ≤ prefetchThresholdBytes)

/-- `OnRead` calls it for a hash that has a state. -/
def startPrefetch (pf : Prefetcher) (hash : String) (startOffset : Int) : Prefetcher :=
  match pf.states hash with
  | none => pf
  | some state =>
    if state.prefetching then pf
    else
      let pf := pf.modify hash fun state => { state with prefetching := true }
      { pf with producers := pf.producers ++ [⟨hash, startOffset, .loop 0⟩] }

/-- The middle of `OnRead`, where the read is compared with the ones before it. -/
def detect (pf : Prefetcher) (hash : String) (state : PrefetchState) (offset length : Int) : Prefetcher :=
  if isSequential state offset && !state.sequential then
    (pf.modify hash fun state => { state with sequential := true }).startPrefetch hash (wrap (offset + length))
  else if isSequential state offset && state.sequential && !state.prefetching then
    pf.startPrefetch hash (wrap (offset + length))
  else if !isSequential state offset then
    pf.modify hash fun state => { state with sequential := false }
  else pf

def onRead (pf : Prefetcher) (hash : String) (offset length : Int) : Prefetcher :=
  match pf.states hash with
  | none => { pf with states := Function.update pf.states hash (some ⟨offset, pf.now, false, false⟩) }
  | some state =>
    (pf.detect hash state offset length).modify hash fun state =>
      { state with lastOffset := wrap (offset + length), lastAccessTime := pf.now }

/-! ## The goroutines -/

/-- The next step of a goroutine of `startPrefetch`. When the context is done and there is room in
the queue, `select` takes either case; `sees` says which. -/
def produce (pf : Prefetcher) (k : Nat) (sees : Bool) : Prefetcher :=
  match pf.producers[k]? with
  | none => pf
  | some p =>
    let leaves : Prefetcher := { pf with producers := pf.producers.set k { p with pc := .deferred } }
    match p.pc with
    | .loop i =>
      if i < prefetchAheadChunks then
        if pf.done && sees then leaves
        else if pf.workQueue.length < workQueueSize then
          let task := ⟨p.hash, wrap (p.startOffset + wrap (i * prefetchChunkSize)), prefetchChunkSize⟩
          { pf with
            workQueue := pf.workQueue ++ [task]
            queued := pf.queued ++ [task]
            producers := pf.producers.set k { p with pc := .loop (i + 1) } }
        else leaves
      else leaves
    | .deferred =>
      let pf := pf.modify p.hash fun state => { state with prefetching := false }
      { pf with producers := pf.producers.eraseIdx k }

/-- The next step of a worker. `present` is the answer of `Exists`; the step that serves a task ends
where its `Get` has called `OnRead`, for the rest of `Get` does not touch the prefetcher. -/
def worker (pf : Prefetcher) (k : Nat) (sees present : Bool) : Prefetcher :=
  match pf.workers[k]? with
  | none => pf
  | some .returned => pf
  | some .waits =>
    if pf.done && sees then { pf with workers := pf.workers.set k .returned }
    else
      match pf.workQueue with
      | [] => pf
      | task :: rest => { pf with workQueue := rest, workers := pf.workers.set k (.holds task) }
  | some (.holds task) =>
    let pf := { pf with workers := pf.workers.set k .waits }
    if present then pf.onRead task.hash task.offset task.length else pf

def cleanup (pf : Prefetcher) : Prefetcher :=
  { pf with
    states := fun hash => (pf.states hash).filter fun state =>
      !decide (prefetchCacheTime < pf.now - state.lastAccessTime) }

/-! ## Runs -/

inductive Act where
  | clientRead (read : ClientRead)
  | producer (k : Nat) (sees : Bool)
  | worker (k : Nat) (sees present : Bool)
  | cleanup
  | tick (duration : Nat)
  | cancel

def step (a : Act) (pf : Prefetcher) : Prefetcher :=
  match a with
  | .clientRead r => { pf.onRead r.hash r.offset r.length with clientReads := pf.clientReads ++ [r] }
  | .producer k sees => pf.produce k sees
  | .worker k sees present => pf.worker k sees present
  | .cleanup => pf.cleanup
  | .tick duration => { pf with now := pf.now + duration }
  | .cancel => { pf with done := true }

/-- The actions of every run: the arguments of a `Get` are 64-bit integers. -/
def Interleaved (_ : Prefetcher) : Act → Prop
  | .clientRead r => InRange r.offset ∧ InRange r.length
  | _ => True

instance (pf : Prefetcher) : (a : Act) → Decidable (Interleaved pf a)
  | .clientRead _ => inferInstanceAs (Decidable (_ ∧ _))
  | .worker _ _ _ => inferInstanceAs (Decidable True)
  | .producer _ _ => inferInstanceAs (Decidable True)
  | .cleanup => inferInstanceAs (Decidable True)
  | .tick _ => inferInstanceAs (Decidable True)
  | .cancel => inferInstanceAs (Decidable True)

end Prefetcher

/-- Where a client's read ends. -/
def ClientRead.stop (r : ClientRead) : Int := r.offset + r.length

/-- The task lies in what is to be prefetched after the read. -/
def ClientRead.Reaches (r : ClientRead) (task : PrefetchTask) : Prop :=
  task.hash = r.hash ∧ r.stop ≤ task.offset ∧ task.offset < r.stop + prefetchAheadChunks * prefetchChunkSize

instance (r : ClientRead) (task : PrefetchTask) : Decidable (r.Reaches task) :=
  inferInstanceAs (Decidable (_ ∧ _ ∧ _))

/-- The offset of the last task that a prefetch after the read puts on the queue is a 64-bit integer, and
so is the end of the read. -/
def ClientRead.Fits (r : ClientRead) : Prop :=
  -2 ^ 63 ≤ r.stop ∧ r.stop + (prefetchAheadChunks - 1) * prefetchChunkSize < 2 ^ 63

instance (r : ClientRead) : Decidable r.Fits := inferInstanceAs (Decidable (_ ∧ _))

/-- The tasks that a client's read is to cause. -/
def ClientRead.ahead (r : ClientRead) : List PrefetchTask :=
  (List.range prefetchAheadChunks).map fun i : Nat => ⟨r.hash, r.stop + i * prefetchChunkSize, prefetchChunkSize⟩

theorem ClientRead.reaches_of_mem_ahead {r : ClientRead} {task : PrefetchTask} (caused : task ∈ r.ahead) :
    r.Reaches task := by
  obtain ⟨i, inside, rfl⟩ := List.mem_map.mp caused
  have inside := List.mem_range.mp inside
  refine ⟨rfl, ?_, ?_⟩
  · show r.stop ≤ r.stop + i * prefetchChunkSize
    unfold prefetchChunkSize
    omega
  · show r.stop + i * prefetchChunkSize < r.stop + prefetchAheadChunks * prefetchChunkSize
    unfold prefetchChunkSize
    omega

namespace Prefetcher

/-- A read at this offset starts a prefetch. -/
def Starts (pf : Prefetcher) (hash : String) (offset : Int) : Prop :=
  ∃ state ∈ pf.states hash, isSequential state offset = true ∧ state.prefetching = false

instance (pf : Prefetcher) (hash : String) (offset : Int) : Decidable (pf.Starts hash offset) :=
  inferInstanceAs (Decidable (∃ _ ∈ _, _))

/-- The task that a worker holds. -/
def held (pf : Prefetcher) (k : Nat) : Option PrefetchTask :=
  match pf.workers[k]? with
  | some (.holds task) => some task
  | _ => none

/-- The actions of a run in which only the reads of clients start a prefetch, and only those after which
the offsets of its tasks do not overflow. -/
def ClientsStart (pf : Prefetcher) : Act → Prop
  | .clientRead r => InRange r.offset ∧ InRange r.length ∧ (pf.Starts r.hash r.offset → r.Fits)
  | .worker k _ present => ∀ task ∈ pf.held k, present = true → ¬ pf.Starts task.hash task.offset
  | _ => True

instance (pf : Prefetcher) : (a : Act) → Decidable (ClientsStart pf a)
  | .clientRead _ => inferInstanceAs (Decidable (_ ∧ _ ∧ (_ → _)))
  | .worker k _ _ => inferInstanceAs (Decidable (∀ task ∈ pf.held k, _ → ¬ _))
  | .producer _ _ => inferInstanceAs (Decidable True)
  | .cleanup => inferInstanceAs (Decidable True)
  | .tick _ => inferInstanceAs (Decidable True)
  | .cancel => inferInstanceAs (Decidable True)

/-! ## What a read does -/

/-- The goroutine that a read starts. -/
def started (pf : Prefetcher) (hash : String) (offset length : Int) : List Producer :=
  if pf.Starts hash offset then [⟨hash, wrap (offset + length), .loop 0⟩] else []

theorem starts_iff {pf : Prefetcher} {hash : String} {state : PrefetchState} (found : pf.states hash = some state)
    (offset : Int) : pf.Starts hash offset ↔ isSequential state offset = true ∧ state.prefetching = false := by
  simp [Starts, found]

theorem modify_found {pf : Prefetcher} {hash : String} {state : PrefetchState} (found : pf.states hash = some state)
    (f : PrefetchState → PrefetchState) : (pf.modify hash f).states hash = some (f state) := by
  simp [modify, found]

theorem startPrefetch_busy {pf : Prefetcher} {hash : String} {state : PrefetchState}
    (found : pf.states hash = some state) (busy : state.prefetching = true) (startOffset : Int) :
    pf.startPrefetch hash startOffset = pf := by
  unfold startPrefetch
  rw [found]
  exact if_pos busy

theorem startPrefetch_free {pf : Prefetcher} {hash : String} {state : PrefetchState}
    (found : pf.states hash = some state) (free : state.prefetching = false) (startOffset : Int) :
    ∃ states, pf.startPrefetch hash startOffset =
      { pf with states := states, producers := pf.producers ++ [⟨hash, startOffset, .loop 0⟩] } := by
  refine ⟨(pf.modify hash fun state => { state with prefetching := true }).states, ?_⟩
  unfold startPrefetch
  rw [found]
  exact if_neg (by rw [free]; decide)

theorem detect_eq {pf : Prefetcher} {hash : String} {state : PrefetchState} (found : pf.states hash = some state)
    (offset length : Int) :
    ∃ states, pf.detect hash state offset length =
      { pf with states := states, producers := pf.producers ++ pf.started hash offset length } := by
  have starts := starts_iff found offset
  unfold detect started
  cases seq : isSequential state offset with
  | false =>
    rw [if_neg (show ¬ pf.Starts hash offset from fun h => by simp [seq] at starts; exact starts h), List.append_nil]
    exact ⟨_, rfl⟩
  | true =>
    cases busy : state.prefetching with
    | true =>
      rw [if_neg (show ¬ pf.Starts hash offset from fun h => by simp [busy] at starts; exact starts h), List.append_nil]
      cases state.sequential with
      | false => exact ⟨_, startPrefetch_busy (modify_found found _) busy _⟩
      | true => exact ⟨_, rfl⟩
    | false =>
      rw [if_pos (starts.mpr ⟨seq, busy⟩)]
      cases state.sequential with
      | false => exact startPrefetch_free (modify_found found _) busy _
      | true => exact startPrefetch_free found busy _

/-- **A read** changes the states, and starts a goroutine or not. -/
theorem onRead_eq (pf : Prefetcher) (hash : String) (offset length : Int) :
    ∃ states, pf.onRead hash offset length =
      { pf with states := states, producers := pf.producers ++ pf.started hash offset length } := by
  unfold onRead
  cases found : pf.states hash with
  | none =>
    have still : ¬ pf.Starts hash offset := by simp [Starts, found]
    rw [started, if_neg still, List.append_nil]
    exact ⟨_, rfl⟩
  | some state =>
    obtain ⟨states, noticed⟩ := detect_eq found offset length
    dsimp only
    rw [noticed]
    exact ⟨_, rfl⟩

/-! ## The invariant -/

/-- A goroutine prefetches after a client's read. -/
structure Serves (r : ClientRead) (p : Producer) : Prop where
  hash : p.hash = r.hash
  startOffset : p.startOffset = r.stop
  fits : r.Fits

/-- Every task that was ever queued, and every goroutine that is queueing some, comes from a client's read. -/
structure Caused (pf : Prefetcher) : Prop where
  queued : ∀ task ∈ pf.queued, ∃ r ∈ pf.clientReads, task ∈ r.ahead
  producers : ∀ p ∈ pf.producers, ∃ r ∈ pf.clientReads, Serves r p

theorem Caused.new (now : Nat) : Caused (Prefetcher.new now) :=
  ⟨fun _ none => absurd none List.not_mem_nil, fun _ none => absurd none List.not_mem_nil⟩

/-- The offset of a task does not overflow after a read that leaves room for it. -/
theorem Serves.mem_ahead {r : ClientRead} {p : Producer} (h : Serves r p) {i : Nat} (inside : i < prefetchAheadChunks) :
    ⟨p.hash, wrap (p.startOffset + wrap (i * prefetchChunkSize)), prefetchChunkSize⟩ ∈ r.ahead := by
  obtain ⟨low, high⟩ := h.fits
  unfold prefetchAheadChunks prefetchChunkSize at *
  have inner : wrap (i * (4 * 1024 * 1024)) = i * (4 * 1024 * 1024) := wrap_eq (by omega) (by omega)
  have outer : wrap (r.stop + i * (4 * 1024 * 1024)) = r.stop + i * (4 * 1024 * 1024) := wrap_eq (by omega) (by omega)
  rw [h.hash, h.startOffset, inner, outer]
  exact List.mem_map.mpr ⟨i, List.mem_range.mpr inside, rfl⟩

/-- A step that queues nothing and starts no goroutine. -/
theorem Caused.of_subset {pf pf' : Prefetcher} (h : Caused pf) (queued : pf'.queued = pf.queued)
    (reads : pf'.clientReads = pf.clientReads)
    (producers : ∀ p ∈ pf'.producers, ∃ q ∈ pf.producers, p.hash = q.hash ∧ p.startOffset = q.startOffset) :
    Caused pf' := by
  refine ⟨by rw [queued, reads]; exact h.queued, fun p member => ?_⟩
  obtain ⟨q, found, sameHash, sameStart⟩ := producers p member
  obtain ⟨r, read, serves⟩ := h.producers q found
  exact ⟨r, by rw [reads]; exact read, sameHash.trans serves.hash, sameStart.trans serves.startOffset, serves.fits⟩

theorem Caused.clientRead {pf : Prefetcher} (h : Caused pf) (r : ClientRead)
    (fits : pf.Starts r.hash r.offset → r.Fits) : Caused (step (.clientRead r) pf) := by
  obtain ⟨states, read⟩ := onRead_eq pf r.hash r.offset r.length
  simp only [step, read]
  constructor
  · intro task member
    obtain ⟨r', before, caused⟩ := h.queued task member
    exact ⟨r', List.mem_append_left _ before, caused⟩
  · intro p member
    rcases List.mem_append.mp member with old | new
    · obtain ⟨r', before, serves⟩ := h.producers p old
      exact ⟨r', List.mem_append_left _ before, serves⟩
    · -- the goroutine that this read has started
      unfold started at new
      split at new
      · rename_i starts
        obtain rfl := List.mem_singleton.mp new
        have room := fits starts
        have ends : wrap (r.offset + r.length) = r.stop := by
          obtain ⟨low, high⟩ := room
          unfold prefetchAheadChunks prefetchChunkSize at high
          exact wrap_eq low (by unfold ClientRead.stop at *; omega)
        exact ⟨r, List.mem_append_right _ List.mem_cons_self, rfl, ends, room⟩
      · cases new

/-- A goroutine that has moved on still prefetches after the same read. -/
theorem mem_set_moved {producers : List Producer} {k : Nat} {p q : Producer} {pc : ProducerPc}
    (found : producers[k]? = some p) (member : q ∈ producers.set k { p with pc := pc }) :
    ∃ q' ∈ producers, q.hash = q'.hash ∧ q.startOffset = q'.startOffset := by
  rcases List.mem_or_eq_of_mem_set member with old | rfl
  · exact ⟨q, old, rfl, rfl⟩
  · exact ⟨p, List.mem_of_getElem? found, rfl, rfl⟩

theorem Caused.produce {pf : Prefetcher} (h : Caused pf) (k : Nat) (sees : Bool) : Caused (pf.produce k sees) := by
  unfold Prefetcher.produce
  cases found : pf.producers[k]? with
  | none => exact h
  | some p =>
    have leaves : Caused { pf with producers := pf.producers.set k { p with pc := .deferred } } :=
      h.of_subset rfl rfl fun q member => mem_set_moved found member
    dsimp only
    split
    · rename_i i _
      split
      · rename_i inside
        split
        · exact leaves
        · split
          · have moved : Caused { pf with producers := pf.producers.set k { p with pc := .loop (i + 1) } } :=
              h.of_subset rfl rfl fun q member => mem_set_moved found member
            obtain ⟨r, read, serves⟩ := h.producers p (List.mem_of_getElem? found)
            refine ⟨fun task member => ?_, moved.producers⟩
            rcases List.mem_append.mp member with old | new
            · exact h.queued task old
            · rw [List.mem_singleton.mp new]
              exact ⟨r, read, serves.mem_ahead inside⟩
          · exact leaves
      · exact leaves
    · exact h.of_subset rfl rfl fun q member => ⟨q, List.mem_of_mem_eraseIdx member, rfl, rfl⟩

theorem Caused.worker {pf : Prefetcher} (h : Caused pf) {k : Nat} {sees present : Bool}
    (still : ∀ task ∈ pf.held k, present = true → ¬ pf.Starts task.hash task.offset) :
    Caused (pf.worker k sees present) := by
  unfold Prefetcher.worker
  have same : ∀ q ∈ pf.producers, ∃ q' ∈ pf.producers, q.hash = q'.hash ∧ q.startOffset = q'.startOffset :=
    fun q member => ⟨q, member, rfl, rfl⟩
  split
  · exact h
  · exact h
  · split
    · exact h.of_subset rfl rfl same
    · split
      · exact h
      · exact h.of_subset rfl rfl same
  · rename_i task found
    dsimp only
    split
    · rename_i there
      -- the read of a worker is noticed like any other, but starts nothing
      obtain ⟨states, read⟩ := onRead_eq { pf with workers := pf.workers.set k .waits } task.hash task.offset task.length
      have nothing : started { pf with workers := pf.workers.set k .waits } task.hash task.offset task.length = [] :=
        if_neg (still task (by simp [held, found]) there)
      rw [read, nothing, List.append_nil]
      exact h.of_subset rfl rfl same
    · exact h.of_subset rfl rfl same

theorem Caused.step {pf : Prefetcher} {a : Act} (h : Caused pf) (admitted : ClientsStart pf a) :
    Caused (step a pf) := by
  cases a with
  | clientRead r => exact h.clientRead r admitted.2.2
  | producer k sees => exact h.produce k sees
  | worker k sees present => exact h.worker admitted
  | cleanup => exact ⟨h.queued, h.producers⟩
  | tick duration => exact ⟨h.queued, h.producers⟩
  | cancel => exact ⟨h.queued, h.producers⟩

/-- Sixteen different tasks for each read. -/
theorem Caused.card_queued_le {pf : Prefetcher} (h : Caused pf) :
    pf.queued.toFinset.card ≤ prefetchAheadChunks * pf.clientReads.length := by
  have inside : pf.queued.toFinset ⊆ (pf.clientReads.flatMap ClientRead.ahead).toFinset := by
    intro task member
    obtain ⟨r, read, caused⟩ := h.queued task (List.mem_toFinset.mp member)
    exact List.mem_toFinset.mpr (List.mem_flatMap.mpr ⟨r, read, caused⟩)
  have counted : (pf.clientReads.flatMap ClientRead.ahead).length = prefetchAheadChunks * pf.clientReads.length := by
    rw [List.length_flatMap]
    simp [ClientRead.ahead, mul_comm]
  calc pf.queued.toFinset.card
    _ ≤ (pf.clientReads.flatMap ClientRead.ahead).toFinset.card := Finset.card_le_card inside
    _ ≤ (pf.clientReads.flatMap ClientRead.ahead).length := List.toFinset_card_le _
    _ = prefetchAheadChunks * pf.clientReads.length := counted

/-- **Prefetching is bounded by the reads of clients** in every run in which only these start a prefetch: a
queued task lies in the 64 MiB after a client's read, and there are at most sixteen of them for each read. -/
theorem prefetches_bounded {now : Nat} {pf : Prefetcher} (run : Trace step ClientsStart (Prefetcher.new now) pf) :
    (∀ task ∈ pf.queued, ∃ r ∈ pf.clientReads, r.Reaches task) ∧
      pf.queued.toFinset.card ≤ prefetchAheadChunks * pf.clientReads.length := by
  have caused : Caused pf := run.invariant (fun _ _ h admitted => h.step admitted) (Caused.new now)
  refine ⟨fun task member => ?_, caused.card_queued_le⟩
  obtain ⟨r, read, ahead⟩ := caused.queued task member
  exact ⟨r, read, ClientRead.reaches_of_mem_ahead ahead⟩

/-- Two adjacent reads of one byte. -/
def twoReads : List Act := [.clientRead ⟨"h", 0, 1⟩, .clientRead ⟨"h", 1, 1⟩]

/-- A worker serves the first task while the others are still being queued. -/
def servedEarly : List Act :=
  twoReads ++ [.producer 0 false, .producer 0 false, .worker 0 false true, .worker 0 false true, .producer 0 false]

def early : Prefetcher := after step servedEarly (Prefetcher.new 0)

theorem prefetches_bounded_two_reads :
    early.queued.length = 3 ∧
      (∀ task ∈ early.queued, ∃ r ∈ early.clientReads, r.Reaches task) ∧
      early.queued.toFinset.card ≤ prefetchAheadChunks * early.clientReads.length := by
  have run : Trace step ClientsStart (Prefetcher.new 0) early :=
    Trace.of_list servedEarly _ (by decide)
  exact ⟨by decide, prefetches_bounded run⟩

/-- The goroutine has queued its sixteen tasks and is gone when a worker serves the first of them. The read of
the worker then starts the next prefetch, where that task ends. -/
def servedLate : List Act :=
  twoReads ++ List.replicate 18 (.producer 0 false) ++ [.worker 0 false true, .worker 0 false true] ++
    List.replicate 16 (.producer 0 false)

def late : Prefetcher := after step servedLate (Prefetcher.new 0)

/-- The clients have read up to 1 and up to 2. No task after them lies as far as 2 + 64 MiB. -/
theorem prefetch_beyond_client_reads :
    Trace step Interleaved (Prefetcher.new 0) late ∧
      late.clientReads = [⟨"h", 0, 1⟩, ⟨"h", 1, 1⟩] ∧
      ∃ task ∈ late.queued, task = ⟨"h", 2 + 64 * 1024 * 1024, 4 * 1024 * 1024⟩ ∧
        ∀ r ∈ late.clientReads, ¬ r.Reaches task :=
  ⟨Trace.of_list servedLate _ (by decide), by decide, by decide⟩

end Prefetcher

end Blobcache.Storage
