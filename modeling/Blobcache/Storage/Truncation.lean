import Blobcache.Storage.Integrity

/-!
# Short reads

A read that returns fewer bytes than asked for, without an error, should be at the end of
its object: readers take it for the end of the file. It is, as long as no chunk file is
read back while it is shorter than its chunk. `os.WriteFile` truncates the file before it
writes, also when the object is stored again, and a failed write leaves what it has
written, so such a file can be seen (`read_of_rewritten_chunk`); `getFromDiskCache` then
also keeps the short chunk in memory, where `Add` finds it and does not replace it.
-/

namespace Blobcache.Storage
set_option autoImplicit false
open Execution Interleaving Paging

/-- A chunk is as long as its page. -/
def LengthOfPage (cfg : Config) (content : String → Bytes) : ChunkPred := fun hash i bytes =>
  bytes.length = (page cfg.pageSizeBytes i (content hash)).length

/-- Nothing is known of what a chunk file holds. -/
def AnyBytes : ChunkPred := fun _ _ _ => True

/-- If the next step of the read loads a chunk file, the file is as long as its chunk. -/
def LoadsWhole (cfg : Config) (content : String → Bytes) (s : Cas) (f : GetFrame) : Prop :=
  f.pc = .disk → s.cache.get (f.key cfg) = none → ∀ bytes ∈ s.files f.hash (f.key cfg),
    bytes.length = (page cfg.pageSizeBytes (f.o.tdiv cfg.pageSizeBytes).toNat (content f.hash)).length

instance (cfg : Config) (content : String → Bytes) (s : Cas) (f : GetFrame) :
    Decidable (LoadsWhole cfg content s f) :=
  inferInstanceAs (Decidable (_ → _ → ∀ bytes ∈ _, _))

def Thread.LoadsWhole (cfg : Config) (content : String → Bytes) (s : Cas) : Thread → Prop
  | .get _ f none => Storage.LoadsWhole cfg content s f
  | _ => True

instance (cfg : Config) (content : String → Bytes) (s : Cas) :
    (thread : Thread) → Decidable (thread.LoadsWhole cfg content s)
  | .get _ f none => inferInstanceAs (Decidable (Storage.LoadsWhole cfg content s f))
  | .get _ _ (some _) => isTrue trivial
  | .add _ _ => isTrue trivial

/-- The actions of a run in which no read loads a file shorter than its chunk. -/
def WholeLoads (cfg : Config) (content : String → Bytes) (sys : System) (a : Act) : Prop :=
  CallSteps content sys a ∧
    ∀ t c thread, a = .move t c → sys.threads[t]? = some thread → thread.LoadsWhole cfg content sys.shared

/-- A short read reported without error happens only at the end of the object. -/
def NoSilentTruncation (content : String → Bytes) (sys : System) : Prop :=
  ∀ call frame n, Thread.get call frame (some (.ok n)) ∈ sys.threads → 0 ≤ call.offset → n < call.length →
    ((content call.hash).length : Int) ≤ call.offset + n

/-- A successful call has delivered all it was asked for, or has come to the end. -/
def EndsAtEnd (object : Bytes) (off len d : Nat) (_ : GetFrame) (r : GetResult) : Prop :=
  ∀ n, r = .ok n → n = d ∧ (d < len → object.length ≤ off + d)

variable {cfg : Config} {content : String → Bytes}

theorem LoadsWhole.loadable {s : Cas} {f : GetFrame} (whole : LoadsWhole cfg content s f) :
    Loadable cfg (LengthOfPage cfg content) AnyBytes s f := by
  intro pc absent i bytes file key _
  have length := whole pc absent bytes (by rw [key]; exact file)
  rwa [chunkKey_injective f.hash key, Int.toNat_natCast] at length

/-- A chunk as long as the page at the read position ends the read only at the end. -/
theorem Positioned.rule {hash : String} (small : (content hash).length < 2 ^ 63) (off len : Nat) :
    ReadRule cfg (LengthOfPage cfg content) Unknown hash off len (Positioned hash off len)
      (EndsAtEnd (content hash) off len) where
  positioned h := h
  to_disk h more := h.to_disk more
  absent _ _ _ := fun n ok => by cases ok
  finished _ := fun n ok => by
    cases ok
    exact ⟨rfl, fun less => by omega⟩
  chunk := by
    intro d f chunk h more length
    have split := Nat.div_add_mod (off + d) cfg.pageSizeBytes
    have inPage := Nat.mod_lt (off + d) cfg.positive
    have fits := cfg.fits
    rw [LengthOfPage, page_length, Nat.mul_comm] at length
    by_cases short : chunk.length ≤ (off + d) % cfg.pageSizeBytes
    · right
      refine ⟨_, consume_short h short, fun n ok => ?_⟩
      cases ok
      exact ⟨rfl, fun _ => by omega⟩
    · obtain ⟨k, count⟩ : ∃ k, k = min (len - d) (chunk.length - (off + d) % cfg.pageSizeBytes) := ⟨_, rfl⟩
      by_cases room : d + k ≤ f.dst.length
      · left
        obtain ⟨f', taken, positioned, pc, -, -⟩ :=
          consume_more h more (by omega) (by omega) count (by omega) room
        exact ⟨f', d + k, taken, positioned, by omega, pc⟩
      · -- a destination shorter than the request: the slice expression is out of bounds
        right
        refine ⟨.panic, ?_, fun n ok => by cases ok⟩
        rw [consume_reaches h more (by omega) (by omega) count (by omega), if_neg room]

/-- A call whose loop does not run: nothing was asked for. -/
structure Idle (f : GetFrame) : Prop where
  pc : f.pc = .loop
  none_left : f.remainingLength ≤ 0
  nothing : f.dstOffset = 0

theorem Idle.returns {f : GetFrame} {chunkAt : ChunkPred} {gone : String → Nat → Prop} (h : Idle f)
    {out : GetFrame ⊕ (GetFrame × GetResult)} (seen : GetSeen cfg chunkAt gone f out) :
    out = .inr (f, .ok 0) := by
  have none_left := h.none_left
  cases seen with
  | finished => rw [h.nothing]
  | miss _ left => omega
  | absent left => have := left h.pc; omega
  | chunk left => have := left h.pc; omega

/-- A call for a negative number of bytes has nothing to do, and reports nothing. -/
theorem Idle.reading {f : GetFrame} {chunkAt : ChunkPred} {gone : String → Nat → Prop} (h : Idle f)
    {out : GetFrame ⊕ (GetFrame × GetResult)} (seen : GetSeen cfg chunkAt gone f out) :
    Idle (frameOf out) ∧ ∀ n, resultOf out = some (.ok n) → n = 0 := by
  rw [h.returns seen]
  exact ⟨h, fun n ok => by cases ok; rfl⟩

theorem Idle.start {call : GetCall} (negative : call.length < 0) :
    Idle (GetFrame.start call.hash call.offset call.length call.dst) :=
  ⟨rfl, Int.le_of_lt negative, rfl⟩

/-- What holds of every call of a run. -/
def WholeThread (cfg : Config) (content : String → Bytes) : Thread → Prop
  | .add f result => result = none → Storing cfg content f
  | .get call f result =>
      (call.length < 0 → Idle f ∧ ∀ n, result = some (.ok n) → n = 0) ∧
      ∀ off len : Nat, call.offset = off → call.length = len →
        Reading (Positioned call.hash off len) (EndsAtEnd (content call.hash) off len) f result

theorem wholeThread_starts {thread : Thread} (starts : Starts content thread) : WholeThread cfg content thread := by
  cases starts with
  | add plain => exact fun _ => Storing.start plain.separators
  | get call =>
    constructor
    · exact fun negative => ⟨Idle.start negative, fun n none => by cases none⟩
    · intro off len offset length
      have inRange := call.length_inRange.2
      rw [offset, length]
      exact ⟨0, Positioned.start _ _ _ (by omega), fun r none => by cases none⟩

theorem wholeThread_add {c : AddChoice} {s : Cas} {f : AddFrame}
    (tiers : Tiers (LengthOfPage cfg content) AnyBytes s) (sound : WholeThread cfg content (.add f none)) :
    Tiers (LengthOfPage cfg content) AnyBytes (addStep cfg c s f).1 ∧
      WholeThread cfg content (.ofAdd f (addStep cfg c s f).2) := by
  have storing := sound rfl
  constructor
  · exact addStep_tiers tiers storing.plain (fun _ => by rw [storing.chunk]; rfl) (fun _ _ _ => trivial)
  · rcases out : addStep cfg c s f with ⟨s', f' | r⟩
    · exact fun _ => storing.step (by rw [out])
    · exact fun none => by cases none

theorem wholeThread_get {call : GetCall} {f : GetFrame} {out : GetFrame ⊕ (GetFrame × GetResult)}
    (small : (content call.hash).length < 2 ^ 63) (seen : GetSeen cfg (LengthOfPage cfg content) Unknown f out)
    (sound : WholeThread cfg content (.get call f none)) : WholeThread cfg content (.ofGet call out) := by
  obtain ⟨nothing, reads⟩ := sound
  constructor
  · exact fun negative => (nothing negative).1.reading seen
  · intro off len offset length
    exact (Positioned.rule small off len).reading (reads off len offset length) seen

/-- Both properties hold along every run that loads only whole chunk files. -/
theorem whole_run {sys : System} (small : ∀ hash, (content hash).length < 2 ^ 63)
    (run : Trace (System.step cfg) (WholeLoads cfg content) System.start sys) :
    Tiers (LengthOfPage cfg content) AnyBytes sys.shared ∧ ∀ thread ∈ sys.threads, WholeThread cfg content thread := by
  refine System.invariant ?_ ?_ ?_ ?_ run Tiers.fresh rfl
  · exact fun _ _ admitted => wholeThread_starts admitted.1
  · exact fun _ _ _ _ _ tiers sound => wholeThread_add tiers sound
  · exact fun _ t c _ _ admitted found => LoadsWhole.loadable (admitted.2 t c _ rfl found)
  · exact fun _ _ _ sound seen => wholeThread_get (small _) seen sound

/-- **No silent truncation**, in every run in which no chunk file is loaded that is not as
long as its chunk. -/
theorem no_silent_truncation {sys : System} (small : ∀ hash, (content hash).length < 2 ^ 63)
    (run : Trace (System.step cfg) (WholeLoads cfg content) System.start sys) : NoSilentTruncation content sys := by
  intro call frame n returned offset short
  obtain ⟨nothing, reads⟩ := (whole_run small run).2 _ returned
  have asked : 0 ≤ call.length := by
    by_contra negative
    have none := (nothing (by omega)).2 n rfl
    omega
  obtain ⟨off, offset⟩ := Int.eq_ofNat_of_zero_le offset
  obtain ⟨len, length⟩ := Int.eq_ofNat_of_zero_le asked
  obtain ⟨d, position, result⟩ := reads off len offset length
  obtain ⟨count, stops⟩ := result _ rfl n rfl
  have stopped := stops (by omega)
  omega

/-- An object of one byte, two bytes a page, is stored, and two bytes of it are read. -/
def storeAndReadOn : List Act :=
  .spawn (.startAdd "a" [7]) :: List.replicate 6 (.move 0 ⟨.finish .ok, false, ""⟩) ++
    .spawn (.startGet readTwo) :: List.replicate 4 (.move 1 ⟨.finish .ok, false, ""⟩)

theorem no_silent_truncation_at_end :
    Thread.get readTwo ⟨"a", 1, 1, 1, [7, 0], .disk⟩ (some (.ok 1)) ∈
        (after (System.step twoBytePages) storeAndReadOn System.start).threads ∧
      NoSilentTruncation (fun _ => [7]) (after (System.step twoBytePages) storeAndReadOn System.start) := by
  have loads : ∀ k : Fin storeAndReadOn.length,
      let sys := after (System.step twoBytePages) (storeAndReadOn.take k) System.start
      ∀ thread ∈ sys.threads, thread.LoadsWhole twoBytePages (fun _ => [7]) sys.shared := by
    decide
  refine ⟨by decide, no_silent_truncation (fun _ => by decide)
    (Trace.of_list storeAndReadOn System.start fun k => ⟨?_, fun t c thread _ found => ?_⟩)⟩
  · have member := List.get_mem storeAndReadOn k
    generalize storeAndReadOn.get k = a at member ⊢
    simp only [storeAndReadOn, List.cons_append, List.mem_cons, List.mem_append] at member
    rcases member with rfl | stores | rfl | reads
    · exact Starts.add (by decide)
    · rw [List.eq_of_mem_replicate stores]
      exact trivial
    · exact Starts.get _
    · rw [List.eq_of_mem_replicate reads]
      exact trivial
  · exact loads k thread (List.mem_of_getElem? found)

/-- An object of one byte, one byte a page, that is on disk but not in memory is stored
again; a read of it comes between the truncation of its chunk file and the write. -/
def restoreAndRead : List Act :=
  .spawn (.startAdd "a" [7]) :: List.replicate 6 (.move 0 ⟨.finish .ok, false, ""⟩) ++
    .env (.reject "a-0") :: .spawn (.startAdd "a" [7]) :: List.replicate 3 (.move 1 ⟨.finish .ok, false, ""⟩) ++
    .move 1 ⟨.part 0, false, ""⟩ :: .spawn (.startGet readOne) :: List.replicate 2 (.move 2 ⟨.finish .ok, false, ""⟩)

/-- The read returns `(0, nil)`, the end of the object to its caller, at the only byte. -/
theorem read_of_rewritten_chunk :
    ∃ sys, Trace (System.step oneBytePages) (CallSteps fun _ => [7]) System.start sys ∧
      ¬ NoSilentTruncation (fun _ => [7]) sys := by
  refine ⟨_, callSteps_run restoreAndRead System.start fun thread started => ?_, fun never => ?_⟩
  · obtain rfl | rfl : thread = .startAdd "a" [7] ∨ thread = .startGet readOne := by
      simpa [restoreAndRead] using started
    · exact .add (by decide)
    · exact .get readOne
  · exact absurd (never readOne ⟨"a", 0, 1, 0, [0], .disk⟩ 0 (by decide) (by decide)
      (by decide)) (by decide)

end Blobcache.Storage
