import Blobcache.Storage.Objects
import Blobcache.Storage.Truncation

/-!
# Changing the page size

A server that is started again finds the chunk files of the last one. Chunk files are named
by their index only, and `Get` looks for a byte by dividing by its own page size, which may
be another one by then: that of the configuration, or of the region's, which the server
adopts when it starts.

A chunk is in its place when its bytes stand in the object from the beginning of the page
on that the new page size gives to its index. Then every read is right; otherwise a new
server delivers other bytes without an error.
-/

namespace Blobcache.Storage
set_option autoImplicit false
open AdmissionCache Execution Int64Arith Interleaving Paging

/-- A new process on the same disk. -/
def Cas.restart (s : Cas) : Cas := { s with cache := Cache.empty, diskCachedUsageExceeded := false }

/-- Each page of the old size stands in the object also where the new page size looks for it, as
far as an offset reaches. -/
def FoundAgain (old new : Config) (object : Bytes) : Prop :=
  ∀ i, i * old.pageSizeBytes < object.length → i * new.pageSizeBytes < 2 ^ 63 →
    page old.pageSizeBytes i object <+: object.drop (i * new.pageSizeBytes)

/-- Every read of the object from a place that is not negative, once it has returned `(n, nil)`, has
put into the first `n` bytes of its destination those of the object from its offset on. -/
def ReadsRight (content : String → Bytes) (hash : String) (sys : System) : Prop :=
  ∀ call frame n, Thread.get call frame (some (.ok n)) ∈ sys.threads → call.hash = hash → 0 ≤ call.offset →
    0 ≤ n ∧ frame.dst.take n.toNat = ((content hash).drop call.offset.toNat).take n.toNat ∧
      (frame.dst.take n.toNat).length = n.toNat

/-! ## Chunks in their places -/

/-- The chunks of the object are in their places; nothing is said of other objects. -/
def InPlace (cfg : Config) (content : String → Bytes) (hash : String) : ChunkPred := fun other i bytes =>
  other = hash → i * cfg.pageSizeBytes < 2 ^ 63 → bytes <+: (content hash).drop (i * cfg.pageSizeBytes)

/-- The frame of a read that has copied `d` bytes of `object`. -/
structure Copied (object : Bytes) (hash : String) (off len d : Nat) (f : GetFrame) : Prop
    extends Positioned hash off len d f where
  room : d ≤ f.dst.length
  bytes : f.dst.take d = (object.drop off).take d

variable {cfg old new : Config} {content : String → Bytes} {hash : String}

theorem PrefixOfPage.inPlace {other : String} {i : Nat} {bytes : Bytes}
    (cut : PrefixOfPage cfg content other i bytes) : InPlace cfg content hash other i bytes := by
  rintro rfl -
  exact List.IsPrefix.trans cut (List.take_prefix _ _)

/-- What the old process has left, after the restart. -/
theorem restart_inPlace {s : Cas} (tiers : Tiers (PrefixOfPage old content) (PrefixOfPage old content) s)
    (found : FoundAgain old new (content hash)) :
    Tiers (InPlace new content hash) (InPlace new content hash) s.restart := by
  refine ⟨Cache.All.empty, fun other key bytes held => ?_⟩
  obtain ⟨plain, i, named, cut⟩ := tiers.disk other key bytes held
  refine ⟨plain, i, named, ?_⟩
  rintro rfl inRange
  by_cases inside : i * old.pageSizeBytes < (content other).length
  · exact List.IsPrefix.trans cut (found i inside inRange)
  · -- past the end there is nothing in the file
    have empty : page old.pageSizeBytes i (content other) = [] := by
      rw [page, List.drop_eq_nil_of_le (by omega), List.take_nil]
    rw [PrefixOfPage, empty, List.prefix_nil] at cut
    rw [cut]
    exact List.nil_prefix

theorem Copied.rule (small : (content hash).length < 2 ^ 63) {off : Nat} (inRange : off < 2 ^ 63) (len : Nat) :
    ReadRule cfg (InPlace cfg content hash) Unknown hash off len (Copied (content hash) hash off len)
      fun d _ r => ∀ n, r = .ok n → n = d where
  positioned h := h.toPositioned
  to_disk h more := ⟨h.toPositioned.to_disk more, h.room, h.bytes⟩
  absent _ _ _ := fun n ok => by cases ok
  finished _ := fun n ok => by cases ok; rfl
  chunk := by
    intro d f chunk h more placed
    -- bytes have been copied up to here, so the position is inside the object or at the offset
    have reached : off + d < 2 ^ 63 := by
      have length := congrArg List.length h.bytes
      have room := h.room
      rw [List.length_take, List.length_take, List.length_drop] at length
      omega
    have begins := Nat.div_mul_le_self (off + d) cfg.pageSizeBytes
    have cut := placed rfl (by omega)
    obtain ⟨f', k, taken, positioned, some_read, pc, room, sameRoom, copied⟩ | stop | ⟨panics, -⟩ :=
      h.toPositioned.copies small more cut
    · refine .inl ⟨f', d + k, taken, ⟨positioned, by omega, ?_⟩, by omega, pc⟩
      rw [copied, h.bytes, List.take_add, List.drop_drop]
    · exact .inr ⟨_, stop, fun n ok => by cases ok; rfl⟩
    · exact .inr ⟨_, panics, fun n ok => by cases ok⟩

/-! ## Every run of the new process -/

/-- What holds of every call of a run. -/
def PlacedThread (cfg : Config) (content : String → Bytes) (hash : String) : Thread → Prop
  | .add f result => SoundThread cfg content (.add f result)
  | .get call f result => call.hash = hash →
      (call.length < 0 → Idle f ∧ ∀ n, result = some (.ok n) → n = 0) ∧
      ∀ off len : Nat, call.offset = off → call.length = len →
        Reading (Copied (content hash) hash off len) (fun d _ r => ∀ n, r = .ok n → n = d) f result

theorem placedThread_starts {thread : Thread} (starts : Starts content thread) :
    PlacedThread cfg content hash thread := by
  cases starts with
  | add plain => exact soundThread_starts (.add plain)
  | get call =>
    rintro rfl
    constructor
    · exact fun negative => ⟨Idle.start negative, fun n none => by cases none⟩
    · intro off len offset length
      have inRange := call.length_inRange.2
      rw [offset, length]
      exact ⟨0, ⟨Positioned.start _ _ _ (by omega), Nat.zero_le _, by simp⟩, fun r none => by cases none⟩

theorem placedThread_add {c : AddChoice} {s : Cas} {f : AddFrame} (finishes : ∃ result, c.write = .finish result)
    (tiers : Tiers (InPlace cfg content hash) (InPlace cfg content hash) s)
    (sound : PlacedThread cfg content hash (.add f none)) :
    Tiers (InPlace cfg content hash) (InPlace cfg content hash) (addStep cfg c s f).1 ∧
      PlacedThread cfg content hash (.ofAdd f (addStep cfg c s f).2) := by
  obtain ⟨storing, unbroken⟩ := sound rfl
  have page_of : PrefixOfPage cfg content f.hash (f.chunkIdx cfg) (f.chunk cfg) := by
    rw [storing.chunk]
    exact List.prefix_rfl
  refine ⟨addStep_tiers tiers storing.plain (fun _ => page_of.inPlace)
    (fun _ _ at_file => (prefix_of_finished storing unbroken at_file).inPlace), ?_⟩
  have next : SoundThread cfg content (.ofAdd f (addStep cfg c s f).2) := soundThread_next finishes sound
  rcases out : (addStep cfg c s f).2 with f' | r
  · rw [out] at next
    exact next
  · exact fun none => by cases none

theorem placedThread_get {call : GetCall} {f : GetFrame} {out : GetFrame ⊕ (GetFrame × GetResult)}
    (small : (content hash).length < 2 ^ 63) (seen : GetSeen cfg (InPlace cfg content hash) Unknown f out)
    (sound : PlacedThread cfg content hash (.get call f none)) : PlacedThread cfg content hash (.ofGet call out) := by
  intro same
  obtain ⟨nothing, reads⟩ := sound same
  constructor
  · exact fun negative => (nothing negative).1.reading seen
  · intro off len offset length
    have inRange := call.offset_inRange.2
    exact (Copied.rule small (by omega) len).reading (reads off len offset length) seen

/-- Both properties hold along every run of the new process. -/
theorem placed_run {start later : System} (small : (content hash).length < 2 ^ 63)
    (run : Trace (System.step cfg) (ChunkSteps content) start later)
    (tiers : Tiers (InPlace cfg content hash) (InPlace cfg content hash) start.shared) (none : start.threads = []) :
    Tiers (InPlace cfg content hash) (InPlace cfg content hash) later.shared ∧
      ∀ thread ∈ later.threads, PlacedThread cfg content hash thread := by
  refine System.invariant ?_ ?_ ?_ ?_ run tiers none
  · exact fun _ _ starts => placedThread_starts starts
  · exact fun _ _ _ _ finishes tiers sound => placedThread_add finishes tiers sound
  · exact fun p _ _ _ f _ _ => Loadable.same cfg (InPlace cfg content hash) p.shared f
  · exact fun _ _ _ sound seen => placedThread_get small seen sound

/-- With every chunk in its place all reads are right. -/
theorem placed_reads {start later : System} (small : (content hash).length < 2 ^ 63)
    (run : Trace (System.step cfg) (ChunkSteps content) start later)
    (tiers : Tiers (InPlace cfg content hash) (InPlace cfg content hash) start.shared) (none : start.threads = []) :
    ReadsRight content hash later := by
  rintro call frame n returned rfl offset
  obtain ⟨nothing, reads⟩ := (placed_run small run tiers none).2 _ returned rfl
  rcases lt_or_ge call.length 0 with negative | asked
  · rw [(nothing negative).2 n rfl]
    exact ⟨Int.le_refl 0, by simp, by simp⟩
  · obtain ⟨off, offset⟩ := Int.eq_ofNat_of_zero_le offset
    obtain ⟨len, length⟩ := Int.eq_ofNat_of_zero_le asked
    obtain ⟨d, copied, result⟩ := reads off len offset length
    rw [result _ rfl n rfl, offset, Int.toNat_natCast, Int.toNat_natCast, List.length_take]
    exact ⟨Int.natCast_nonneg d, copied.bytes, Nat.min_eq_left copied.room⟩

/-! ## A read by the new process -/

/-- A read of the first `k` bytes of a chunk file. -/
def readChunk (cfg : Config) (hash : String) (i k : Nat) (offset : i * cfg.pageSizeBytes < 2 ^ 63) (length : k < 2 ^ 63) :
    GetCall :=
  ⟨hash, (i * cfg.pageSizeBytes : Nat), k, List.replicate k 0, inRange_natCast offset, inRange_natCast length⟩

/-- A read that is alone finds its chunk on disk, copies it and returns. -/
theorem reads_alone (content : String → Bytes) (call : GetCall) {s t : Cas} {f f' : GetFrame} {n : Int}
    (begun : f = GetFrame.start call.hash call.offset call.length call.dst)
    (missed : getStep cfg false s f = (s, .inl { f with pc := .disk }))
    (loaded : getStep cfg false s { f with pc := .disk } = (t, .inl f'))
    (finished : getStep cfg false t f' = (t, .inr (f', .ok n))) :
    Trace (System.step cfg) (ChunkSteps content) ⟨s, []⟩ ⟨t, [.get call f' (some (.ok n))]⟩ := by
  have moves {s' : Cas} {g : GetFrame} {out : Cas × (GetFrame ⊕ (GetFrame × GetResult))}
      (step : getStep cfg false s' g = out) :
      Trace (System.step cfg) (ChunkSteps content) ⟨s', [.get call g none]⟩ ⟨out.1, [.ofGet call out.2]⟩ := by
    have admitted (sys : System) : ChunkSteps content sys (.move 0 ⟨.finish .ok, false, ""⟩) := ⟨_, rfl⟩
    have one : Trace (System.step cfg) (ChunkSteps content) _ _ :=
      (Trace.refl _).tail _ (admitted ⟨s', [.get call g none]⟩)
    simpa only [System.step, Pool.step, List.getElem?_cons_zero, List.set_cons_zero, move, step] using one
  have spawned : Trace (System.step cfg) (ChunkSteps content) ⟨s, []⟩ ⟨s, [.get call f none]⟩ := by
    have admitted : ChunkSteps content ⟨s, []⟩ (.spawn (.startGet call)) := Starts.get call
    rw [begun]
    exact (Trace.refl _).tail _ admitted
  exact ((spawned.trans (moves missed)).trans (moves loaded)).trans (moves finished)

/-- A new process delivers what the file holds, wherever the object has it. -/
theorem reads_file (cfg : Config) (content : String → Bytes) {s : Cas} {i k : Nat} {bytes : Bytes}
    (file : s.files hash (chunkKey hash i) = some bytes) (offset : i * cfg.pageSizeBytes < 2 ^ 63) (some_read : 0 < k)
    (inFile : k ≤ bytes.length) (size : bytes.length < 2 ^ 63) :
    ∃ later frame, Trace (System.step cfg) (ChunkSteps content) ⟨s.restart, []⟩ later ∧
      Thread.get (readChunk cfg hash i k offset (by omega)) frame (some (.ok k)) ∈ later.threads ∧
      frame.dst = bytes.take k := by
  obtain ⟨begun, isBegun⟩ : ∃ f, f = GetFrame.start hash (i * cfg.pageSizeBytes : Nat) k (List.replicate k 0) := ⟨_, rfl⟩
  obtain ⟨looks, isLooks⟩ : ∃ f : GetFrame, f = { begun with pc := .disk } := ⟨_, rfl⟩
  have position : Positioned hash (i * cfg.pageSizeBytes) k 0 looks := by
    rw [isLooks, isBegun]
    exact (Positioned.start hash _ _ (by omega)).to_disk some_read
  have key : looks.key cfg = chunkKey hash i := by
    rw [GetFrame.key, position.index cfg, position.of_hash, Nat.add_zero, Nat.mul_div_cancel _ cfg.positive]
  have missed : getStep cfg false s.restart begun = (s.restart, .inl { begun with pc := .disk }) := by
    refine getStep_miss (by rw [isBegun]; rfl) ?_ rfl
    rw [isBegun]
    exact Int.natCast_pos.mpr some_read
  obtain ⟨copied, isCopied⟩ : ∃ f : GetFrame, f = { looks with
      pc := .loop, remainingLength := 0, o := wrap ((i * cfg.pageSizeBytes : Nat) + (k : Int)), dstOffset := k,
      dst := bytes.take k } := ⟨_, rfl⟩
  have consumed : looks.consume cfg (.chunk hash bytes) = .inl copied := by
    have aligned : (i * cfg.pageSizeBytes + 0) % cfg.pageSizeBytes = 0 := by
      rw [Nat.add_zero, Nat.mul_mod_left]
    have room : looks.dst.length = k := by
      rw [isLooks, isBegun]
      exact List.length_replicate
    rw [consume_copies (k := k) position some_read (by rw [aligned]; omega) size (by rw [aligned]; omega),
      if_pos (by omega), aligned, isCopied]
    simp only [Nat.zero_add, Nat.add_zero, Nat.sub_self, List.take_zero, List.nil_append, List.drop_zero,
      List.drop_eq_nil_of_le (Nat.le_of_eq room), List.append_nil, Int.natCast_zero]
  have loaded : (getStep cfg false s.restart looks).2 = .inl copied := by
    rw [← consumed, ← position.of_hash]
    refine getStep_loaded (by rw [isLooks]) rfl ?_
    rw [key, position.of_hash]
    exact file
  have finished : ∀ t, getStep cfg false t copied = (t, .inr (copied, .ok k)) := by
    intro t
    rw [getStep_finished (by rw [isCopied]) (by rw [isCopied])]
    rw [isCopied]
  have run := reads_alone content (readChunk cfg hash i k offset (by omega)) isBegun missed
    (Prod.ext rfl (by rw [← isLooks]; exact loaded)) (finished _)
  exact ⟨_, copied, run, List.mem_singleton_self _, by rw [isCopied]⟩

/-! ## When the page size may change -/

/-- **When content survives a change of the page size.** An old process has stored the object with all its
chunks on disk. Then every read of a new process with another page size is right, in every run in
which file writes are seen whole, exactly if each page of the old size is found again where the new
one looks for it. -/
theorem survives_page_size_iff {last : System} (small : ∀ hash, (content hash).length < 2 ^ 63)
    (run : Trace (System.step old) (ChunkSteps content) System.start last)
    (stored : OnDisk old content hash last.shared) :
    (∀ later, Trace (System.step new) (ChunkSteps content) ⟨last.shared.restart, []⟩ later →
        ReadsRight content hash later) ↔ FoundAgain old new (content hash) := by
  constructor
  · intro right i inside inRange
    have length : (page old.pageSizeBytes i (content hash)).length < 2 ^ 63 := by
      have := small hash
      rw [page_length]
      omega
    have some_bytes : 0 < (page old.pageSizeBytes i (content hash)).length := by
      have := old.positive
      rw [page_length]
      omega
    -- a read that goes one byte beyond what the object has there, if the file does
    obtain ⟨k, count⟩ : ∃ k, k = min (page old.pageSizeBytes i (content hash)).length
        (((content hash).drop (i * new.pageSizeBytes)).length + 1) := ⟨_, rfl⟩
    obtain ⟨later, frame, run, returned, delivered⟩ := reads_file new content (stored i inside) inRange
      (k := k) (by omega) (by omega) length
    obtain ⟨-, same, all⟩ := right later run _ frame k returned rfl (Int.natCast_nonneg _)
    simp only [readChunk, Int.toNat_natCast, delivered, List.take_take, Nat.min_self] at same all
    rw [same, List.length_take] at all
    rw [List.prefix_iff_eq_take]
    have whole : k = (page old.pageSizeBytes i (content hash)).length := by omega
    rw [← whole, ← same, List.take_of_length_le (Nat.le_of_eq whole.symm)]
  · intro found later run'
    exact placed_reads (small hash) run' (restart_inPlace (sound_run small run).1 found) rfl

/-- A store of an object under the hash `a` by a process that does nothing else. -/
def storeOnly (object : Bytes) (steps : Nat) : List Act :=
  .spawn (.startAdd "a" object) :: List.replicate steps (.move 0 ⟨.finish .ok, false, ""⟩)

theorem storeOnly_run (object : Bytes) (steps : Nat) : Trace (System.step cfg) (ChunkSteps fun _ => object) System.start
    (after (System.step cfg) (storeOnly object steps) System.start) := by
  refine Trace.of_list _ System.start fun k => ?_
  have member := List.get_mem (storeOnly object steps) k
  generalize (storeOnly object steps).get k = a at member ⊢
  rcases List.mem_cons.mp member with rfl | moves
  · exact show Starts (fun _ => object) (.startAdd "a" object) from Starts.add (by decide)
  · rw [List.eq_of_mem_replicate moves]
    exact ⟨_, rfl⟩

/-- An object of one byte fits into a page of either size. -/
theorem survives_page_size_one_byte :
    ∃ last : System, OnDisk twoBytePages (fun _ => [5]) "a" last.shared ∧
      ∀ later, Trace (System.step oneBytePages) (ChunkSteps fun _ => [5]) ⟨last.shared.restart, []⟩ later →
        ReadsRight (fun _ => [5]) "a" later := by
  have only_one {i P : Nat} (positive : 0 < P) (inside : i * P < 1) : i = 0 := by
    rcases Nat.mul_eq_zero.mp (Nat.lt_one_iff.mp inside) with zero | zero
    · exact zero
    · omega
  have stored : OnDisk twoBytePages (fun _ => [5]) "a"
      (after (System.step twoBytePages) (storeOnly [5] 6) System.start).shared := by
    intro i inside
    cases only_one twoBytePages.positive inside
    decide
  refine ⟨_, stored, (survives_page_size_iff (fun _ => by decide) (storeOnly_run [5] 6) stored).mpr fun i inside _ => ?_⟩
  cases only_one twoBytePages.positive inside
  decide

def readSecond : GetCall := ⟨"a", 1, 1, [0], inRange_one, inRange_one⟩

/-- Three bytes stored in pages of two are read in pages of one. The second byte is looked for at the
beginning of the second file, which holds the third. -/
theorem misread_after_restart :
    ∃ last later : System, ∃ frame,
      Trace (System.step twoBytePages) (ChunkSteps fun _ => [1, 2, 3]) System.start last ∧
      OnDisk twoBytePages (fun _ => [1, 2, 3]) "a" last.shared ∧
      Trace (System.step oneBytePages) (ChunkSteps fun _ => [1, 2, 3]) ⟨last.shared.restart, []⟩ later ∧
      Thread.get readSecond frame (some (.ok 1)) ∈ later.threads ∧ frame.dst = [3] ∧
      ¬ ReadsRight (fun _ => [1, 2, 3]) "a" later := by
  have stored : OnDisk twoBytePages (fun _ => [1, 2, 3]) "a"
      (after (System.step twoBytePages) (storeOnly [1, 2, 3] 9) System.start).shared := by
    intro i inside
    have cases : i = 0 ∨ i = 1 := by
      have : i * 2 < 3 := inside
      omega
    rcases cases with rfl | rfl
    · decide
    · decide
  obtain ⟨later, frame, run, returned, delivered⟩ := reads_file oneBytePages (fun _ => [1, 2, 3])
    (k := 1) (stored 1 (by decide)) (by decide) (by decide) (by decide) (by decide)
  refine ⟨_, later, frame, storeOnly_run [1, 2, 3] 9, stored, run, returned, delivered, fun right => ?_⟩
  have wrong := (right _ frame 1 returned rfl (by decide)).2.1
  rw [delivered] at wrong
  exact absurd wrong (by decide)

end Blobcache.Storage
