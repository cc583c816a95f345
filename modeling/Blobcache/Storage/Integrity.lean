import Blobcache.Storage.System

/-!
# Integrity of reads

At chunk granularity every chunk in either tier is a prefix of its page: a store writes
whole pages or, when it fails, a prefix, a reload copies a file, and the memory cache's
policy invents nothing. A call of `Get` therefore delivers bytes of its object, in place,
whatever runs in between: a chunk found short makes the loop come back to the same chunk
at the position where it ended, so no byte is skipped.
-/

namespace Blobcache.Storage
set_option autoImplicit false
open Execution Interleaving Paging

/-- A chunk is a prefix of its page. -/
def PrefixOfPage (cfg : Config) (content : String → Bytes) : ChunkPred := fun hash i bytes =>
  bytes <+: page cfg.pageSizeBytes i (content hash)

/-- The frame of a read that has put `d` bytes of `object` into its destination. -/
structure Delivered (object : Bytes) (hash : String) (off len d : Nat) (f : GetFrame) : Prop
    extends Positioned hash off len d f where
  room : len ≤ f.dst.length
  bytes : f.dst.take d = (object.drop off).take d

/-- A successful call returns the number of bytes delivered. -/
def Counts (d : Nat) (_ : GetFrame) (r : GetResult) : Prop := ∀ n, r = .ok n → n = d

variable {cfg : Config} {content : String → Bytes}

/-- A chunk whose bytes stand in the object from the beginning of the page on extends what was
copied, or ends the read; it panics if the destination has too little room. -/
theorem Positioned.copies {object : Bytes} {hash : String} {off len d : Nat} {f : GetFrame} {chunk : Bytes}
    (small : object.length < 2 ^ 63) (h : Positioned hash off len d f) (more : d < len)
    (cut : chunk <+: object.drop ((off + d) / cfg.pageSizeBytes * cfg.pageSizeBytes)) :
    (∃ f' k, f.consume cfg (.chunk hash chunk) = .inl f' ∧ Positioned hash off len (d + k) f' ∧ 0 < k ∧
      f'.pc = .loop ∧ d + k ≤ f.dst.length ∧ f'.dst.length = f.dst.length ∧
      f'.dst.take (d + k) = f.dst.take d ++ (object.drop (off + d)).take k) ∨
    f.consume cfg (.chunk hash chunk) = .inr (f, .ok d) ∨
    f.consume cfg (.chunk hash chunk) = .inr (f, .panic) ∧ f.dst.length < len := by
  by_cases short : chunk.length ≤ (off + d) % cfg.pageSizeBytes
  · exact .inr (.inl (consume_short h short))
  obtain ⟨k, count⟩ : ∃ k, k = min (len - d) (chunk.length - (off + d) % cfg.pageSizeBytes) := ⟨_, rfl⟩
  have inChunk : (off + d) % cfg.pageSizeBytes + k ≤ chunk.length := by omega
  have inside := le_length_of_prefix_drop cut inChunk (by omega)
  have length := cut.length_le
  rw [List.length_drop] at length
  by_cases room : d + k ≤ f.dst.length
  · left
    obtain ⟨f', taken, positioned, pc, sameRoom, copied⟩ :=
      consume_more h more (by omega) (by omega) count (by omega) room
    refine ⟨f', k, taken, positioned, by omega, pc, room, sameRoom, ?_⟩
    rw [copied, take_of_prefix_drop cut inChunk]
  · right; right
    rw [consume_reaches h more (by omega) (by omega) count (by omega), if_neg room]
    exact ⟨rfl, by omega⟩

/-- A prefix of the page at the read position extends what was delivered, or ends the read. -/
theorem Delivered.consume {object : Bytes} {hash : String} {off len d : Nat} {f : GetFrame} {chunk : Bytes}
    (small : object.length < 2 ^ 63) (h : Delivered object hash off len d f) (more : d < len)
    (cut : chunk <+: page cfg.pageSizeBytes ((off + d) / cfg.pageSizeBytes) object) :
    (∃ f' d', f.consume cfg (.chunk hash chunk) = .inl f' ∧ Delivered object hash off len d' f' ∧
      d < d' ∧ f'.pc = .loop) ∨ f.consume cfg (.chunk hash chunk) = .inr (f, .ok d) := by
  have space := h.room
  obtain ⟨f', k, taken, positioned, some_read, pc, _, sameRoom, copied⟩ | stop | ⟨-, noRoom⟩ :=
    h.toPositioned.copies small more (cut.trans (List.take_prefix _ _))
  · refine .inl ⟨f', d + k, taken, ⟨positioned, by omega, ?_⟩, by omega, pc⟩
    rw [copied, h.bytes, List.take_add, List.drop_drop]
  · exact .inr stop
  · omega

theorem Delivered.rule {hash : String} (small : (content hash).length < 2 ^ 63) (off len : Nat) :
    ReadRule cfg (PrefixOfPage cfg content) Unknown hash off len (Delivered (content hash) hash off len) Counts where
  positioned h := h.toPositioned
  to_disk h more := ⟨h.toPositioned.to_disk more, h.room, h.bytes⟩
  chunk h more cut := by
    rcases h.consume small more cut with next | stop
    · exact .inl next
    · exact .inr ⟨_, stop, fun n ok => by cases ok; rfl⟩
  absent _ _ _ := fun n ok => by cases ok
  finished _ := fun n ok => by cases ok; rfl

/-- What holds of every call of a run. -/
def SoundThread (cfg : Config) (content : String → Bytes) : Thread → Prop
  | .add f result => result = none → Storing cfg content f ∧ ∀ pos, f.pc ≠ .writing pos
  | .get call f result =>
      ∀ off len : Nat, call.offset = off → call.length = len → len ≤ call.dst.length →
        Reading (Delivered (content call.hash) call.hash off len) Counts f result

theorem soundThread_starts {thread : Thread} (starts : Starts content thread) : SoundThread cfg content thread := by
  cases starts with
  | add plain => exact fun _ => ⟨Storing.start plain.separators, fun _ pc => by cases pc⟩
  | get call =>
    intro off len offset length room
    have inRange := call.length_inRange.2
    rw [offset, length]
    exact ⟨0, ⟨Positioned.start _ _ _ (by omega), room, by simp⟩, fun r none => by cases none⟩

/-- A write that is carried through leaves a prefix of the page. -/
theorem prefix_of_finished {c : AddChoice} {s : Cas} {f : AddFrame} (storing : Storing cfg content f)
    (unbroken : ∀ pos, f.pc ≠ .writing pos) {file : Bytes} {pos : Nat}
    (at_file : AtFile cfg s f file pos) :
    PrefixOfPage cfg content f.hash (f.chunkIdx cfg) (writeAt file pos (c.write.data ((f.chunk cfg).drop pos))) := by
  cases at_file with
  | resumed pc => exact absurd pc (unbroken _)
  | truncated =>
    rw [writeAt_nil, List.drop_zero, PrefixOfPage, storing.chunk]
    unfold WriteStep.data
    split
    · exact List.prefix_rfl
    · exact List.take_prefix _ _
    · exact List.take_prefix _ _

/-- A step of a store keeps every chunk a prefix of its page. -/
theorem soundThread_next {c : AddChoice} {s : Cas} {f : AddFrame} (finishes : ∃ result, c.write = .finish result)
    (sound : SoundThread cfg content (.add f none)) : SoundThread cfg content (.ofAdd f (addStep cfg c s f).2) := by
  obtain ⟨storing, unbroken⟩ := sound rfl
  rcases out : addStep cfg c s f with ⟨s', f' | r⟩
  · have next : (addStep cfg c s f).2 = .inl f' := by rw [out]
    exact fun _ => ⟨storing.step next, unbroken_step finishes next⟩
  · exact fun none => by cases none

theorem soundThread_add {c : AddChoice} {s : Cas} {f : AddFrame} (finishes : ∃ result, c.write = .finish result)
    (tiers : Tiers (PrefixOfPage cfg content) (PrefixOfPage cfg content) s)
    (sound : SoundThread cfg content (.add f none)) :
    Tiers (PrefixOfPage cfg content) (PrefixOfPage cfg content) (addStep cfg c s f).1 ∧
      SoundThread cfg content (.ofAdd f (addStep cfg c s f).2) := by
  obtain ⟨storing, unbroken⟩ := sound rfl
  refine ⟨addStep_tiers tiers storing.plain (fun _ => by rw [storing.chunk]; exact List.prefix_rfl)
    (fun _ _ at_file => prefix_of_finished storing unbroken at_file), soundThread_next finishes sound⟩

/-- Both properties hold along every run. -/
theorem sound_run {sys : System} (small : ∀ hash, (content hash).length < 2 ^ 63)
    (run : Trace (System.step cfg) (ChunkSteps content) System.start sys) :
    Tiers (PrefixOfPage cfg content) (PrefixOfPage cfg content) sys.shared ∧
      ∀ thread ∈ sys.threads, SoundThread cfg content thread := by
  refine System.invariant ?_ ?_ ?_ ?_ run Tiers.fresh rfl
  · exact fun _ _ starts => soundThread_starts starts
  · exact fun _ _ _ _ finishes tiers sound => soundThread_add finishes tiers sound
  · exact fun p _ _ _ f _ _ => Loadable.same cfg (PrefixOfPage cfg content) p.shared f
  · intro call f out sound seen off len offset length room
    exact (Delivered.rule (small _) off len).reading (sound off len offset length room) seen

/-- **Integrity of every read.** In every run at chunk granularity a call of `Get` that
returns `(n, nil)` has put into the first `n` bytes of its destination the bytes of its
object from its offset on. -/
theorem get_returns_content {sys : System} (small : ∀ hash, (content hash).length < 2 ^ 63)
    (run : Trace (System.step cfg) (ChunkSteps content) System.start sys)
    {call : GetCall} {frame : GetFrame} {n : Int} (returned : Thread.get call frame (some (.ok n)) ∈ sys.threads)
    (offset : 0 ≤ call.offset) (length : 0 ≤ call.length) (room : call.length ≤ call.dst.length) :
    0 ≤ n ∧ n ≤ call.length ∧
      frame.dst.take n.toNat = ((content call.hash).drop call.offset.toNat).take n.toNat ∧
      (frame.dst.take n.toNat).length = n.toNat := by
  have reads := (sound_run small run).2 _ returned
  obtain ⟨off, offset⟩ := Int.eq_ofNat_of_zero_le offset
  obtain ⟨len, length⟩ := Int.eq_ofNat_of_zero_le length
  rw [length] at room
  obtain ⟨d, delivered, result⟩ := reads off len offset length (by omega)
  have count := result _ rfl n rfl
  subst count
  have bound := delivered.bound
  have space := delivered.room
  refine ⟨by omega, by omega, ?_, ?_⟩
  · rw [offset]; exact delivered.bytes
  · simp only [Int.toNat_natCast, List.length_take]; omega

/-- A store of one byte, one byte a page, and a read of it from disk: the offer to the
memory cache is still pending. -/
def storeAndRead : List Act :=
  .spawn (.startAdd "a" [7]) :: List.replicate 6 (.move 0 ⟨.finish .ok, false, ""⟩) ++
    .spawn (.startGet readOne) :: List.replicate 3 (.move 1 ⟨.finish .ok, false, ""⟩)

theorem get_returns_content_stored :
    ∃ frame, Thread.get readOne frame (some (.ok 1)) ∈
        (after (System.step oneBytePages) storeAndRead System.start).threads ∧ frame.dst.take 1 = [7] := by
  have returned : Thread.get readOne ⟨"a", 1, 0, 1, [7], .loop⟩ (some (.ok 1)) ∈
      (after (System.step oneBytePages) storeAndRead System.start).threads := by
    decide
  refine ⟨_, returned, ?_⟩
  have run : Trace _ (ChunkSteps fun _ => [7]) System.start
      (after (System.step oneBytePages) storeAndRead System.start) :=
    Trace.of_list storeAndRead System.start ?_
  · exact (get_returns_content (fun _ => by decide) run returned (by decide) (by decide) (by decide)).2.2.1
  · intro k
    have member := List.get_mem storeAndRead k
    generalize storeAndRead.get k = a at member ⊢
    simp only [storeAndRead, List.cons_append, List.mem_cons, List.mem_append] at member
    rcases member with rfl | stores | rfl | reads
    · exact Starts.add (by decide)
    · rw [List.eq_of_mem_replicate stores]
      exact ⟨_, rfl⟩
    · exact Starts.get _
    · rw [List.eq_of_mem_replicate reads]
      exact ⟨_, rfl⟩

end Blobcache.Storage
