import Blobcache.Server.Content
import Blobcache.Storage.EndOfObject

/-!
# Streaming and unary reads

`GetContentStream` reads pieces of 4 MiB over pages of `PageSizeBytes`, and stops at an
empty piece, at a short one or at an error. Over a storage that shows the same chunks
throughout, both handlers are the abstract read of these chunks: the stream because a read
splits into a shorter one and a read of the rest (`Paging.read_add`). When the read fails,
the stream has sent what is stored before the first missing chunk, as far as it fills
whole pieces (`Paging.read_eq_none`).

The one difference is the buffer. `GetContent` allocates the length it is asked for, and
panics if that is too long, where the stream, which reads into a buffer of fixed length,
answers (`unary_panics_where_stream_answers`).
-/

namespace Blobcache.Server
set_option autoImplicit false
open AdmissionCache Execution Int64Arith Paging Storage

/-- Nothing happens during the call. -/
def Undisturbed (sched : Nat → Around Bool) : Prop := ∀ n, (sched n).before = []

/-- No piece is disturbed and no `Send` fails. -/
structure Delivering (pieces : Nat → Piece) : Prop where
  undisturbed : ∀ i, Undisturbed (pieces i).get
  sends : ∀ i, (pieces i).sendError = none

/-- What the storage shows of an object stays as it is when a call loads its chunks. -/
theorem steady_undisturbed {sched : Nat → Around Bool} (undisturbed : Undisturbed sched) (hash : String)
    (tbl : Table UInt8) : Steady sched hash tbl (fun s => ∀ i, s.lookup hash i = tbl i) where
  shows h := h
  envs n h := by rw [undisturbed n]; exact h
  lists n i keys _ listed := by rw [undisturbed n] at listed; exact listed
  load := by
    intro s i content refused shows hidden file j
    have there : tbl i = some content := by rw [← shows i, Cas.lookup, hidden]; exact file
    by_cases same : j = i
    · subst same
      rw [there, Cas.lookup]
      rcases Cache.get_put_hidden hidden refused false (.chunk hash content) with still | seen
      · rw [still]; exact file
      · rw [seen]
    · have other : chunkKey hash j ≠ chunkKey hash i := fun key => same (Int.ofNat.inj (chunkKey_injective hash key))
      rw [← shows j, Cas.lookup, Cas.lookup]
      rw [Cache.get_put_other _ _ _ _ other]

variable {maxAlloc : Nat} {cfg : Config} {hash : String} {tbl : Table UInt8} {off len : Nat} {s : Cas}

/-- The loop of the stream after `d` bytes: what was sent is the read of the first `d` bytes. -/
structure Streamed (cfg : Config) (tbl : Table UInt8) (hash : String) (off len d : Nat) (f : StreamFrame) : Prop where
  of_hash : f.hash = hash
  offset : f.offset = (off + d : Nat)
  remaining : f.remainingLength = (len - d : Nat)
  bound : d ≤ len
  room : f.dst.length = getContentStreamChunkSize
  sent : read cfg.pageSizeBytes tbl off d = some f.sent.flatten
  count : f.sent.flatten.length = d
  whole : getContentStreamChunkSize ∣ d ∨ d = len

/-- The pieces sent and the end of the stream agree with the abstract read. -/
structure Agrees (cfg : Config) (tbl : Table UInt8) (off len : Nat) (sent : List Bytes) (e : StreamEnd) : Prop where
  ok : ∀ bytes, read cfg.pageSizeBytes tbl off len = some bytes → sent.flatten = bytes ∧ e = .ok
  failed : read cfg.pageSizeBytes tbl off len = none →
    (∃ status, e = .failed status) ∧ ∃ m, FirstMissing tbl (off / cfg.pageSizeBytes) m ∧
      sent.flatten = (stored cfg.pageSizeBytes tbl off m).take
        ((stored cfg.pageSizeBytes tbl off m).length / getContentStreamChunkSize * getContentStreamChunkSize)

namespace Streamed

variable {d : Nat} {f : StreamFrame}

/-- A longer read goes on where the stream stands. -/
theorem read_on (h : Streamed cfg tbl hash off len d f) (k : Nat) :
    read cfg.pageSizeBytes tbl off (d + k) =
      (read cfg.pageSizeBytes tbl (off + d) k).map (f.sent.flatten ++ ·) := by
  rw [read_add, h.sent, Option.bind_some, if_pos h.count]

/-- The stream ends with the whole of the read. -/
theorem finish {sent : List Bytes}
    (done : read cfg.pageSizeBytes tbl off len = some sent.flatten) : Agrees cfg tbl off len sent .ok where
  ok bytes same := by
    rw [done] at same
    exact ⟨Option.some.inj same, rfl⟩
  failed none := by
    rw [done] at none
    cases none

/-- A piece that comes up short is the last of the read. -/
theorem short (h : Streamed cfg tbl hash off len d f) {k : Nat} {bytes : Bytes} (inside : d + k ≤ len)
    (piece : read cfg.pageSizeBytes tbl (off + d) k = some bytes) (less : bytes.length < k) :
    read cfg.pageSizeBytes tbl off len = some (f.sent.flatten ++ bytes) := by
  obtain ⟨rest, rfl⟩ : ∃ rest, len = d + k + rest := ⟨len - (d + k), by omega⟩
  have counted := h.count
  rw [read_add, h.read_on k, piece, Option.map_some, Option.bind_some, if_neg]
  rw [List.length_append]
  omega

/-- A piece that fails fails the read, and the pieces before it are all that fit before
the first missing chunk. -/
theorem fail (h : Streamed cfg tbl hash off len d f)
    (within : ∀ i chunk, tbl i = some chunk → chunk.length ≤ cfg.pageSizeBytes) {k : Nat} (more : d < len)
    (piece : k ≤ getContentStreamChunkSize) (inside : d + k ≤ len)
    (missing : read cfg.pageSizeBytes tbl (off + d) k = none) (status : Status) :
    Agrees cfg tbl off len f.sent (.failed status) := by
  have failed : read cfg.pageSizeBytes tbl off (d + k) = none := by rw [h.read_on k, missing]; rfl
  constructor
  · intro bytes done
    obtain ⟨rest, rfl⟩ : ∃ rest, len = d + k + rest := ⟨len - (d + k), by omega⟩
    rw [read_add, failed] at done
    cases done
  · intro _
    obtain ⟨m, first, reads⟩ := read_eq_none cfg.positive within failed
    refine ⟨⟨status, rfl⟩, m, first, ?_⟩
    have before := reads d
    rw [h.sent] at before
    have beyond := reads (d + k)
    rw [failed] at beyond
    have fits : d ≤ (stored cfg.pageSizeBytes tbl off m).length := by
      by_contra past
      rw [if_neg past] at before
      cases before
    have stops : (stored cfg.pageSizeBytes tbl off m).length < d + k := by
      by_contra reaches
      rw [if_pos (by omega)] at beyond
      cases beyond
    rw [if_pos fits] at before
    rw [Option.some.inj before]
    -- `d` is the largest multiple of the piece size up to the length of what is stored
    obtain ⟨j, rfl⟩ : getContentStreamChunkSize ∣ d := h.whole.resolve_right (by omega)
    congr 1
    generalize (stored cfg.pageSizeBytes tbl off m).length = stop at *
    have j_eq : stop / getContentStreamChunkSize = j := by
      apply Nat.div_eq_of_lt_le
      · rw [Nat.mul_comm]; exact fits
      · rw [Nat.add_mul, Nat.one_mul, Nat.mul_comm]; omega
    rw [j_eq, Nat.mul_comm]

/-- A full piece is sent and the loop goes on. -/
theorem next (h : Streamed cfg tbl hash off len d f) {k : Nat} {bytes dst : Bytes}
    (size : k = min (len - d) getContentStreamChunkSize)
    (done : read cfg.pageSizeBytes tbl (off + d) k = some bytes) (full : bytes.length = k)
    (room : dst.length = getContentStreamChunkSize) :
    Streamed cfg tbl hash off len (d + k)
      { f with offset := (off + (d + k) : Nat), remainingLength := (len - (d + k) : Nat), dst := dst,
               sent := f.sent ++ [bytes] } := by
  have bound := h.bound
  refine ⟨h.of_hash, rfl, rfl, by omega, room, ?_, ?_, ?_⟩
  · rw [h.read_on k, done, Option.map_some, List.flatten_append, List.flatten_singleton]
  · rw [List.flatten_append, List.flatten_singleton, List.length_append, h.count, full]
  · by_cases last : d + k = len
    · exact .inr last
    · obtain whole | all := h.whole
      · have : k = getContentStreamChunkSize := by omega
        exact .inl (this ▸ Nat.dvd_add (this ▸ whole) (Nat.dvd_refl _))
      · omega

/-- **One iteration of the stream**: it sends the next piece of the read, or ends. -/
theorem step (h : Streamed cfg tbl hash off len d f)
    (within : ∀ i chunk, tbl i = some chunk → chunk.length ≤ cfg.pageSizeBytes) (inRange : off + len < 2 ^ 63)
    {piece : Piece} (undisturbed : Undisturbed piece.get) (sends : piece.sendError = none)
    (shows : ∀ i, s.lookup hash i = tbl i) :
    ∃ s' out, streamStep cfg piece s f = (s', out) ∧ (∀ i, s'.lookup hash i = tbl i) ∧
      ((∃ f' d', out = .inl f' ∧ Streamed cfg tbl hash off len d' f' ∧ d < d') ∨
        ∃ sent e, out = .inr (sent, e) ∧ Agrees cfg tbl off len sent e) := by
  have bound := h.bound
  obtain rfl := h.of_hash
  by_cases more : d < len
  · obtain ⟨k, size⟩ : ∃ k, k = min (len - d) getContentStreamChunkSize := ⟨_, rfl⟩
    have positive := getContentStreamChunkSize_pos
    have size' : min f.remainingLength (getContentStreamChunkSize : Int) = k := by
      rw [h.remaining, size]; norm_cast
    have left : 0 < f.remainingLength := by rw [h.remaining]; omega
    have space : k ≤ f.dst.length := by rw [h.room]; omega
    have bounded : ∀ i chunk, tbl i = some chunk →
        min (off + d + k) (i * cfg.pageSizeBytes + chunk.length) < 2 ^ 63 := fun i chunk _ => by omega
    obtain ⟨s', g, r, run, shows', room, yields⟩ :=
      get_reads (steady_undisturbed undisturbed f.hash tbl) within bounded (by omega) shows space
    rw [h.room] at room
    simp only [streamStep, if_pos left, size', h.offset, run]
    cases done : read cfg.pageSizeBytes tbl (off + d) k with
    | none =>
      rw [done] at yields
      obtain ⟨e, rfl⟩ := yields
      exact ⟨s', _, rfl, shows', .inr ⟨_, _, rfl, h.fail within more (by omega) (by omega) done _⟩⟩
    | some bytes =>
      rw [done] at yields
      obtain ⟨rfl, copied⟩ := yields
      have atMost := read_length_le done
      simp only [sends, Int.toNat_natCast, copied]
      by_cases empty : bytes.length = 0
      · rw [if_pos (by omega)]
        refine ⟨s', _, rfl, shows', .inr ⟨_, _, rfl, finish ?_⟩⟩
        rw [h.short (by omega) done (by omega), List.length_eq_zero_iff.mp empty, List.append_nil]
      · rw [if_neg (by omega)]
        by_cases less : bytes.length < k
        · rw [if_pos (by omega)]
          refine ⟨s', _, rfl, shows', .inr ⟨_, _, rfl, finish ?_⟩⟩
          rw [h.short (by omega) done less, List.flatten_append, List.flatten_singleton]
        · have full : bytes.length = k := by omega
          obtain ⟨ahead, inside, below⟩ : d < d + k ∧ off + d + k < 2 ^ 63 ∧ len - d < 2 ^ 63 := by omega
          have fits : k ≤ len - d := by omega
          rw [if_neg (by omega), full, h.remaining, wrap_add inside, wrap_sub fits below, Nat.add_assoc, Nat.sub_sub]
          exact ⟨s', _, rfl, shows', .inl ⟨_, d + k, rfl, h.next size done full room, ahead⟩⟩
  · have all : d = len := by omega
    have none_left : ¬ 0 < f.remainingLength := by rw [h.remaining]; omega
    refine ⟨s, _, by simp only [streamStep, if_neg none_left]; rfl, shows, .inr ⟨_, _, rfl, finish ?_⟩⟩
    rw [← all]
    exact h.sent

end Streamed

/-- `GetContentStream` sends what the abstract read yields. -/
theorem stream_reads (enough : getContentStreamChunkSize ≤ maxAlloc) {req : GetContentRequest}
    (offset : req.offset = off) (length : req.length = len)
    (within : ∀ i chunk, tbl i = some chunk → chunk.length ≤ cfg.pageSizeBytes) (inRange : off + len < 2 ^ 63)
    {pieces : Nat → Piece} (delivering : Delivering pieces) (shows : ∀ i, s.lookup req.hash i = tbl i) :
    ∃ s' sent e, getContentStream maxAlloc cfg pieces s req = some (s', sent, e) ∧ Agrees cfg tbl off len sent e := by
  have start : Streamed cfg tbl req.hash off len 0 (StreamFrame.start req) :=
    ⟨rfl, by simp [StreamFrame.start, offset], by simp [StreamFrame.start, length], Nat.zero_le _,
      by simp only [StreamFrame.start, List.length_replicate], by simp [StreamFrame.start], rfl,
      .inl (Nat.dvd_zero _)⟩
  have loop : ∃ s' out, getContentStream maxAlloc cfg pieces s req = some (s', out) ∧
      Agrees cfg tbl off len out.1 out.2 := by
    rw [getContentStream, if_neg (Nat.not_lt.mpr enough)]
    apply drive_rule
      (fun (s : Cas) f => (∀ i, s.lookup req.hash i = tbl i) ∧ ∃ d, Streamed cfg tbl req.hash off len d f)
      (fun _ (out : List Bytes × StreamEnd) => Agrees cfg tbl off len out.1 out.2) (fun f => f.remainingLength.toNat)
    · rintro i s f s' f' ⟨shows, d, streamed⟩ taken
      obtain ⟨_, _, same, shows', next⟩ :=
        streamed.step within inRange (delivering.undisturbed i) (delivering.sends i) shows
      rw [taken] at same
      cases same
      rcases next with ⟨_, d', next, streamed', less⟩ | ⟨_, _, stop, _⟩
      · cases next
        refine ⟨⟨shows', d', streamed'⟩, ?_⟩
        have bound := streamed'.bound
        rw [streamed.remaining, streamed'.remaining]
        omega
      · cases stop
    · rintro i s f s' out ⟨shows, d, streamed⟩ taken
      obtain ⟨_, _, same, -, next⟩ :=
        streamed.step within inRange (delivering.undisturbed i) (delivering.sends i) shows
      rw [taken] at same
      cases same
      rcases next with ⟨_, _, next, _⟩ | ⟨_, _, stop, agrees⟩
      · cases next
      · cases stop
        exact agrees
    · exact Nat.lt_succ_self _
    · exact ⟨shows, 0, start⟩
  obtain ⟨s', ⟨sent, e⟩, run, agrees⟩ := loop
  exact ⟨s', sent, e, run, agrees⟩

/-- `GetContent` answers what the abstract read yields. -/
theorem getContent_reads {req : GetContentRequest} (offset : req.offset = off) (length : req.length = len)
    (within : ∀ i chunk, tbl i = some chunk → chunk.length ≤ cfg.pageSizeBytes) (inRange : off + len < 2 ^ 63)
    (allocated : len ≤ maxAlloc) {around : Nat → Around Bool} (undisturbed : Undisturbed around)
    (shows : ∀ i, s.lookup req.hash i = tbl i) :
    ∃ s' answer, getContent maxAlloc cfg around s req = some (s', .returned answer) ∧
      (∀ bytes, read cfg.pageSizeBytes tbl off len = some bytes → answer = ⟨bytes, true⟩) ∧
      (read cfg.pageSizeBytes tbl off len = none → answer = ⟨[], false⟩) := by
  have room : len ≤ (List.replicate len (0 : UInt8)).length := by simp
  have bounded : ∀ i chunk, tbl i = some chunk →
      min (off + len) (i * cfg.pageSizeBytes + chunk.length) < 2 ^ 63 := fun i chunk _ => by omega
  obtain ⟨s', f, r, run, -, -, yields⟩ :=
    get_reads (steady_undisturbed undisturbed req.hash tbl) within bounded (by omega) shows room
  have asked : ¬ ((len : Int) < 0 ∨ (maxAlloc : Int) < len) := by omega
  simp only [getContent, offset, length, Int.toNat_natCast, if_neg asked, run]
  cases done : read cfg.pageSizeBytes tbl off len with
  | none =>
    rw [done] at yields
    obtain ⟨e, rfl⟩ := yields
    exact ⟨s', _, rfl, fun bytes some => (by cases some), fun _ => rfl⟩
  | some bytes =>
    rw [done] at yields
    obtain ⟨rfl, copied⟩ := yields
    refine ⟨s', _, rfl, fun bytes' same => ?_, fun none => by cases none⟩
    cases same
    rw [Int.toNat_natCast, copied]

/-- **Streaming agrees with the unary read**, exactly as long as the buffer of the unary read can be allocated.
In a storage none of whose chunks is longer than a page, and with nothing else going on, `GetContent` answers
`Ok` with some bytes exactly when the stream ends without error having sent them; and when it does not answer
`Ok`, the stream fails after the bytes stored before the first missing chunk, cut to whole pieces. -/
theorem stream_agrees_with_unary_iff (enough : getContentStreamChunkSize ≤ maxAlloc) {req : GetContentRequest}
    (offset : 0 ≤ req.offset) (length : 0 ≤ req.length) (inRange : req.offset + req.length < 2 ^ 63)
    (within : ∀ i chunk, s.lookup req.hash i = some chunk → chunk.length ≤ cfg.pageSizeBytes)
    {around : Nat → Around Bool} (undisturbed : Undisturbed around) {pieces : Nat → Piece}
    (delivering : Delivering pieces) :
    (∃ s₁ answer s₂ sent e, getContent maxAlloc cfg around s req = some (s₁, .returned answer) ∧
      getContentStream maxAlloc cfg pieces s req = some (s₂, sent, e) ∧
      (∀ bytes, answer = ⟨bytes, true⟩ ↔ e = .ok ∧ sent.flatten = bytes) ∧
      (answer.ok = false → (∃ status, e = .failed status) ∧
        ∃ m, FirstMissing (s.lookup req.hash) (req.offset.toNat / cfg.pageSizeBytes) m ∧
          let available := stored cfg.pageSizeBytes (s.lookup req.hash) req.offset.toNat m
          sent.flatten = available.take (available.length / getContentStreamChunkSize * getContentStreamChunkSize))) ↔
    req.length ≤ maxAlloc := by
  constructor
  · rintro ⟨s₁, answer, s₂, sent, e, unary, -⟩
    by_contra beyond
    rw [getContent, if_pos (.inr (by omega))] at unary
    cases unary
  intro allocated
  obtain ⟨off, offset⟩ := Int.eq_ofNat_of_zero_le offset
  obtain ⟨len, length⟩ := Int.eq_ofNat_of_zero_le length
  have small : off + len < 2 ^ 63 := by omega
  have fits : len ≤ maxAlloc := by omega
  obtain ⟨s₁, answer, unary, answered, unanswered⟩ :=
    getContent_reads offset length within small fits undisturbed (fun _ => rfl)
  obtain ⟨s₂, sent, e, streamed, agrees⟩ := stream_reads enough offset length within small delivering (fun _ => rfl)
  refine ⟨s₁, answer, s₂, sent, e, unary, streamed, ?_⟩
  rw [offset, Int.toNat_natCast]
  cases done : read cfg.pageSizeBytes (s.lookup req.hash) off len with
  | none =>
    obtain ⟨⟨status, rfl⟩, before⟩ := agrees.failed done
    rw [unanswered done]
    exact ⟨fun bytes => ⟨fun same => (by cases same), fun ended => by cases ended.1⟩,
      fun _ => ⟨⟨status, rfl⟩, before⟩⟩
  | some bytes =>
    obtain ⟨rfl, rfl⟩ := agrees.ok bytes done
    rw [answered _ done]
    refine ⟨fun bytes' => ⟨fun same => ?_, fun ended => ?_⟩, fun no => by cases no⟩
    · cases same
      exact ⟨rfl, rfl⟩
    · rw [ended.2]

/-- One chunk file of one byte, one byte a page, and a request for two bytes. -/
theorem stream_agrees_oneByte :
    let s := Cas.fresh.setFile "a" (chunkKey "a" 0) [7]
    ∃ s₁ answer s₂ sent e, getContent (2 ^ 48) oneBytePages quietRead s ⟨"a", 0, 2, by decide, by decide⟩ =
        some (s₁, .returned answer) ∧ answer.ok = false ∧
      getContentStream (2 ^ 48) oneBytePages (fun _ => ⟨quietRead, none⟩) s ⟨"a", 0, 2, by decide, by decide⟩ =
        some (s₂, sent, e) ∧ ∃ status, e = .failed status := by
  intro s
  have within : ∀ i chunk, s.lookup "a" i = some chunk → chunk.length ≤ 1 := by
    intro i chunk present
    by_cases first : i = 0
    · subst first
      cases present
      decide
    · have file : s.files "a" (chunkKey "a" i) = none := by
        refine Cas.setFile_other _ _ fun same => first ?_
        exact Int.ofNat.inj (chunkKey_injective "a" (Prod.mk.inj same).2)
      have shown : s.lookup "a" i = s.files "a" (chunkKey "a" i) := rfl
      rw [shown, file] at present
      cases present
  obtain ⟨s₁, answer, s₂, sent, e, unary, streamed, -, failed⟩ :=
    (@stream_agrees_with_unary_iff (2 ^ 48) oneBytePages s (by decide) ⟨"a", 0, 2, by decide, by decide⟩ (by decide)
      (by decide) (by decide) within quietRead (fun _ => rfl) (fun _ => ⟨quietRead, none⟩)
      ⟨fun _ _ => rfl, fun _ => rfl⟩).mpr (by decide)
  have refused : answer.ok = false := by
    have same : (getContent (2 ^ 48) oneBytePages quietRead (Cas.fresh.setFile "a" (chunkKey "a" 0) [7])
        ⟨"a", 0, 2, by decide, by decide⟩).map Prod.snd = some (.returned answer) :=
      congrArg (Option.map Prod.snd) unary
    have known : (getContent (2 ^ 48) oneBytePages quietRead (Cas.fresh.setFile "a" (chunkKey "a" 0) [7])
        ⟨"a", 0, 2, by decide, by decide⟩).map Prod.snd = some (.returned ⟨[], false⟩) := by decide
    rw [known] at same
    cases same
    rfl
  exact ⟨s₁, answer, s₂, sent, e, unary, refused, streamed, (failed refused).1⟩

theorem tooLong_inRange : InRange (2 ^ 48 + 1) := by decide

/-- More than can be allocated, of an object of one byte. -/
def tooLong : GetContentRequest := ⟨"a", 0, 2 ^ 48 + 1, Int64Arith.inRange_zero, tooLong_inRange⟩

/-- An object of one byte is stored, in a page of two. Asked for more bytes than can be allocated, the stream sends
the byte and ends; `GetContent` panics. -/
theorem unary_panics_where_stream_answers :
    let s := (Op.add "a" [7] quietStore).step twoBytePages Cas.fresh
    getContent (2 ^ 48) twoBytePages quietRead s tooLong = some (s, .panicked) ∧
      ∃ s' sent, getContentStream (2 ^ 48) twoBytePages (fun _ => ⟨quietRead, none⟩) s tooLong = some (s', sent, .ok) ∧
        sent.flatten = [7] := by
  intro s
  refine ⟨by rw [getContent, if_pos (.inr (by decide))], ?_⟩
  have quiet : FaultFree (fun _ => [7]) Cas.fresh (.add "a" [7] quietStore) := ⟨by decide, rfl, fun _ => rfl⟩
  have stored : Cas.fresh.add twoBytePages quietStore "a" [7] = some (s, .ok ()) := Op.add_returned (by decide)
  have clean : Clean twoBytePages (fun _ => [7]) s := (Op.keeps Tiers.fresh quiet).1
  have disk : OnDisk twoBytePages (fun _ => [7]) "a" s :=
    add_on_disk (by decide) rfl (fun _ _ member => absurd member List.not_mem_nil) stored
  have shows : ∀ i, s.lookup "a" i = pages 2 [7] i := (Clean.complete clean disk).shows
  have within : ∀ i chunk, pages 2 [(7 : UInt8)] i = some chunk → chunk.length ≤ twoBytePages.pageSizeBytes := by
    intro i chunk present
    unfold pages at present
    split at present
    · cases present
      rw [page_length]
      exact min_le_left _ _
    · cases present
  have delivering : Delivering fun _ => ⟨quietRead, none⟩ := ⟨fun _ _ => rfl, fun _ => rfl⟩
  have enough : getContentStreamChunkSize ≤ 2 ^ 48 := by decide
  have length : tooLong.length = (2 ^ 48 + 1 : Nat) := rfl
  have offset : tooLong.offset = (0 : Nat) := rfl
  obtain ⟨s', sent, e, streamed, agrees⟩ := stream_reads enough offset length within (by decide) delivering shows
  have reads : read 2 (pages 2 [(7 : UInt8)]) 0 (2 ^ 48 + 1) = some [7] := by
    rw [read_whole_past_end (by decide) (pages_holds 2 [7]) (by decide) (by decide), if_neg (by decide)]
    rfl
  obtain ⟨bytes, rfl⟩ := agrees.ok [7] reads
  exact ⟨s', sent, streamed, bytes⟩

end Blobcache.Server
