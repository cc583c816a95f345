import Blobcache.Server.Content

/-!
# The read handlers on any input

Offsets and lengths come unchecked from the network, and a panic in a handler takes the
server down. Over a storage whose chunks are at most a page long no call of `Get` panics
that has room for the length asked for, whatever the offset: the boundary check of the loop
catches a negative remainder, and a position that has left the range makes one. Every call
returns, because a chunk that is copied has a byte at least.

What is left is the buffer of `GetContent`, which is allocated as long as the request says.
-/

namespace Blobcache.Server
set_option autoImplicit false
open AdmissionCache Execution Int64Arith Storage

/-! ## Storages with chunks of at most a page -/

/-- A chunk is at most a page long, and a list of chunk keys stands under the key of an object. -/
def FitsPage (cfg : Config) (key : String) : Value → Prop
  | .chunk _ content => content.length ≤ cfg.pageSizeBytes
  | .index _ => NoSeparators key

structure PageBounded (cfg : Config) (s : Cas) : Prop where
  memory : s.cache.All (FitsPage cfg)
  disk : ∀ hash key content, s.files hash key = some content → content.length ≤ cfg.pageSizeBytes

namespace PageBounded

variable {cfg : Config} {s : Cas}

theorem env (h : PageBounded cfg s) (e : EnvStep) : PageBounded cfg (s.env e) := by
  refine ⟨h.memory.sub (s.env_cache_sub e), ?_⟩
  rw [(s.env_disk e).2]
  exact h.disk

theorem envs (h : PageBounded cfg s) (steps : List EnvStep) : PageBounded cfg (s.envs steps) := by
  induction steps generalizing s with
  | nil => exact h
  | cons e steps ih => exact ih (h.env e)

/-- A chunk key shows a chunk, never a list. -/
theorem seen (h : PageBounded cfg s) {f : GetFrame} {v : Value} (found : s.cache.get (f.key cfg) = some v) :
    ∃ hash content, v = .chunk hash content ∧ content.length ≤ cfg.pageSizeBytes := by
  have fits := h.memory.get found
  cases v with
  | chunk hash content => exact ⟨hash, content, rfl, fits⟩
  | index keys => exact absurd fits (chunkKey_not_plain _ _)

theorem step (h : PageBounded cfg s) (setRefused : Bool) (f : GetFrame) :
    PageBounded cfg (getStep cfg setRefused s f).1 := by
  have taken := getStep_taken cfg setRefused s f
  generalize (getStep cfg setRefused s f).1 = s', (getStep cfg setRefused s f).2 = out at taken
  cases taken with
  | loaded pc memory file => exact ⟨h.memory.put _ _ (h.disk _ _ _ file), h.disk⟩
  | _ => exact h

end PageBounded

/-! ## A call of `Get` -/

/-- The frame of a call for `len` bytes whose destination has `room` bytes. -/
structure Within (len : Int) (room : Nat) (f : GetFrame) : Prop where
  written : 0 ≤ f.dstOffset
  left : 0 ≤ f.remainingLength
  total : f.dstOffset + f.remainingLength = len
  room_eq : f.dst.length = room
  pending : f.pc = .disk → 0 < f.remainingLength

/-- A result that is no panic; what is returned lies in the destination. -/
def Answers (len : Int) (r : GetResult) : Prop := r ≠ .panic ∧ ∀ n, r = .ok n → 0 ≤ n ∧ n ≤ len

section

variable {cfg : Config} {len : Int} {room : Nat} {f : GetFrame}

theorem Within.answers (h : Within len room f) : Answers len (.ok f.dstOffset) := by
  have := h.written
  have := h.left
  have := h.total
  refine ⟨by simp, fun n ok => ?_⟩
  cases ok
  omega

/-- The body of the loop does not panic, wherever the position is. -/
theorem Within.consume (h : Within len room f) (more : 0 < f.remainingLength) (enough : len ≤ room)
    (inRange : len < 2 ^ 63) (hash : String) {content : Bytes} (fits : content.length ≤ cfg.pageSizeBytes) :
    (∃ f', f.consume cfg (.chunk hash content) = .inl f' ∧ Within len room f') ∨
      ∃ r, f.consume cfg (.chunk hash content) = .inr (f, r) ∧ Answers len r := by
  have page := cfg.fits
  have written := h.written
  have total := h.total
  have size := h.room_eq
  have below : f.o.tmod cfg.pageSizeBytes < cfg.pageSizeBytes := Int.tmod_lt_of_pos _ (Int.natCast_pos.mpr cfg.positive)
  simp only [GetFrame.consume]
  generalize f.o.tmod cfg.pageSizeBytes = start at below ⊢
  generalize remaining : wrap ((content.length : Int) - start) = chunkRemaining
  split
  · exact .inr ⟨_, rfl, h.answers⟩
  rename_i some_left
  split
  · exact .inr ⟨_, rfl, by simp, fun n ok => by cases ok⟩
  rename_i bounds
  rw [wrap_eq (by omega) (by omega)] at remaining
  -- what is copied is asked for, and the destination has room for that
  have copies : 0 < min f.remainingLength chunkRemaining := by omega
  have asked : min f.remainingLength chunkRemaining ≤ f.remainingLength := by omega
  have inChunk : start + min f.remainingLength chunkRemaining ≤ content.length := by omega
  have dstStop : wrap (f.dstOffset + min f.remainingLength chunkRemaining) =
      f.dstOffset + min f.remainingLength chunkRemaining := wrap_eq (by omega) (by omega)
  have rest : wrap (f.remainingLength - min f.remainingLength chunkRemaining) =
      f.remainingLength - min f.remainingLength chunkRemaining := wrap_eq (by omega) (by omega)
  generalize min f.remainingLength chunkRemaining = readLength at *
  rw [dstStop, if_neg (by omega)]
  refine .inl ⟨_, rfl, ?_, ?_, ?_, ?_, fun pc => by cases pc⟩
  · dsimp only; omega
  · dsimp only; omega
  · dsimp only; omega
  · simp only [List.length_append, List.length_take, List.length_drop]
    omega

/-- One step of a call returns an answer or goes on. -/
theorem Within.step {s : Cas} (bounded : PageBounded cfg s) (h : Within len room f) (enough : len ≤ room)
    (inRange : len < 2 ^ 63) (setRefused : Bool) :
    (∃ f', (getStep cfg setRefused s f).2 = .inl f' ∧ Within len room f' ∧ f'.rank < f.rank) ∨
      ∃ r, (getStep cfg setRefused s f).2 = .inr (f, r) ∧ Answers len r := by
  have small : f.remainingLength < 2 ^ 63 := by
    have := h.written
    have := h.total
    omega
  have lower {f' : GetFrame} (next : (getStep cfg setRefused s f).2 = .inl f') : f'.rank < f.rank :=
    (getStep_rank small h.pending next).2
  have taken := getStep_taken cfg setRefused s f
  generalize (getStep cfg setRefused s f).1 = s' at taken
  generalize (getStep cfg setRefused s f).2 = out at taken lower ⊢
  have consumes {hash : String} {content : Bytes} (more : 0 < f.remainingLength)
      (fits : content.length ≤ cfg.pageSizeBytes) (now : out = f.consume cfg (.chunk hash content)) :
      (∃ f', out = .inl f' ∧ Within len room f' ∧ f'.rank < f.rank) ∨ ∃ r, out = .inr (f, r) ∧ Answers len r := by
    rcases h.consume more enough inRange hash fits with ⟨f', next, within⟩ | stop
    · exact .inl ⟨f', now.trans next, within, lower (now.trans next)⟩
    · rw [now]
      exact .inr stop
  cases taken with
  | finished => exact .inr ⟨_, rfl, h.answers⟩
  | miss pc left => exact .inl ⟨_, rfl, ⟨h.written, h.left, h.total, h.room_eq, fun _ => left⟩, lower rfl⟩
  | absent => exact .inr ⟨_, rfl, by simp, fun n ok => by cases ok⟩
  | hit pc left found =>
    obtain ⟨hash, content, rfl, fits⟩ := bounded.seen found
    exact consumes left fits rfl
  | recheck pc found =>
    obtain ⟨_, _, same, fits⟩ := bounded.seen found
    cases same
    exact consumes (h.pending pc) fits rfl
  | assertion pc found =>
    obtain ⟨_, _, same, _⟩ := bounded.seen found
    cases same
  | loaded pc memory file => exact consumes (h.pending pc) (bounded.disk _ _ _ file) rfl

/-- **No call of `Get` panics** that has room for what it asks for, and every one returns. -/
theorem get_answers {s : Cas} (bounded : PageBounded cfg s) (sched : Nat → Around Bool) (hash : String) (offset : Int)
    {length : Int} (asked : 0 ≤ length) (inRange : length < 2 ^ 63) {dst : Bytes} (enough : length ≤ dst.length) :
    ∃ s' f r, s.get cfg sched hash offset length dst = some (s', f, r) ∧ PageBounded cfg s' ∧
      f.dst.length = dst.length ∧ Answers length r := by
  have start : Within length dst.length (GetFrame.start hash offset length dst) :=
    ⟨Int.le_refl 0, asked, Int.zero_add _, rfl, fun pc => by cases pc⟩
  have continues : ∀ i s f s' f', (PageBounded cfg s ∧ Within length dst.length f) →
      getStep cfg (sched i).choice (s.envs (sched i).before) f = (s', .inl f') →
      (PageBounded cfg s' ∧ Within length dst.length f') ∧ f'.rank < f.rank := by
    rintro i s f s' f' ⟨bounded, within⟩ taken
    have kept := (bounded.envs (sched i).before).step (sched i).choice f
    have step := within.step (bounded.envs (sched i).before) enough inRange (sched i).choice
    rw [taken] at kept step
    rcases step with ⟨_, next, within', less⟩ | ⟨_, stop, _⟩
    · cases next
      exact ⟨⟨kept, within'⟩, less⟩
    · cases stop
  have returns : ∀ i s f s' out, (PageBounded cfg s ∧ Within length dst.length f) →
      getStep cfg (sched i).choice (s.envs (sched i).before) f = (s', .inr out) →
      PageBounded cfg s' ∧ out.1.dst.length = dst.length ∧ Answers length out.2 := by
    rintro i s f s' out ⟨bounded, within⟩ taken
    have kept := (bounded.envs (sched i).before).step (sched i).choice f
    have step := within.step (bounded.envs (sched i).before) enough inRange (sched i).choice
    rw [taken] at kept step
    rcases step with ⟨_, next, _⟩ | ⟨_, stop, answers⟩
    · cases next
    · cases stop
      exact ⟨kept, within.room_eq, answers⟩
  obtain ⟨s', ⟨f, r⟩, run, kept, size, answers⟩ := drive_rule _ _ GetFrame.rank continues returns
    (2 * length.toNat + 2) 0 s (GetFrame.start hash offset length dst) (by simp [GetFrame.rank, GetFrame.start])
    ⟨bounded, start⟩
  exact ⟨s', f, r, run, kept, size, answers⟩

end

/-! ## The handlers -/

section

variable {cfg : Config} {s : Cas}

theorem getContent_returns {maxAlloc : Nat} (bounded : PageBounded cfg s) (sched : Nat → Around Bool)
    (req : GetContentRequest) (asked : 0 ≤ req.length) (allocated : req.length ≤ maxAlloc) :
    ∃ s' response, getContent maxAlloc cfg sched s req = some (s', .returned response) := by
  have enough : req.length ≤ (List.replicate req.length.toNat (0 : UInt8)).length := by
    rw [List.length_replicate]
    omega
  obtain ⟨s', f, r, run, -, -, noPanic, -⟩ :=
    get_answers bounded sched req.hash req.offset asked req.length_inRange.2 enough
  rw [getContent, if_neg (by omega), run]
  cases r with
  | ok n => exact ⟨s', _, rfl⟩
  | err e => exact ⟨s', _, rfl⟩
  | panic => exact absurd rfl noPanic

/-- One piece of a stream: the loop comes closer to its end, or the handler returns. -/
theorem streamStep_answers (bounded : PageBounded cfg s) (piece : Piece) {f : StreamFrame}
    (room : f.dst.length = getContentStreamChunkSize) (small : f.remainingLength < 2 ^ 63) :
    (∃ s' f', streamStep cfg piece s f = (s', .inl f') ∧ PageBounded cfg s' ∧
      f'.dst.length = getContentStreamChunkSize ∧ f'.remainingLength < 2 ^ 63 ∧
      f'.remainingLength.toNat < f.remainingLength.toNat) ∨
    ∃ s' sent e, streamStep cfg piece s f = (s', .inr (sent, e)) ∧ e ≠ .panicked := by
  have positive := getContentStreamChunkSize_pos
  by_cases more : 0 < f.remainingLength
  · obtain ⟨size, isSize⟩ : ∃ size, size = min f.remainingLength getContentStreamChunkSize := ⟨_, rfl⟩
    obtain ⟨s', g, r, run, kept, sameRoom, noPanic, inDst⟩ := get_answers bounded piece.get f.hash f.offset
      (show 0 ≤ size by omega) (by omega) (show size ≤ f.dst.length by omega)
    simp only [streamStep, if_pos more, ← isSize, run]
    cases r with
    | panic => exact absurd rfl noPanic
    | err e => exact .inr ⟨_, _, _, rfl, by simp⟩
    | ok n =>
      obtain ⟨nonneg, bound⟩ := inDst n rfl
      dsimp only
      split
      · exact .inr ⟨_, _, _, rfl, by simp⟩
      rename_i some_read
      cases piece.sendError with
      | some cause => exact .inr ⟨_, _, _, rfl, by simp⟩
      | none =>
        dsimp only
        split
        · exact .inr ⟨_, _, _, rfl, by simp⟩
        · have rest : wrap (f.remainingLength - n) = f.remainingLength - n := wrap_eq (by omega) (by omega)
          refine .inl ⟨_, _, rfl, kept, sameRoom.trans room, ?_, ?_⟩
          · dsimp only
            omega
          · dsimp only
            omega
  · exact .inr ⟨_, _, _, by rw [streamStep, if_neg more], by simp⟩

theorem getContentStream_returns {maxAlloc : Nat} (enough : getContentStreamChunkSize ≤ maxAlloc)
    (bounded : PageBounded cfg s) (pieces : Nat → Piece) (req : GetContentRequest) :
    ∃ s' sent e, getContentStream maxAlloc cfg pieces s req = some (s', sent, e) ∧ e ≠ .panicked := by
  have continues : ∀ i s f s' f',
      (PageBounded cfg s ∧ f.dst.length = getContentStreamChunkSize ∧ f.remainingLength < 2 ^ 63) →
      streamStep cfg (pieces i) s f = (s', .inl f') →
      (PageBounded cfg s' ∧ f'.dst.length = getContentStreamChunkSize ∧ f'.remainingLength < 2 ^ 63) ∧
        f'.remainingLength.toNat < f.remainingLength.toNat := by
    rintro i s f s' f' ⟨bounded, room, small⟩ taken
    rcases streamStep_answers bounded (pieces i) room small with ⟨_, _, next, kept, room', small', less⟩ | ⟨_, _, _, stop, _⟩
    · rw [taken] at next
      cases next
      exact ⟨⟨kept, room', small'⟩, less⟩
    · rw [taken] at stop
      cases stop
  have returns : ∀ i s f s' out,
      (PageBounded cfg s ∧ f.dst.length = getContentStreamChunkSize ∧ f.remainingLength < 2 ^ 63) →
      streamStep cfg (pieces i) s f = (s', .inr out) → out.2 ≠ .panicked := by
    rintro i s f s' out ⟨bounded, room, small⟩ taken
    rcases streamStep_answers bounded (pieces i) room small with ⟨_, _, next, _⟩ | ⟨_, _, _, stop, noPanic⟩
    · rw [taken] at next
      cases next
    · rw [taken] at stop
      cases stop
      exact noPanic
  obtain ⟨s', ⟨sent, e⟩, run, noPanic⟩ := drive_rule _ (fun _ out => out.2 ≠ .panicked) (·.remainingLength.toNat)
    continues returns (req.length.toNat + 1) 0 s (StreamFrame.start req) (Nat.lt_succ_self _)
    ⟨bounded, List.length_replicate, req.length_inRange.2⟩
  exact ⟨s', sent, e, by rw [getContentStream, if_neg (Nat.not_lt.mpr enough)]; exact run, noPanic⟩

end

/-- **When the read handlers are total**: over every storage whose chunks are at most a page long, for any
hash and offset and under any schedule, both handlers answer exactly if the length is one that
can be allocated. -/
theorem read_handlers_total_iff {maxAlloc : Nat} (enough : getContentStreamChunkSize ≤ maxAlloc) (cfg : Config)
    {s : Cas} (bounded : PageBounded cfg s) (req : GetContentRequest) :
    ((∀ sched, ∃ s' response, getContent maxAlloc cfg sched s req = some (s', .returned response)) ∧
      ∀ pieces, ∃ s' sent e, getContentStream maxAlloc cfg pieces s req = some (s', sent, e) ∧ e ≠ .panicked) ↔
    0 ≤ req.length ∧ req.length ≤ maxAlloc := by
  constructor
  · rintro ⟨returns, -⟩
    obtain ⟨s', response, returned⟩ := returns fun _ => ⟨[], false⟩
    rw [getContent] at returned
    split at returned
    · cases returned
    omega
  · rintro ⟨asked, allocated⟩
    exact ⟨fun sched => getContent_returns bounded sched req asked allocated,
      fun pieces => getContentStream_returns enough bounded pieces req⟩

theorem PageBounded.fresh (cfg : Config) : PageBounded cfg Cas.fresh :=
  ⟨Cache.All.empty, fun _ _ _ held => by cases held⟩

theorem lowest_inRange : InRange (-2 ^ 63) := by decide

theorem five_inRange : InRange 5 := by decide

theorem minusOne_inRange : InRange (-1) := by decide

/-- Five bytes from the smallest offset there is. -/
def fiveBytes : GetContentRequest := ⟨"../a", -2 ^ 63, 5, lowest_inRange, five_inRange⟩

def minusOneByte : GetContentRequest := ⟨"a", -2 ^ 63, -1, lowest_inRange, minusOne_inRange⟩

theorem read_handlers_total_five :
    ∃ s' response, getContent (2 ^ 48) oneBytePages (fun _ => ⟨[], false⟩) Cas.fresh fiveBytes =
      some (s', .returned response) :=
  ((read_handlers_total_iff (by decide) oneBytePages (PageBounded.fresh _) fiveBytes).mpr
    ⟨by decide, by decide⟩).1 _

/-- A length of `-1` takes the server down, in `GetContent`. `GetContentStream` answers with an
empty stream. -/
theorem getContent_negative_length :
    getContent (2 ^ 48) oneBytePages (fun _ => ⟨[], false⟩) Cas.fresh minusOneByte =
        some (Cas.fresh, .panicked) ∧
      getContentStream (2 ^ 48) oneBytePages (fun _ => ⟨fun _ => ⟨[], false⟩, none⟩) Cas.fresh minusOneByte =
        some (Cas.fresh, [], .ok) := by
  constructor
  · rw [getContent, if_pos (.inl (by decide))]
  · rw [getContentStream, if_neg (by decide)]
    rfl

end Blobcache.Server
