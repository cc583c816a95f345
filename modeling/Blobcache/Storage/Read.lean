import Blobcache.Storage.Get

/-!
# The rule of reads

Every result about `Get` follows a property of the frame through the loop. `ReadRule`
says what has to be shown of such a property, one obligation for each way the loop body
can go, in terms of the chunks a step may see; `ReadRule.step` is one step. It is used
under any interleaving, where the chunks satisfy only an invariant of the tiers, and for
a single call over a storage that shows a fixed table of chunks.

For the latter the abstract meaning of `Get` is `Paging.read`: `get_reads` says that a
call returns what a read of the table yields, and fails exactly when that read does.
-/

namespace Blobcache.Storage
set_option autoImplicit false
open AdmissionCache Execution Int64Arith Paging

/-- What `J d`, the property of the frame after `d` bytes, and `Post`, the property of a
result, have to satisfy. -/
structure ReadRule (cfg : Config) (chunkAt : ChunkPred) (gone : String → Nat → Prop) (hash : String)
    (off len : Nat) (J : Nat → GetFrame → Prop) (Post : Nat → GetFrame → GetResult → Prop) : Prop where
  positioned : ∀ {d f}, J d f → Positioned hash off len d f
  to_disk : ∀ {d f}, J d f → d < len → J d { f with pc := .disk }
  chunk : ∀ {d f content}, J d f → d < len → chunkAt hash ((off + d) / cfg.pageSizeBytes) content →
    (∃ f' d', f.consume cfg (.chunk hash content) = .inl f' ∧ J d' f' ∧ d < d' ∧ f'.pc = .loop) ∨
      ∃ r, f.consume cfg (.chunk hash content) = .inr (f, r) ∧ Post d f r
  absent : ∀ {d f e}, J d f → d < len → gone hash ((off + d) / cfg.pageSizeBytes) → Post d f (.err e)
  finished : ∀ {f}, J len f → Post len f (.ok len)

/-- Twice the bytes to come, and one more before the memory is looked up. -/
def GetFrame.rank (f : GetFrame) : Nat :=
  2 * f.remainingLength.toNat + match f.pc with
    | .loop => 1
    | .disk => 0

section

variable {cfg : Config} {chunkAt : ChunkPred} {gone : String → Nat → Prop} {hash : String} {off len : Nat}
  {J : Nat → GetFrame → Prop} {Post : Nat → GetFrame → GetResult → Prop}

/-- **One step of a read**: it keeps `J` and comes closer to the end, or returns. -/
theorem ReadRule.step (rule : ReadRule cfg chunkAt gone hash off len J Post) {d : Nat} {f : GetFrame}
    (holds : J d f) {out : GetFrame ⊕ (GetFrame × GetResult)} (seen : GetSeen cfg chunkAt gone f out) :
    (∃ f' d', out = .inl f' ∧ J d' f' ∧ f'.rank < f.rank) ∨ ∃ r, out = .inr (f, r) ∧ Post d f r := by
  have position := rule.positioned holds
  have remaining := position.remaining
  have bound := position.bound
  have more_of (left : f.pc = .loop → 0 < f.remainingLength) : d < len := by
    cases pc : f.pc with
    | loop => have := left pc; omega
    | disk => exact position.pending pc
  cases seen with
  | finished pc none_left =>
    have all : d = len := by omega
    subst all
    exact .inr ⟨_, by rw [position.written], rule.finished holds⟩
  | miss pc left =>
    have more : d < len := by omega
    refine .inl ⟨_, d, rfl, rule.to_disk holds more, ?_⟩
    simp [GetFrame.rank, pc]
  | absent left e nowhere =>
    exact .inr ⟨_, rfl, rule.absent holds (more_of left)
      (by rw [← position.of_hash]; exact nowhere _ (position.index cfg))⟩
  | @chunk left i index content good =>
    have here : (off + d) / cfg.pageSizeBytes = i := Int.ofNat.inj ((position.index cfg).symm.trans index)
    rw [position.of_hash] at good ⊢
    rcases rule.chunk holds (more_of left) (by rw [here]; exact good) with ⟨f', d', next, holds', less, pc⟩ | stop
    · refine .inl ⟨f', d', next, holds', ?_⟩
      have remaining' := (rule.positioned holds').remaining
      have bound' := (rule.positioned holds').bound
      simp only [GetFrame.rank, pc]
      omega
    · exact .inr stop

/-- The state of a call after a step: its frame, and its result once it has returned. -/
def frameOf : GetFrame ⊕ (GetFrame × GetResult) → GetFrame
  | .inl f => f
  | .inr (f, _) => f

def resultOf : GetFrame ⊕ (GetFrame × GetResult) → Option GetResult
  | .inl _ => none
  | .inr (_, r) => some r

/-- A call under the rule, running or returned. -/
def Reading (J : Nat → GetFrame → Prop) (Post : Nat → GetFrame → GetResult → Prop) (f : GetFrame)
    (result : Option GetResult) : Prop :=
  ∃ d, J d f ∧ ∀ r, result = some r → Post d f r

theorem ReadRule.reading (rule : ReadRule cfg chunkAt gone hash off len J Post) {f : GetFrame}
    (running : Reading J Post f none) {out : GetFrame ⊕ (GetFrame × GetResult)}
    (seen : GetSeen cfg chunkAt gone f out) : Reading J Post (frameOf out) (resultOf out) := by
  obtain ⟨d, holds, -⟩ := running
  rcases rule.step holds seen with ⟨f', d', rfl, holds', -⟩ | ⟨r, rfl, post⟩
  · exact ⟨d', holds', fun r none => by cases none⟩
  · exact ⟨d, holds, fun r' same => by cases same; exact post⟩

/-- **The whole call**, over a storage that keeps `K`; `G` links storage and frame between
two steps. -/
theorem ReadRule.call (rule : ReadRule cfg chunkAt gone hash off len J Post) {K : Cas → Prop}
    {G : Cas → GetFrame → Prop} {sched : Nat → Around Bool}
    (sees : ∀ n s d f, K s → G s f → J d f →
      let out := getStep cfg (sched n).choice (s.envs (sched n).before) f
      K out.1 ∧ (∀ f', out.2 = .inl f' → G out.1 f') ∧ GetSeen cfg chunkAt gone f out.2)
    {s : Cas} {dst : Bytes} (start : K s) (linked : G s (GetFrame.start hash off len dst))
    (holds : J 0 (GetFrame.start hash off len dst)) :
    ∃ s' f d r, s.get cfg sched hash off len dst = some (s', f, r) ∧ K s' ∧ J d f ∧ Post d f r := by
  have continues : ∀ n s f s' f', (K s ∧ G s f ∧ ∃ d, J d f) →
      getStep cfg (sched n).choice (s.envs (sched n).before) f = (s', .inl f') →
      (K s' ∧ G s' f' ∧ ∃ d, J d f') ∧ f'.rank < f.rank := by
    rintro n s f s' f' ⟨keeps, linked, d, holds⟩ taken
    obtain ⟨keeps', linked', seen⟩ := sees n s d f keeps linked holds
    rw [taken] at keeps' linked' seen
    rcases rule.step holds seen with ⟨_, d', next, holds', less⟩ | ⟨_, stop, _⟩
    · cases next
      exact ⟨⟨keeps', linked' _ rfl, d', holds'⟩, less⟩
    · cases stop
  have returns : ∀ n s f s' out, (K s ∧ G s f ∧ ∃ d, J d f) →
      getStep cfg (sched n).choice (s.envs (sched n).before) f = (s', .inr out) →
      K s' ∧ ∃ d, J d out.1 ∧ Post d out.1 out.2 := by
    rintro n s f s' out ⟨keeps, linked, d, holds⟩ taken
    obtain ⟨keeps', -, seen⟩ := sees n s d f keeps linked holds
    rw [taken] at keeps' seen
    rcases rule.step holds seen with ⟨_, _, next, _⟩ | ⟨r, stop, post⟩
    · cases next
    · cases stop
      exact ⟨keeps', d, holds, post⟩
  obtain ⟨s', ⟨f, r⟩, run, keeps, d, holds', post⟩ :=
    drive_rule (fun s f => K s ∧ G s f ∧ ∃ d, J d f) (fun s out => K s ∧ ∃ d, J d out.1 ∧ Post d out.1 out.2)
      GetFrame.rank continues returns (2 * (len : Int).toNat + 2) 0 s (GetFrame.start hash off len dst)
      (by simp [GetFrame.rank, GetFrame.start]) ⟨start, linked, 0, holds⟩
  exact ⟨s', f, d, r, run, keeps, holds', post⟩

end

/-! ## Any call returns -/

/-- Whatever a step does, it returns or comes closer to the end. -/
theorem getStep_rank {cfg : Config} {setRefused : Bool} {s : Cas} {f f' : GetFrame}
    (small : f.remainingLength < 2 ^ 63) (pending : f.pc = .disk → 0 < f.remainingLength)
    (next : (getStep cfg setRefused s f).2 = .inl f') :
    (f'.remainingLength < 2 ^ 63 ∧ (f'.pc = .disk → 0 < f'.remainingLength)) ∧ f'.rank < f.rank := by
  rcases getStep_goes_on next with ⟨pc, left, rfl⟩ | ⟨v, asked, consumed⟩
  · exact ⟨⟨small, fun _ => left⟩, by simp [GetFrame.rank, pc]⟩
  · have left : 0 < f.remainingLength := asked.elim pending id
    obtain ⟨pc, -, k, some_left, rest⟩ := consume_next consumed
    rw [wrap_eq (by omega) (by omega)] at rest
    refine ⟨⟨by omega, fun disk => by rw [pc] at disk; cases disk⟩, ?_⟩
    simp only [GetFrame.rank, pc]
    omega

/-- **Every call returns**, for any offset and length, and keeps what its steps keep. -/
theorem get_keeps {cfg : Config} {sched : Nat → Around Bool} {K : Cas → Prop}
    (keeps : ∀ n s f, K s → K (getStep cfg (sched n).choice (s.envs (sched n).before) f).1)
    {s : Cas} (start : K s) (hash : String) (offset : Int) {length : Int} (inRange : length < 2 ^ 63) (dst : Bytes) :
    ∃ s' out, s.get cfg sched hash offset length dst = some (s', out) ∧ K s' := by
  apply drive_rule (fun s f => K s ∧ f.remainingLength < 2 ^ 63 ∧ (f.pc = .disk → 0 < f.remainingLength))
    (fun s _ => K s) GetFrame.rank
  · rintro n s f s' f' ⟨holds, small, pending⟩ taken
    have next : (getStep cfg (sched n).choice (s.envs (sched n).before) f).2 = .inl f' := by rw [taken]
    obtain ⟨bounds, less⟩ := getStep_rank small pending next
    have holds' := keeps n s f holds
    rw [taken] at holds'
    exact ⟨⟨holds', bounds⟩, less⟩
  · rintro n s f s' r ⟨holds, -, -⟩ taken
    have holds' := keeps n s f holds
    rwa [taken] at holds'
  · simp [GetFrame.rank, GetFrame.start]
  · exact ⟨start, inRange, fun pc => by cases pc⟩

/-! ## One call over a fixed table of chunks -/

/-- The chunk of an object that a read is served, from memory or from disk. A key list
under a chunk's key is no chunk. -/
def Cas.lookup (s : Cas) (hash : String) (i : Nat) : Option Bytes :=
  match s.cache.get (chunkKey hash i) with
  | some (.chunk _ content) => some content
  | some (.index _) => none
  | none => s.files hash (chunkKey hash i)

/-- `K` is kept by what surrounds a call and by the loads of the call itself, and makes
the storage show the chunks of `tbl`. -/
structure Steady (sched : Nat → Around Bool) (hash : String) (tbl : Table UInt8) (K : Cas → Prop) : Prop where
  shows : ∀ {s}, K s → ∀ i, s.lookup hash i = tbl i
  envs : ∀ {s} n, K s → K (s.envs (sched n).before)
  /-- No key list comes to stand under a chunk's key. -/
  lists : ∀ {s} n (i : Nat) keys, K s →
    (s.envs (sched n).before).cache.get (chunkKey hash i) = some (.index keys) →
    s.cache.get (chunkKey hash i) = some (.index keys)
  load : ∀ {s} (i : Nat) content refused, K s → s.cache.get (chunkKey hash i) = none →
    s.files hash (chunkKey hash i) = some content →
    K { s with cache := (s.cache.put refused false (chunkKey hash i) (.chunk hash content)).1 }

/-- The call is not about to find a key list where it has just found nothing. -/
def NoList (cfg : Config) (s : Cas) (f : GetFrame) : Prop :=
  f.pc = .disk → ∀ keys, s.cache.get (f.key cfg) ≠ some (.index keys)

section

variable {cfg : Config} {sched : Nat → Around Bool} {hash : String} {tbl : Table UInt8} {K : Cas → Prop}
  {off len d : Nat} {s : Cas} {f : GetFrame}

/-- What a step sees of a storage that shows a fixed table. -/
theorem Steady.sees (steady : Steady sched hash tbl K) (n : Nat) (keeps : K s) (unlisted : NoList cfg s f)
    (position : Positioned hash off len d f) :
    let out := getStep cfg (sched n).choice (s.envs (sched n).before) f
    K out.1 ∧ (∀ f', out.2 = .inl f' → NoList cfg out.1 f') ∧
      GetSeen cfg (fun _ i content => tbl i = some content) (fun _ i => tbl i = none) f out.2 := by
  have keeps' := steady.envs n keeps
  have index := position.index cfg
  have key : f.key cfg = chunkKey hash ((off + d) / cfg.pageSizeBytes : Nat) := by
    rw [GetFrame.key, index, position.of_hash]
  have shown := steady.shows keeps' ((off + d) / cfg.pageSizeBytes)
  have unlisted' : NoList cfg (s.envs (sched n).before) f := by
    intro pc keys listed
    rw [key] at listed
    exact unlisted pc keys (by rw [key]; exact steady.lists n _ keys keeps listed)
  have nowhere (gone : tbl ((off + d) / cfg.pageSizeBytes) = none) (i : Nat)
      (at_i : f.o.tdiv cfg.pageSizeBytes = i) : tbl i = none := by
    rw [← Int.ofNat.inj (index.symm.trans at_i)]
    exact gone
  have taken := getStep_taken cfg (sched n).choice (s.envs (sched n).before) f
  generalize s.envs (sched n).before = t at *
  dsimp only
  generalize (getStep cfg (sched n).choice t f).1 = t', (getStep cfg (sched n).choice t f).2 = out at taken
  have loops {u : Cas} {v : Value} (f' : GetFrame) (next : f.consume cfg v = .inl f') : NoList cfg u f' :=
    fun pc => by rw [(consume_next next).1] at pc; cases pc
  have not_loop (pc : f.pc = .disk) : f.pc = .loop → 0 < f.remainingLength :=
    fun loop => by rw [pc] at loop; cases loop
  rw [Cas.lookup, ← key] at shown
  cases taken with
  | finished pc none_left => exact ⟨keeps', fun _ next => (by cases next), .finished pc none_left⟩
  | miss pc left absent =>
    refine ⟨keeps', fun f' next => ?_, .miss pc left⟩
    cases next
    intro _ keys listed
    exact absurd (absent.symm.trans listed) (by simp)
  | absent pc memory file =>
    rw [position.of_hash] at file
    simp only [memory, file] at shown
    exact ⟨keeps', fun _ next => (by cases next), .absent (not_loop pc) _ (nowhere shown.symm)⟩
  | @hit pc left value found =>
    cases value with
    | chunk h content =>
      simp only [found] at shown
      exact ⟨keeps', loops, .chunk (fun _ => left) index shown.symm⟩
    | index keys =>
      simp only [found] at shown
      exact ⟨keeps', loops, .absent (fun _ => left) _ (nowhere shown.symm)⟩
  | recheck pc found =>
    simp only [found] at shown
    exact ⟨keeps', loops, .chunk (not_loop pc) index shown.symm⟩
  | assertion pc found => exact absurd found (unlisted' pc _)
  | loaded pc memory file =>
    rw [position.of_hash] at file
    simp only [memory, file] at shown
    rw [key] at memory file
    refine ⟨?_, loops, .chunk (not_loop pc) index shown.symm⟩
    rw [key, position.of_hash]
    exact steady.load _ _ _ keeps' memory file

/-- The frame of a call whose destination holds the first `d` bytes of the abstract read. -/
structure Follows (cfg : Config) (tbl : Table UInt8) (hash : String) (off len room d : Nat) (f : GetFrame) : Prop
    extends Positioned hash off len d f where
  space : f.dst.length = room
  rest : read cfg.pageSizeBytes tbl off len =
    (read cfg.pageSizeBytes tbl (off + d) (len - d)).map (f.dst.take d ++ ·)

/-- The call returns what the abstract read yields, and an error when it fails. -/
def Yields : Option Bytes → GetFrame → GetResult → Prop
  | some bytes, f, r => r = .ok bytes.length ∧ f.dst.take bytes.length = bytes
  | none, _, r => ∃ e, r = .err e

/-- A loop that stops here has read the whole of what there is. -/
theorem Follows.stop {room : Nat} (h : Follows cfg tbl hash off len room d f) (enough : len ≤ room)
    (nothing : read cfg.pageSizeBytes tbl (off + d) (len - d) = some []) :
    Yields (read cfg.pageSizeBytes tbl off len) f (.ok d) := by
  have bound := h.bound
  have space := h.space
  have delivered : (f.dst.take d).length = d := by rw [List.length_take]; omega
  rw [h.rest, nothing, Option.map_some, List.append_nil]
  constructor
  · rw [delivered]
  · rw [delivered]

theorem Follows.consume {room : Nat} {chunk : Bytes} (h : Follows cfg tbl hash off len room d f)
    (enough : len ≤ room) (more : d < len) (present : tbl ((off + d) / cfg.pageSizeBytes) = some chunk)
    (within : chunk.length ≤ cfg.pageSizeBytes)
    (inRange : min (off + len) ((off + d) / cfg.pageSizeBytes * cfg.pageSizeBytes + chunk.length) < 2 ^ 63) :
    (∃ f' d', f.consume cfg (.chunk hash chunk) = .inl f' ∧ Follows cfg tbl hash off len room d' f' ∧
      d < d' ∧ f'.pc = .loop) ∨
    ∃ r, f.consume cfg (.chunk hash chunk) = .inr (f, r) ∧ Yields (read cfg.pageSizeBytes tbl off len) f r := by
  by_cases short : chunk.length ≤ (off + d) % cfg.pageSizeBytes
  · exact .inr ⟨_, consume_short h.toPositioned short, h.stop enough (read_past present short)⟩
  · left
    have split := Nat.div_add_mod (off + d) cfg.pageSizeBytes
    rw [Nat.mul_comm] at split
    obtain ⟨k, count⟩ : ∃ k, k = min (len - d) (chunk.length - (off + d) % cfg.pageSizeBytes) := ⟨_, rfl⟩
    have space := h.space
    have fits := cfg.fits
    obtain ⟨f', taken, positioned, pc, sameRoom, copied⟩ :=
      consume_more h.toPositioned more (by omega) (by omega) count (by omega) (by omega)
    refine ⟨f', d + k, taken, ⟨positioned, by omega, ?_⟩, by omega, pc⟩
    rw [h.rest, read_take_page (k := k) present within (by omega) (by omega), Option.map_map, copied,
      Nat.add_assoc, Nat.sub_sub]
    congr 1
    funext tail
    simp

/-- **`Get` is the abstract read.** Over a storage that shows the chunks of `tbl`, none of
them longer than a page, a call returns what `Paging.read` yields, and fails exactly when
it does. -/
theorem get_reads (steady : Steady sched hash tbl K)
    (within : ∀ i chunk, tbl i = some chunk → chunk.length ≤ cfg.pageSizeBytes)
    (inRange : ∀ i chunk, tbl i = some chunk → min (off + len) (i * cfg.pageSizeBytes + chunk.length) < 2 ^ 63)
    (small : len < 2 ^ 63) (keeps : K s) {dst : Bytes} (room : len ≤ dst.length) :
    ∃ s' f r, s.get cfg sched hash off len dst = some (s', f, r) ∧ K s' ∧ f.dst.length = dst.length ∧
      Yields (read cfg.pageSizeBytes tbl off len) f r := by
  have rule : ReadRule cfg (fun _ i content => tbl i = some content) (fun _ i => tbl i = none) hash off len
      (Follows cfg tbl hash off len dst.length) (fun _ => Yields (read cfg.pageSizeBytes tbl off len)) :=
    { positioned := fun h => h.toPositioned
      to_disk := fun h more => ⟨h.toPositioned.to_disk more, h.space, h.rest⟩
      chunk := fun h more present => h.consume room more present (within _ _ present) (inRange _ _ present)
      absent := by
        intro d f e h more gone
        rw [h.rest, read_missing gone (by omega)]
        exact ⟨e, rfl⟩
      finished := fun h => h.stop room (by rw [Nat.sub_self, read_zero]) }
  have start : Follows cfg tbl hash off len dst.length 0 (GetFrame.start hash off len dst) :=
    ⟨Positioned.start hash off dst small, rfl, by simp⟩
  obtain ⟨s', f, d, r, run, keeps', holds, post⟩ := rule.call
    (fun n s d f keeps unlisted h => steady.sees n keeps unlisted h.toPositioned) keeps (fun pc => by cases pc) start
  exact ⟨s', f, r, run, keeps', holds.space, post⟩

end

end Blobcache.Storage
