import Blobcache.Storage.Tiers

/-!
# `ContentAddressableStorage.Get`

The read loop, one step at a time, so that other calls can run in between: a step at the
loop head looks the chunk up in memory; after a miss the next step is `getFromDiskCache`,
which runs under the storage's mutex. A chunk in hand is copied by `GetFrame.consume`.
`Cas.get` drives the steps of one call; what happens around them is given by a schedule.

Offsets and lengths are `int64` and come unchecked from the network, so every sum that
can leave the range wraps, division truncates, and a slice expression out of bounds is a
panic. The notice to the prefetcher touches neither tier and is in `Storage.Prefetcher`.
`ResetTTL` is left out, since it only puts off the expiry of the key list: expiries come at
any time here.
-/

namespace Blobcache.Storage
set_option autoImplicit false
open AdmissionCache Execution Int64Arith

inductive GetError where
  | contentNotFound
  | unexpectedCacheValueType
  | invalidChunkBoundaries (start stop chunkSize : Int)
  deriving DecidableEq, Repr

/-- The text of the error, as the handlers print it. -/
def GetError.text : GetError → String
  | .contentNotFound => "content not found"
  | .unexpectedCacheValueType => "unexpected cache value type"
  | .invalidChunkBoundaries start stop chunkSize =>
    "invalid chunk boundaries: start " ++ toString start ++ ", end " ++ toString stop ++
      ", chunk size " ++ toString chunkSize

inductive GetResult where
  | ok (n : Int)
  | err (e : GetError)
  | panic
  deriving DecidableEq, Repr

inductive GetPc where
  | loop
  | disk
  deriving DecidableEq, Repr

/-- A call of `Get(hash, offset, length, dst)` under way. -/
structure GetFrame where
  hash : String
  o : Int
  remainingLength : Int
  dstOffset : Int
  dst : Bytes
  pc : GetPc
  deriving DecidableEq, Repr

def GetFrame.start (hash : String) (offset length : Int) (dst : Bytes) : GetFrame :=
  ⟨hash, offset, length, 0, dst, .loop⟩

/-- `chunkKey` of the chunk the loop is at. -/
def GetFrame.key (cfg : Config) (f : GetFrame) : String :=
  chunkKey f.hash (f.o.tdiv cfg.pageSizeBytes)

/-- The rest of the loop body, once the chunk is in hand. -/
def GetFrame.consume (cfg : Config) (f : GetFrame) : Value → GetFrame ⊕ (GetFrame × GetResult)
  | .index _ => .inr (f, .err .unexpectedCacheValueType)
  | .chunk _ chunkBytes =>
    let size : Int := chunkBytes.length
    let start := f.o.tmod cfg.pageSizeBytes
    let chunkRemaining := wrap (size - start)
    if chunkRemaining ≤ 0 then .inr (f, .ok f.dstOffset)
    else
      let readLength := min f.remainingLength chunkRemaining
      let stop := wrap (start + readLength)
      if start < 0 ∨ stop ≤ start ∨ size < stop then
        .inr (f, .err (.invalidChunkBoundaries start stop size))
      else
        let dstStop := wrap (f.dstOffset + readLength)
        -- dst[dstOffset : dstOffset+readLength]
        if f.dstOffset < 0 ∨ dstStop < f.dstOffset ∨ (f.dst.length : Int) < dstStop then .inr (f, .panic)
        else .inl { f with
          pc := .loop
          remainingLength := wrap (f.remainingLength - readLength)
          o := wrap (f.o + readLength)
          dstOffset := dstStop
          dst := f.dst.take f.dstOffset.toNat ++
            (chunkBytes.drop start.toNat).take readLength.toNat ++ f.dst.drop dstStop.toNat }

inductive DiskLookup where
  | found (value : Value)
  | notFound
  | panic
  deriving DecidableEq, Repr

/-- `getFromDiskCache`: memory once more, then the chunk file, which is offered to the
memory cache. The result of the offer is ignored. -/
def Cas.getFromDiskCache (s : Cas) (hash key : String) (setRefused : Bool) : Cas × DiskLookup :=
  match s.cache.get key with
  | some (.chunk h content) => (s, .found (.chunk h content))
  -- rawValue.(cacheValue) on a string
  | some (.index _) => (s, .panic)
  | none =>
    match s.files hash key with
    | none => (s, .notFound)
    | some chunkBytes =>
      ({ s with cache := (s.cache.put setRefused false key (.chunk hash chunkBytes)).1 },
        .found (.chunk hash chunkBytes))

/-- One step of a call; `setRefused` is what the memory cache answers to an offer. -/
def getStep (cfg : Config) (setRefused : Bool) (s : Cas) (f : GetFrame) :
    Cas × (GetFrame ⊕ (GetFrame × GetResult)) :=
  match f.pc with
  | .loop =>
    if 0 < f.remainingLength then
      match s.cache.get (f.key cfg) with
      | some value => (s, f.consume cfg value)
      | none => (s, .inl { f with pc := .disk })
    else (s, .inr (f, .ok f.dstOffset))
  | .disk =>
    match s.getFromDiskCache f.hash (f.key cfg) setRefused with
    | (s', .found value) => (s', f.consume cfg value)
    | (s', .notFound) => (s', .inr (f, .err .contentNotFound))
    | (s', .panic) => (s', .inr (f, .panic))

/-- The arguments of a call of `Get`. -/
structure GetCall where
  hash : String
  offset : Int
  length : Int
  dst : Bytes
  offset_inRange : InRange offset
  length_inRange : InRange length
  deriving DecidableEq, Repr

/-- Reads of one byte and of two, for small examples. -/
def readOne : GetCall := ⟨"a", 0, 1, [0], by decide, by decide⟩

def readTwo : GetCall := ⟨"a", 0, 2, [0, 0], by decide, by decide⟩

/-- What surrounds a step of a call: the environment before it, and the choices left to
the cache and the disk in it. -/
structure Around (χ : Type) where
  before : List EnvStep
  choice : χ

/-- The whole call. A chunk that is read advances by a byte at least, and takes two steps. -/
def Cas.get (cfg : Config) (sched : Nat → Around Bool) (s : Cas) (hash : String)
    (offset length : Int) (dst : Bytes) : Option (Cas × (GetFrame × GetResult)) :=
  drive (fun i s f => getStep cfg (sched i).choice (s.envs (sched i).before) f)
    (2 * length.toNat + 2) 0 s (GetFrame.start hash offset length dst)

/-! ## What a step can do -/

/-- The outcomes of one step, by the branch taken. -/
inductive GetTaken (cfg : Config) (setRefused : Bool) (s : Cas) (f : GetFrame) :
    Cas → GetFrame ⊕ (GetFrame × GetResult) → Prop where
  | finished (pc : f.pc = .loop) (none_left : f.remainingLength ≤ 0) :
      GetTaken cfg setRefused s f s (.inr (f, .ok f.dstOffset))
  | hit (pc : f.pc = .loop) (left : 0 < f.remainingLength) {value : Value}
      (found : s.cache.get (f.key cfg) = some value) :
      GetTaken cfg setRefused s f s (f.consume cfg value)
  | miss (pc : f.pc = .loop) (left : 0 < f.remainingLength) (absent : s.cache.get (f.key cfg) = none) :
      GetTaken cfg setRefused s f s (.inl { f with pc := .disk })
  | recheck (pc : f.pc = .disk) {hash : String} {content : Bytes}
      (found : s.cache.get (f.key cfg) = some (.chunk hash content)) :
      GetTaken cfg setRefused s f s (f.consume cfg (.chunk hash content))
  | assertion (pc : f.pc = .disk) {chunkKeys : String}
      (found : s.cache.get (f.key cfg) = some (.index chunkKeys)) :
      GetTaken cfg setRefused s f s (.inr (f, .panic))
  | absent (pc : f.pc = .disk) (memory : s.cache.get (f.key cfg) = none)
      (file : s.files f.hash (f.key cfg) = none) :
      GetTaken cfg setRefused s f s (.inr (f, .err .contentNotFound))
  | loaded (pc : f.pc = .disk) (memory : s.cache.get (f.key cfg) = none) {content : Bytes}
      (file : s.files f.hash (f.key cfg) = some content) :
      GetTaken cfg setRefused s f
        { s with cache := (s.cache.put setRefused false (f.key cfg) (.chunk f.hash content)).1 }
        (f.consume cfg (.chunk f.hash content))

theorem getStep_taken (cfg : Config) (setRefused : Bool) (s : Cas) (f : GetFrame) :
    GetTaken cfg setRefused s f (getStep cfg setRefused s f).1 (getStep cfg setRefused s f).2 := by
  cases pc : f.pc with
  | loop =>
    simp only [getStep, pc]
    split
    · cases found : s.cache.get (f.key cfg) with
      | some value => exact .hit pc ‹_› found
      | none => exact .miss pc ‹_› found
    · exact .finished pc (by omega)
  | disk =>
    simp only [getStep, pc, Cas.getFromDiskCache]
    cases found : s.cache.get (f.key cfg) with
    | some value =>
      cases value with
      | chunk hash content => exact .recheck pc found
      | index chunkKeys => exact .assertion pc found
    | none =>
      cases file : s.files f.hash (f.key cfg) with
      | some content => exact .loaded pc found file
      | none => exact .absent pc found file

section

variable {cfg : Config} {setRefused : Bool} {s : Cas} {f : GetFrame}

theorem getStep_finished (pc : f.pc = .loop) (done : f.remainingLength ≤ 0) :
    getStep cfg setRefused s f = (s, .inr (f, .ok f.dstOffset)) := by
  simp only [getStep, pc, if_neg (Int.not_lt.mpr done)]

theorem getStep_miss (pc : f.pc = .loop) (left : 0 < f.remainingLength) (absent : s.cache.get (f.key cfg) = none) :
    getStep cfg setRefused s f = (s, .inl { f with pc := .disk }) := by
  simp only [getStep, pc, if_pos left, absent]

theorem getStep_loaded (pc : f.pc = .disk) (absent : s.cache.get (f.key cfg) = none) {content : Bytes}
    (file : s.files f.hash (f.key cfg) = some content) :
    (getStep cfg setRefused s f).2 = f.consume cfg (.chunk f.hash content) := by
  simp only [getStep, pc, Cas.getFromDiskCache, absent, file]

end

/-- What the step loads from disk may stand in memory. -/
def Loadable (cfg : Config) (inMemory onDisk : ChunkPred) (s : Cas) (f : GetFrame) : Prop :=
  f.pc = .disk → s.cache.get (f.key cfg) = none → ∀ (i : Nat) content,
    s.files f.hash (chunkKey f.hash i) = some content → f.key cfg = chunkKey f.hash i →
    onDisk f.hash i content → inMemory f.hash i content

theorem Loadable.same (cfg : Config) (p : ChunkPred) (s : Cas) (f : GetFrame) : Loadable cfg p p s f :=
  fun _ _ _ _ _ _ good => good

/-- What a step sees of the storage: the chunk it takes in hand, from either tier, is the
chunk at the read position and satisfies `chunkAt`; a chunk it finds in neither is `gone`. -/
inductive GetSeen (cfg : Config) (chunkAt : ChunkPred) (gone : String → Nat → Prop) (f : GetFrame) :
    GetFrame ⊕ (GetFrame × GetResult) → Prop where
  | finished (pc : f.pc = .loop) (none_left : f.remainingLength ≤ 0) :
      GetSeen cfg chunkAt gone f (.inr (f, .ok f.dstOffset))
  | miss (pc : f.pc = .loop) (left : 0 < f.remainingLength) :
      GetSeen cfg chunkAt gone f (.inl { f with pc := .disk })
  | absent (left : f.pc = .loop → 0 < f.remainingLength) (e : GetError)
      (nowhere : ∀ i : Nat, f.o.tdiv cfg.pageSizeBytes = i → gone f.hash i) :
      GetSeen cfg chunkAt gone f (.inr (f, .err e))
  | chunk (left : f.pc = .loop → 0 < f.remainingLength) {i : Nat} (index : f.o.tdiv cfg.pageSizeBytes = i)
      {content : Bytes} (good : chunkAt f.hash i content) :
      GetSeen cfg chunkAt gone f (f.consume cfg (.chunk f.hash content))

/-- Nothing is known of a chunk that was not found. -/
def Unknown (_ : String) (_ : Nat) : Prop := True

section

variable {inMemory onDisk : ChunkPred} {cfg : Config} {s : Cas} {f : GetFrame}

/-- What a step sees of tiers that satisfy an invariant. -/
theorem getStep_seen (h : Tiers inMemory onDisk s) (loadable : Loadable cfg inMemory onDisk s f)
    (setRefused : Bool) : GetSeen cfg inMemory Unknown f (getStep cfg setRefused s f).2 := by
  have taken := getStep_taken cfg setRefused s f
  generalize (getStep cfg setRefused s f).1 = s', (getStep cfg setRefused s f).2 = out at taken
  cases taken with
  | finished pc none_left => exact .finished pc none_left
  | miss pc left _ => exact .miss pc left
  | absent pc _ _ => exact .absent (fun loop => by rw [pc] at loop; cases loop) _ fun _ _ => trivial
  | hit pc left found =>
    obtain ⟨content, i, rfl, index, good⟩ := h.seen found
    exact .chunk (fun _ => left) index good
  | recheck pc found =>
    obtain ⟨content, i, same, index, good⟩ := h.seen found
    rw [same]
    exact .chunk (fun loop => by rw [pc] at loop; cases loop) index good
  | assertion pc found =>
    obtain ⟨_, _, same, _⟩ := h.seen found
    cases same
  | loaded pc memory file =>
    obtain ⟨_, i, index, good⟩ := h.file file
    have key : f.key cfg = chunkKey f.hash i := by rw [← index]; rfl
    exact .chunk (fun loop => by rw [pc] at loop; cases loop) index
      (loadable pc memory i _ (by rw [← key]; exact file) key good)

/-- A read keeps the tiers. -/
theorem getStep_tiers (h : Tiers inMemory onDisk s) (loadable : Loadable cfg inMemory onDisk s f)
    (setRefused : Bool) : Tiers inMemory onDisk (getStep cfg setRefused s f).1 := by
  have taken := getStep_taken cfg setRefused s f
  generalize (getStep cfg setRefused s f).1 = s', (getStep cfg setRefused s f).2 = out at taken
  cases taken with
  | loaded pc memory file =>
    obtain ⟨plain, i, index, good⟩ := h.file file
    have key : f.key cfg = chunkKey f.hash i := by rw [← index]; rfl
    have new := loadable pc memory i _ (by rw [← key]; exact file) key good
    rw [key]
    exact h.put_chunk plain new setRefused
  | _ => exact h

end

/-- After a chunk the loop starts over with what is left. -/
theorem consume_next {cfg : Config} {f f' : GetFrame} {v : Value} (next : f.consume cfg v = .inl f') :
    f'.pc = .loop ∧ f'.hash = f.hash ∧
      ∃ k : Int, 0 < k ∧ f'.remainingLength = wrap (f.remainingLength - min f.remainingLength k) := by
  unfold GetFrame.consume at next
  split at next
  · cases next
  · dsimp only at next
    split at next
    · cases next
    · rename_i some_left
      split at next
      · cases next
      · split at next
        · cases next
        · cases next
          exact ⟨rfl, rfl, _, by omega, rfl⟩

/-- The ways a call goes on: it turns to the disk, or it has taken a chunk. -/
theorem getStep_goes_on {cfg : Config} {setRefused : Bool} {s : Cas} {f f' : GetFrame}
    (next : (getStep cfg setRefused s f).2 = .inl f') :
    (f.pc = .loop ∧ 0 < f.remainingLength ∧ f' = { f with pc := .disk }) ∨
      ∃ v, (f.pc = .disk ∨ 0 < f.remainingLength) ∧ f.consume cfg v = .inl f' := by
  have taken := getStep_taken cfg setRefused s f
  rw [next] at taken
  generalize (getStep cfg setRefused s f).1 = s' at taken
  generalize out : Sum.inl f' = o at taken
  cases taken with
  | finished | absent | assertion => cases out
  | miss pc left =>
    cases out
    exact .inl ⟨pc, left, rfl⟩
  | hit pc left => exact .inr ⟨_, .inr left, rfl⟩
  | recheck pc | loaded pc => exact .inr ⟨_, .inl pc, rfl⟩

/-- A read touches nothing but the memory cache. -/
theorem getStep_disk (cfg : Config) (setRefused : Bool) (s : Cas) (f : GetFrame) :
    (getStep cfg setRefused s f).1.dirs = s.dirs ∧ (getStep cfg setRefused s f).1.files = s.files := by
  have taken := getStep_taken cfg setRefused s f
  generalize (getStep cfg setRefused s f).1 = s', (getStep cfg setRefused s f).2 = out at taken
  cases taken <;> exact ⟨rfl, rfl⟩

/-! ## The loop body in range -/

/-- The frame of a call for `len` bytes of an object from `off` on that has delivered `d`. -/
structure Positioned (hash : String) (off len d : Nat) (f : GetFrame) : Prop where
  of_hash : f.hash = hash
  o : f.o = (off + d : Nat)
  remaining : f.remainingLength = (len - d : Nat)
  written : f.dstOffset = d
  bound : d ≤ len
  small : len < 2 ^ 63
  pending : f.pc = .disk → d < len

theorem Positioned.start (hash : String) (off : Nat) {len : Nat} (dst : Bytes) (small : len < 2 ^ 63) :
    Positioned hash off len 0 (GetFrame.start hash off len dst) :=
  ⟨rfl, rfl, rfl, rfl, Nat.zero_le _, small, fun disk => by cases disk⟩

section

variable {cfg : Config} {f : GetFrame} {hash : String} {off len d k : Nat} {content : Bytes}

theorem Positioned.to_disk (h : Positioned hash off len d f) (more : d < len) :
    Positioned hash off len d { f with pc := .disk } :=
  ⟨h.of_hash, h.o, h.remaining, h.written, h.bound, h.small, fun _ => more⟩

theorem Positioned.index (h : Positioned hash off len d f) (cfg : Config) :
    f.o.tdiv cfg.pageSizeBytes = ((off + d) / cfg.pageSizeBytes : Nat) := by
  rw [h.o]
  norm_cast

/-- A chunk that ends before the position ends the read. -/
theorem consume_short (h : Positioned hash off len d f)
    (short : content.length ≤ (off + d) % cfg.pageSizeBytes) :
    f.consume cfg (.chunk hash content) = .inr (f, .ok d) := by
  have start : f.o.tmod cfg.pageSizeBytes = ((off + d) % cfg.pageSizeBytes : Nat) := by
    rw [h.o]; norm_cast
  have page := Nat.mod_lt (off + d) cfg.positive
  have fits := cfg.fits
  have remaining : wrap ((content.length : Int) - ((off + d) % cfg.pageSizeBytes : Nat)) ≤ 0 := by
    rw [wrap_eq (by omega) (by omega)]; omega
  simp only [GetFrame.consume, start, if_pos remaining, h.written]

/-- A chunk that reaches beyond the position is copied as far as it goes, provided the
destination has room; otherwise the slice expression is out of bounds. -/
theorem consume_copies (h : Positioned hash off len d f) (more : d < len)
    (reaches : (off + d) % cfg.pageSizeBytes < content.length) (size : content.length < 2 ^ 63)
    (count : k = min (len - d) (content.length - (off + d) % cfg.pageSizeBytes)) :
    f.consume cfg (.chunk hash content) =
      if d + k ≤ f.dst.length then
        .inl { f with
          pc := .loop, remainingLength := (len - (d + k) : Nat), o := wrap ((off + d : Nat) + k),
          dstOffset := (d + k : Nat),
          dst := f.dst.take d ++ (content.drop ((off + d) % cfg.pageSizeBytes)).take k ++ f.dst.drop (d + k) }
      else .inr (f, .panic) := by
  have start : ((off + d : Nat) : Int).tmod cfg.pageSizeBytes = ((off + d) % cfg.pageSizeBytes : Nat) := by
    norm_cast
  generalize (off + d) % cfg.pageSizeBytes = a at *
  have small := h.small
  have least : min ((len - d : Nat) : Int) ((content.length - a : Nat) : Int) = k := by
    rw [count]; norm_cast
  obtain ⟨positive, inRequest, inChunk⟩ : 0 < k ∧ d + k ≤ len ∧ a + k ≤ content.length := by omega
  clear count
  have before : a ≤ content.length := by omega
  have inChunk' : a + k < 2 ^ 63 := by omega
  have inDst : d + k < 2 ^ 63 := by omega
  have left : k ≤ len - d := by omega
  have leftSmall : len - d < 2 ^ 63 := by omega
  have notEmpty : ¬ ((content.length - a : Nat) : Int) ≤ 0 := by omega
  have goodBounds : ¬ ((a : Int) < 0 ∨ ((a + k : Nat) : Int) ≤ a ∨ (content.length : Int) < (a + k : Nat)) := by
    omega
  have slice : ((d : Int) < 0 ∨ ((d + k : Nat) : Int) < d ∨ (f.dst.length : Int) < (d + k : Nat)) ↔
      ¬ d + k ≤ f.dst.length := by
    omega
  simp only [GetFrame.consume, h.o, start, wrap_sub before size, h.remaining, least, wrap_add inChunk',
    h.written, wrap_add inDst, wrap_sub left leftSmall, if_neg notEmpty, if_neg goodBounds,
    slice, ite_not, Int.toNat_natCast, Nat.sub_sub]

/-- The position does not leave the range. -/
theorem consume_reaches (h : Positioned hash off len d f) (more : d < len)
    (reaches : (off + d) % cfg.pageSizeBytes < content.length) (size : content.length < 2 ^ 63)
    (count : k = min (len - d) (content.length - (off + d) % cfg.pageSizeBytes))
    (inRange : off + d + k < 2 ^ 63) :
    f.consume cfg (.chunk hash content) =
      if d + k ≤ f.dst.length then
        .inl { f with
          pc := .loop, remainingLength := (len - (d + k) : Nat), o := (off + (d + k) : Nat),
          dstOffset := (d + k : Nat),
          dst := f.dst.take d ++ (content.drop ((off + d) % cfg.pageSizeBytes)).take k ++ f.dst.drop (d + k) }
      else .inr (f, .panic) := by
  rw [consume_copies h more reaches size count, wrap_add inRange, Nat.add_assoc]

/-- The position after a chunk was copied. -/
theorem consume_more (h : Positioned hash off len d f) (more : d < len)
    (reaches : (off + d) % cfg.pageSizeBytes < content.length) (size : content.length < 2 ^ 63)
    (count : k = min (len - d) (content.length - (off + d) % cfg.pageSizeBytes))
    (inRange : off + d + k < 2 ^ 63) (room : d + k ≤ f.dst.length) :
    ∃ f', f.consume cfg (.chunk hash content) = .inl f' ∧ Positioned hash off len (d + k) f' ∧
      f'.pc = .loop ∧ f'.dst.length = f.dst.length ∧
      f'.dst.take (d + k) = f.dst.take d ++ (content.drop ((off + d) % cfg.pageSizeBytes)).take k := by
  have copied : ((content.drop ((off + d) % cfg.pageSizeBytes)).take k).length = k := by
    simp only [List.length_take, List.length_drop]; omega
  rw [consume_reaches h more reaches size count inRange, if_pos room]
  refine ⟨_, rfl, ⟨h.of_hash, rfl, rfl, rfl, by omega, h.small, fun disk => by cases disk⟩, rfl, ?_, ?_⟩
  · simp only [List.length_append, List.length_take, List.length_drop]; omega
  · apply List.take_left'
    rw [List.length_append, copied, List.length_take]; omega

end

end Blobcache.Storage
