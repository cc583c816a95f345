import Blobcache.Lib.ForkJoin
import Blobcache.Server.Content

/-!
# Downloading an object from S3

`s3_client.go`: `DownloadIntoBuffer` asks for the size of the object and requests it in
ranges of `DownloadChunkSize` bytes, as many at a time as `DownloadConcurrency` says. It is
a `ForkJoin.Plan`: a goroutine for each range, which sends what it has read into a channel,
a failure cancelling the others; the chunks that come are put in their places, and in the
end written to the buffer, unless there was an error.

A range request is answered by a refusal or by a body, which delivers some bytes and then
ends, in order or not. `io.ReadFull` reports a body that ends early, but the goroutine takes
it for complete.
-/

namespace Blobcache.Server
set_option autoImplicit false
open Execution ForkJoin Int64Arith Paging Storage

/-! ## The client's settings -/

def defaultDownloadConcurrency : Nat := 16

/-- 64 MiB. -/
def defaultDownloadChunkSize : Nat := 64 * 1024 * 1024

/-- What a client has beside its source. -/
structure S3Settings where
  downloadConcurrency : Nat
  downloadChunkSize : Nat
  concurrent : 0 < downloadConcurrency
  positive : 0 < downloadChunkSize
  fits : downloadChunkSize < 2 ^ 63

/-- A setting that is not positive is replaced by its default. -/
def orDefault (default : Nat) (value : Int) : Nat := if value ≤ 0 then default else value.toNat

theorem orDefault_pos {default : Nat} (positive : 0 < default) (value : Int) : 0 < orDefault default value := by
  unfold orDefault
  split <;> omega

theorem orDefault_fits {default : Nat} (fits : default < 2 ^ 63) {value : Int} (inRange : InRange value) :
    orDefault default value < 2 ^ 63 := by
  have := inRange.2
  unfold orDefault
  split <;> omega

theorem defaultDownloadConcurrency_pos : 0 < defaultDownloadConcurrency := by decide

theorem defaultDownloadChunkSize_pos : 0 < defaultDownloadChunkSize := by decide

theorem defaultDownloadChunkSize_fits : defaultDownloadChunkSize < 2 ^ 63 := by decide

/-- `NewS3Client`, of the server's configuration. -/
def newS3Settings (s3DownloadConcurrency s3DownloadChunkSize : Int) (inRange : InRange s3DownloadChunkSize) :
    S3Settings where
  downloadConcurrency := orDefault defaultDownloadConcurrency s3DownloadConcurrency
  downloadChunkSize := orDefault defaultDownloadChunkSize s3DownloadChunkSize
  concurrent := orDefault_pos defaultDownloadConcurrency_pos _
  positive := orDefault_pos defaultDownloadChunkSize_pos _
  fits := orDefault_fits defaultDownloadChunkSize_fits inRange

/-! ## Ranges -/

namespace S3Settings

variable (c : S3Settings)

/-- `int((size + c.DownloadChunkSize - 1) / c.DownloadChunkSize)`. -/
def numChunks (size : Int) : Int := (wrap (wrap (size + c.downloadChunkSize) - 1)).tdiv c.downloadChunkSize

def rangeStart (i : Nat) : Int := wrap (i * c.downloadChunkSize)

def rangeEnd (size : Int) (i : Nat) : Int :=
  let stop := wrap (wrap (c.rangeStart i + c.downloadChunkSize) - 1)
  if size ≤ stop then wrap (size - 1) else stop

def rangeHeader (size : Int) (i : Nat) : String :=
  "bytes=" ++ toString (c.rangeStart i) ++ "-" ++ toString (c.rangeEnd size i)

/-- `end-start+1`, the length of the part to be read. -/
def partSize (size : Int) (i : Nat) : Int := wrap (wrap (c.rangeEnd size i - c.rangeStart i) + 1)

end S3Settings

/-! ## One range -/

/-- How a body ends after the bytes it delivers. -/
inductive BodyEnd where
  | eof
  | unexpectedEOF
  | failed (cause : String)
  deriving DecidableEq, Repr

/-- What a range request is answered. -/
inductive Response where
  | refused (cause : String)
  | body (bytes : Bytes) (ends : BodyEnd)
  deriving DecidableEq, Repr

/-- `io.ReadFull`: the bytes read and the error, which is `io.EOF` only when nothing was read. -/
def readFull (size : Nat) (bytes : Bytes) (ends : BodyEnd) : Bytes × Option BodyEnd :=
  if size ≤ bytes.length then (bytes.take size, none)
  else (bytes, some (if ends = .eof ∧ bytes ≠ [] then .unexpectedEOF else ends))

/-- `chunkResult`, without its index. -/
structure ChunkResult where
  data : Bytes
  err : Option String
  deriving DecidableEq, Repr

/-- What is sent after the body has been read: `io.EOF` and `io.ErrUnexpectedEOF` are no errors. -/
def ChunkResult.ofRead (rangeHeader : String) : Bytes × Option BodyEnd → ChunkResult
  | (_, some (.failed cause)) => ⟨[], some ("error reading range " ++ rangeHeader ++ ": " ++ cause)⟩
  | (part, _) => ⟨part, none⟩

/-- What the goroutine of a range makes of the answer. -/
def S3Settings.chunkResult (c : S3Settings) (size : Int) (i : Nat) : Response → ChunkResult
  | .refused cause => ⟨[], some ("range request failed for " ++ c.rangeHeader size i ++ ": " ++ cause)⟩
  | .body bytes ends => .ofRead (c.rangeHeader size i) (readFull (c.partSize size i).toNat bytes ends)

/-! ## The whole download -/

/-- The goroutines of the ranges, and the loop that takes their results. -/
def S3Settings.plan (c : S3Settings) (size : Int) : Plan Response ChunkResult (List Bytes × List String) where
  jobs := (c.numChunks size).toNat
  limit := c.downloadConcurrency
  work := c.chunkResult size
  aborts r := r.err.isSome
  collect chunks res := (chunks.1.set res.1 res.2.data, chunks.2 ++ res.2.err.toList)

/-- What is left to do when all results are in. The buffer is reset before it is written. -/
structure Downloaded where
  buffer : Bytes
  err : Option String
  deriving DecidableEq, Repr

def conclude (buffer : Bytes) (collected : List Bytes × List String) : Downloaded :=
  if collected.2 = [] then ⟨collected.1.flatten, none⟩
  else ⟨buffer, some ("download errors: [" ++ " ".intercalate collected.2 ++ "]")⟩

/-- The answer to `HeadObject`. -/
inductive Head where
  | failed (cause : String)
  | found (contentLength : Int)
  deriving DecidableEq, Repr

/-- Every call of `DownloadIntoBuffer` ends in a way that satisfies `Q`. `make` panics on a
negative number of chunks. -/
def S3Settings.Downloads (c : S3Settings) (head : Head) (answers : Nat → Response) (buffer : Bytes)
    (Q : Outcome Downloaded → Prop) : Prop :=
  match head with
  | .failed cause => Q (.returned ⟨buffer, some cause⟩)
  | .found size =>
    if size ≤ 0 then Q (.returned ⟨buffer, some ("invalid object size: " ++ toString size)⟩)
    else if c.numChunks size < 0 then Q .panicked
    else Inevitable (c.plan size).step ((c.plan size).Admits answers)
      (fun q => q.shared.finished = true ∧ Q (.returned (conclude buffer q.shared.collected)))
      ((c.plan size).start (List.replicate (c.numChunks size).toNat [], []))

/-! ## The arithmetic of the ranges -/

namespace S3Settings

variable {c : S3Settings} {size i : Nat}

theorem numChunks_eq (positive : 0 < size) (fits : size + c.downloadChunkSize ≤ 2 ^ 63) :
    c.numChunks size = ((size + c.downloadChunkSize - 1) / c.downloadChunkSize : Nat) := by
  have exact_sum : ((size : Int) + c.downloadChunkSize) - 1 = (size + c.downloadChunkSize - 1 : Nat) := by omega
  rw [numChunks, wrap_wrap_sub, exact_sum, wrap_eq (by omega) (by omega), Int.ofNat_tdiv]

/-- The sum overflows for huge sizes: the number of chunks is negative or zero then. -/
theorem numChunks_overflow (inRange : size < 2 ^ 63) (overflow : 2 ^ 63 < size + c.downloadChunkSize) :
    c.numChunks size = -((2 ^ 64 + 1 - size - c.downloadChunkSize) / c.downloadChunkSize : Nat) := by
  have := c.fits
  have wrapped : ((size : Int) + c.downloadChunkSize - 1) - 2 ^ 64 =
      -(2 ^ 64 + 1 - size - c.downloadChunkSize : Nat) := by omega
  rw [numChunks, wrap_wrap_sub, wrap_over (by omega) (by omega), wrapped, Int.neg_tdiv, Int.ofNat_tdiv]

/-- A range is requested for each chunk that begins inside the object. -/
theorem lt_numChunks_iff (positive : 0 < size) (fits : size + c.downloadChunkSize ≤ 2 ^ 63) :
    i < (c.numChunks size).toNat ↔ i * c.downloadChunkSize < size := by
  have := c.positive
  rw [numChunks_eq positive fits, Int.toNat_natCast, ← Nat.succ_le_iff, Nat.le_div_iff_mul_le c.positive,
    Nat.succ_mul]
  omega

theorem rangeStart_eq (inside : i * c.downloadChunkSize < size) (fits : size + c.downloadChunkSize ≤ 2 ^ 63) :
    c.rangeStart i = (i * c.downloadChunkSize : Nat) := by
  rw [rangeStart, ← Int.natCast_mul, wrap_eq (by omega) (by omega)]

theorem rangeEnd_eq (inside : i * c.downloadChunkSize < size) (fits : size + c.downloadChunkSize ≤ 2 ^ 63) :
    c.rangeEnd size i = (min size (i * c.downloadChunkSize + c.downloadChunkSize) - 1 : Nat) := by
  have := c.positive
  rw [rangeEnd, rangeStart_eq inside fits, wrap_wrap_sub, wrap_eq (by omega) (by omega)]
  split
  · rw [wrap_eq (by omega) (by omega)]
    omega
  · omega

theorem partSize_eq (inside : i * c.downloadChunkSize < size) (fits : size + c.downloadChunkSize ≤ 2 ^ 63) :
    c.partSize size i = (min c.downloadChunkSize (size - i * c.downloadChunkSize) : Nat) := by
  have := c.positive
  rw [partSize, wrap_wrap_add, rangeEnd_eq inside fits, rangeStart_eq inside fits, wrap_eq (by omega) (by omega)]
  omega

/-- The positions a range header asks for. -/
def range (c : S3Settings) (size : Int) (i : Nat) : Set Int := Set.Icc (c.rangeStart i) (c.rangeEnd size i)

/-- The bytes it asks for. -/
def requested (c : S3Settings) (object : Bytes) (i : Nat) : Bytes :=
  (object.drop (c.rangeStart i).toNat).take (c.rangeEnd object.length i - c.rangeStart i + 1).toNat

/-- The range of a chunk has the positions that fall into the chunk. -/
theorem mem_range_iff (inside : i * c.downloadChunkSize < size) (fits : size + c.downloadChunkSize ≤ 2 ^ 63) {x : Int} :
    x ∈ c.range size i ↔ (0 ≤ x ∧ x < size) ∧ x.toNat / c.downloadChunkSize = i := by
  have := c.positive
  rw [range, Set.mem_Icc, rangeStart_eq inside fits, rangeEnd_eq inside fits, Nat.div_eq_iff c.positive]
  omega

variable {object : Bytes}

theorem requested_eq (inside : i * c.downloadChunkSize < object.length)
    (fits : object.length + c.downloadChunkSize ≤ 2 ^ 63) :
    c.requested object i = page c.downloadChunkSize i object := by
  have := c.positive
  rw [requested, rangeEnd_eq inside fits, rangeStart_eq inside fits, Int.toNat_natCast, page, List.take_eq_take_iff,
    List.length_drop]
  omega

theorem partSize_length (inside : i * c.downloadChunkSize < object.length)
    (fits : object.length + c.downloadChunkSize ≤ 2 ^ 63) :
    (c.partSize object.length i).toNat = (page c.downloadChunkSize i object).length := by
  rw [partSize_eq inside fits, Int.toNat_natCast, page_length]

end S3Settings

/-! ## What a range comes to -/

namespace Response

/-- A body that fails before its part is complete, or no body at all. -/
def Fails (size : Nat) : Response → Prop
  | refused _ => True
  | body bytes ends => bytes.length < size ∧ ∃ cause, ends = .failed cause

/-- A body that ends before its part is complete. -/
def EndsEarly (size : Nat) : Response → Prop
  | refused _ => False
  | body bytes ends => bytes.length < size ∧ ∀ cause, ends ≠ .failed cause

/-- The bytes delivered. -/
def bytes : Response → Bytes
  | refused _ => []
  | body bytes _ => bytes

theorem endsEarly_iff {size : Nat} {answer : Response} (complete : ¬ answer.Fails size) :
    answer.EndsEarly size ↔ answer.bytes.length < size := by
  rcases answer with cause | ⟨bytes, ends⟩
  · exact (complete trivial).elim
  · exact ⟨And.left, fun short => ⟨short, fun cause failed => complete ⟨short, cause, failed⟩⟩⟩

end Response

theorem readFull_short {size : Nat} {bytes : Bytes} (short : bytes.length < size) (ends : BodyEnd) :
    ∃ err, readFull size bytes ends = (bytes, some err) ∧ ∀ cause, err = .failed cause ↔ ends = .failed cause := by
  refine ⟨_, if_neg (by omega), fun cause => ?_⟩
  split
  · rename_i ended
    rw [ended.1]
    simp
  · rfl

theorem readFull_whole {size : Nat} {bytes : Bytes} (whole : bytes.length = size) (ends : BodyEnd) :
    readFull size bytes ends = (bytes, none) := by
  rw [readFull, if_pos (by omega), List.take_of_length_le (by omega)]

/-- A range that fails gives an error, any other the bytes delivered. -/
theorem S3Settings.chunkResult_cases (c : S3Settings) {size : Int} {i : Nat} {answer : Response}
    (fits : answer.bytes.length ≤ (c.partSize size i).toNat) :
    answer.Fails (c.partSize size i).toNat ∧ (∃ err, c.chunkResult size i answer = ⟨[], some err⟩) ∨
      ¬ answer.Fails (c.partSize size i).toNat ∧ c.chunkResult size i answer = ⟨answer.bytes, none⟩ := by
  rcases answer with cause | ⟨bytes, ends⟩
  · exact .inl ⟨trivial, _, rfl⟩
  simp only [S3Settings.chunkResult, Response.Fails]
  simp only [Response.bytes] at fits ⊢
  generalize (c.partSize size i).toNat = part at fits ⊢
  rcases Nat.lt_or_eq_of_le fits with short | whole
  · obtain ⟨err, read, failed⟩ := readFull_short short ends
    simp only [read, ← failed]
    rcases err with _ | _ | cause
    · exact .inr ⟨by simp, rfl⟩
    · exact .inr ⟨by simp, rfl⟩
    · exact .inl ⟨⟨short, cause, rfl⟩, _, rfl⟩
  · simp only [readFull_whole whole]
    exact .inr ⟨fun fails => Nat.ne_of_lt fails.1 whole, rfl⟩

/-! ## What the download comes to -/

section

variable {c : S3Settings} {size : Int} {answers : Nat → Response}

theorem plan_foldl (arrivals : List (Nat × ChunkResult)) (chunks : List Bytes) (errs : List String) :
    arrivals.foldl (c.plan size).collect (chunks, errs) =
      ((arrivals.map fun a => (a.1, a.2.data)).foldl (fun places a => places.set a.1 a.2) chunks,
        errs ++ arrivals.flatMap fun a => a.2.err.toList) := by
  induction arrivals generalizing chunks errs with
  | nil => simp
  | cons a arrivals ih =>
    rw [List.foldl_cons, List.map_cons, List.foldl_cons, List.flatMap_cons, ← List.append_assoc]
    exact ih _ _

theorem plan_aborted_iff : (c.plan size).Aborted answers ↔
    ∃ i < (c.numChunks size).toNat, (c.chunkResult size i (answers i)).err.isSome = true := Iff.rfl

variable {collected : List Bytes × List String} {arrivals : List (Nat × ChunkResult)}

/-- If some range fails there is an error among those collected. -/
theorem conclude_aborted
    (gathered : (c.plan size).Gathered answers (List.replicate (c.numChunks size).toNat [], []) collected arrivals)
    (aborted : (c.plan size).Aborted answers) (buffer : Bytes) :
    ∃ err, conclude buffer collected = ⟨buffer, some err⟩ := by
  obtain ⟨j, inside, aborts⟩ := aborted
  obtain ⟨⟨_, r⟩, arrival, rfl⟩ := List.mem_map.mp (gathered.once.mem_iff.mpr (List.mem_range.mpr inside))
  have failed : r.err.isSome = true := by
    rcases gathered.results _ arrival with own | ⟨other, _⟩
    · have result : r = (c.plan size).work _ _ := own
      rw [result]
      exact aborts
    · exact other
  obtain ⟨err, here⟩ := Option.isSome_iff_exists.mp failed
  have among : err ∈ collected.2 := by
    rw [gathered.collected_eq, plan_foldl]
    exact List.mem_append_right _ (List.mem_flatMap.mpr ⟨_, arrival, by simp [here]⟩)
  exact ⟨_, if_neg (List.ne_nil_of_mem among)⟩

/-- If none fails the chunks stand in order, however they came. -/
theorem conclude_assembled
    (gathered : (c.plan size).Gathered answers (List.replicate (c.numChunks size).toNat [], []) collected arrivals)
    (complete : ¬ (c.plan size).Aborted answers) (buffer : Bytes) :
    conclude buffer collected =
      ⟨((List.range (c.numChunks size).toNat).map fun i => (c.chunkResult size i (answers i)).data).flatten, none⟩ := by
  have own : ∀ a ∈ arrivals, a.2 = c.chunkResult size a.1 (answers a.1) := fun a arrival =>
    (gathered.results a arrival).resolve_right fun both => complete both.2
  have indices : ((arrivals.map fun a => (a.1, a.2.data)).map Prod.fst).Perm (List.range (c.numChunks size).toNat) := by
    rw [List.map_map]
    exact gathered.once
  have chunks : collected.1 =
      (List.range (c.numChunks size).toNat).map fun i => (c.chunkResult size i (answers i)).data := by
    rw [gathered.collected_eq, plan_foldl]
    refine foldl_set_all indices (fun a arrival => ?_) List.length_replicate
    obtain ⟨a, member, rfl⟩ := List.mem_map.mp arrival
    exact congrArg ChunkResult.data (own a member)
  have errs : collected.2 = [] := by
    rw [gathered.collected_eq, plan_foldl, List.nil_append, List.flatMap_eq_nil_iff]
    intro a arrival
    have inside := List.mem_range.mp (gathered.once.mem_iff.mp (List.mem_map_of_mem arrival))
    rw [own a arrival, Option.toList_eq_nil_iff, ← Option.not_isSome_iff_eq_none]
    exact fun failed => complete ⟨a.1, inside, failed⟩
  rw [conclude, if_pos errs, chunks]

variable {Q : Outcome Downloaded → Prop} {buffer : Bytes}

theorem downloads_found (positive : 0 < size) (countable : 0 ≤ c.numChunks size) :
    c.Downloads (.found size) answers buffer Q ↔
      Inevitable (c.plan size).step ((c.plan size).Admits answers)
        (fun q => q.shared.finished = true ∧ Q (.returned (conclude buffer q.shared.collected)))
        ((c.plan size).start (List.replicate (c.numChunks size).toNat [], [])) := by
  simp only [S3Settings.Downloads, if_neg (Int.not_le.mpr positive), if_neg (Int.not_lt.mpr countable)]

/-- A range that fails makes the download fail, whatever the schedule. -/
theorem downloads_aborted (positive : 0 < size) (countable : 0 ≤ c.numChunks size)
    (aborted : (c.plan size).Aborted answers) (failures : ∀ err, Q (.returned ⟨buffer, some err⟩)) :
    c.Downloads (.found size) answers buffer Q := by
  refine (downloads_found positive countable).mpr ((ends c.concurrent answers _).imp fun q run ended => ?_)
  obtain ⟨arrivals, gathered⟩ := (Inv.start.run run).gathered ended
  obtain ⟨err, failed⟩ := conclude_aborted gathered aborted buffer
  exact ⟨ended, failed ▸ failures err⟩

/-- Without a failure there is one outcome, whatever the schedule. -/
theorem downloads_complete_iff (positive : 0 < size) (countable : 0 ≤ c.numChunks size)
    (complete : ¬ (c.plan size).Aborted answers) :
    c.Downloads (.found size) answers buffer Q ↔ Q (.returned
      ⟨((List.range (c.numChunks size).toNat).map fun i => (c.chunkResult size i (answers i)).data).flatten, none⟩) := by
  have outcome {q} (run : Trace (c.plan size).step ((c.plan size).Admits answers)
      ((c.plan size).start (List.replicate (c.numChunks size).toNat [], [])) q) (ended : q.shared.finished = true) :=
    let ⟨_, gathered⟩ := (Inv.run run Inv.start).gathered ended
    conclude_assembled gathered complete buffer
  rw [downloads_found positive countable]
  constructor
  · intro inevitable
    obtain ⟨q, run, ended, here⟩ := inevitable.exists_run
    rwa [outcome run ended] at here
  · intro here
    refine (ends c.concurrent answers _).imp fun q run ended => ⟨ended, ?_⟩
    rwa [outcome run ended]

end

section

variable {c : S3Settings} {object : Bytes} {answers : Nat → Response}

theorem numChunks_nonneg (nonempty : object ≠ []) (fits : object.length + c.downloadChunkSize ≤ 2 ^ 63) :
    0 ≤ c.numChunks object.length := by
  rw [S3Settings.numChunks_eq (List.length_pos_of_ne_nil nonempty) fits]
  exact Int.natCast_nonneg _

/-- A range that fails fails the whole. -/
theorem aborted_of_fails (nonempty : object ≠ []) (fits : object.length + c.downloadChunkSize ≤ 2 ^ 63) {i : Nat}
    (inside : i * c.downloadChunkSize < object.length)
    (fails : (answers i).Fails (page c.downloadChunkSize i object).length) :
    (c.plan object.length).Aborted answers := by
  have within := (S3Settings.lt_numChunks_iff (List.length_pos_of_ne_nil nonempty) fits).mpr inside
  rw [← S3Settings.partSize_length inside fits] at fails
  have short : (answers i).bytes.length ≤ (c.partSize object.length i).toNat := by
    cases answered : answers i with
    | refused cause => exact Nat.zero_le _
    | body bytes ends =>
      rw [answered] at fails
      exact Nat.le_of_lt fails.1
  obtain ⟨-, err, result⟩ | ⟨complete, -⟩ := c.chunkResult_cases short
  · exact plan_aborted_iff.mpr ⟨i, within, congrArg (·.err.isSome) result⟩
  · exact absurd fails complete

/-- **The ranges tile the object.** -/
theorem ranges_tile (nonempty : object ≠ []) (fits : object.length + c.downloadChunkSize ≤ 2 ^ 63) :
    (∀ i < (c.numChunks object.length).toNat, (c.range object.length i).Nonempty) ∧
      (Set.Iio (c.numChunks object.length).toNat).PairwiseDisjoint (c.range object.length) ∧
      ⋃ i < (c.numChunks object.length).toNat, c.range object.length i = Set.Ico 0 (object.length : Int) := by
  have inside {i : Nat} := S3Settings.lt_numChunks_iff (i := i) (List.length_pos_of_ne_nil nonempty) fits
  refine ⟨fun i here => ⟨(i * c.downloadChunkSize : Nat), ?_⟩, fun i here j there different => ?_, ?_⟩
  · have begins := inside.mp here
    rw [S3Settings.mem_range_iff begins fits, Int.toNat_natCast, Nat.mul_div_cancel _ c.positive]
    exact ⟨⟨Int.natCast_nonneg _, Int.ofNat_lt.mpr begins⟩, rfl⟩
  · refine Set.disjoint_left.mpr fun x first second => different ?_
    exact ((S3Settings.mem_range_iff (inside.mp here) fits).mp first).2.symm.trans
      ((S3Settings.mem_range_iff (inside.mp there) fits).mp second).2
  · ext x
    simp only [Set.mem_iUnion, exists_prop, Set.mem_Ico]
    constructor
    · rintro ⟨i, here, within⟩
      exact ((S3Settings.mem_range_iff (inside.mp here) fits).mp within).1
    · intro within
      have begins : x.toNat / c.downloadChunkSize * c.downloadChunkSize < object.length := by
        have := Nat.div_mul_le_self x.toNat c.downloadChunkSize
        omega
      exact ⟨_, inside.mpr begins, (S3Settings.mem_range_iff begins fits).mpr ⟨within, rfl⟩⟩

/-- Without a failure the parts delivered make up the outcome. -/
theorem downloads_parts_iff (nonempty : object ≠ []) (fits : object.length + c.downloadChunkSize ≤ 2 ^ 63)
    (parts : ∀ i, i * c.downloadChunkSize < object.length → (answers i).bytes <+: page c.downloadChunkSize i object)
    (complete : ∀ i, i * c.downloadChunkSize < object.length →
      ¬ (answers i).Fails (page c.downloadChunkSize i object).length)
    {Q : Outcome Downloaded → Prop} {buffer : Bytes} :
    c.Downloads (.found object.length) answers buffer Q ↔
      Q (.returned ⟨((List.range (c.numChunks object.length).toNat).map fun i => (answers i).bytes).flatten, none⟩) := by
  have some_bytes := List.length_pos_of_ne_nil nonempty
  have result : ∀ i < (c.numChunks object.length).toNat,
      c.chunkResult object.length i (answers i) = ⟨(answers i).bytes, none⟩ := by
    intro i inside
    have begins := (S3Settings.lt_numChunks_iff some_bytes fits).mp inside
    have size := S3Settings.partSize_length begins fits
    obtain ⟨fails, -⟩ | ⟨-, result⟩ := c.chunkResult_cases (size ▸ (parts i begins).length_le)
    · exact absurd (size ▸ fails) (complete i begins)
    · exact result
  have none_fails : ¬ (c.plan object.length).Aborted answers := by
    rw [plan_aborted_iff]
    rintro ⟨i, inside, failed⟩
    rw [result i inside] at failed
    cases failed
  rw [downloads_complete_iff (Int.natCast_pos.mpr some_bytes) (numChunks_nonneg nonempty fits) none_fails,
    List.map_congr_left fun i member => congrArg ChunkResult.data (result i (List.mem_range.mp member))]

/-- The chunks reach to the end of the object. -/
theorem numChunks_enough (nonempty : object ≠ []) (fits : object.length + c.downloadChunkSize ≤ 2 ^ 63) :
    object.length ≤ (c.numChunks object.length).toNat * c.downloadChunkSize :=
  Nat.le_of_not_lt fun short =>
    Nat.lt_irrefl _ ((S3Settings.lt_numChunks_iff (List.length_pos_of_ne_nil nonempty) fits).mpr short)

/-- **A parallel download assembles the object**: its ranges are non-empty, disjoint and cover the
object; if each delivers its bytes the buffer holds the object, whatever it held before and in
whatever order the ranges finish; if one fails there is an error, and the buffer is as it was. -/
theorem download_assembles (c : S3Settings) (object : Bytes) (nonempty : object ≠ [])
    (bounded : object.length + c.downloadChunkSize < 2 ^ 63) :
    ((∀ i < (c.numChunks object.length).toNat, (c.range object.length i).Nonempty) ∧
      (Set.Iio (c.numChunks object.length).toNat).PairwiseDisjoint (c.range object.length) ∧
      ⋃ i < (c.numChunks object.length).toNat, c.range object.length i = Set.Ico 0 (object.length : Int)) ∧
    ∀ (answers : Nat → Response) (buffer : Bytes),
      ((∀ i < (c.numChunks object.length).toNat, ∃ ends, answers i = .body (c.requested object i) ends) →
        c.Downloads (.found object.length) answers buffer fun outcome => outcome = .returned ⟨object, none⟩) ∧
      ((∃ i < (c.numChunks object.length).toNat, (answers i).Fails (c.requested object i).length) →
        c.Downloads (.found object.length) answers buffer fun outcome =>
          ∃ err, outcome = .returned ⟨buffer, some err⟩) := by
  have fits := Nat.le_of_lt bounded
  have some_bytes := List.length_pos_of_ne_nil nonempty
  have inside {i : Nat} := S3Settings.lt_numChunks_iff (c := c) (i := i) some_bytes fits
  refine ⟨ranges_tile nonempty fits, fun answers buffer => ⟨fun exactly => ?_, fun ⟨i, here, fails⟩ => ?_⟩⟩
  · have delivered : ∀ i, i * c.downloadChunkSize < object.length →
        ∃ ends, answers i = .body (page c.downloadChunkSize i object) ends := by
      intro i begins
      obtain ⟨ends, answered⟩ := exactly i (inside.mpr begins)
      exact ⟨ends, by rw [answered, S3Settings.requested_eq begins fits]⟩
    have bytes_eq : ∀ i < (c.numChunks object.length).toNat,
        (answers i).bytes = page c.downloadChunkSize i object := by
      intro i here
      obtain ⟨ends, answered⟩ := delivered i (inside.mp here)
      rw [answered]
      rfl
    rw [downloads_parts_iff nonempty fits (fun i begins => by rw [bytes_eq i (inside.mpr begins)]),
      (flatten_parts_iff (numChunks_enough nonempty fits) fun i here => by rw [bytes_eq i here]).mpr bytes_eq]
    intro i begins fails
    obtain ⟨ends, answered⟩ := delivered i begins
    rw [answered] at fails
    exact Nat.lt_irrefl _ fails.1
  · have begins := inside.mp here
    rw [S3Settings.requested_eq begins fits] at fails
    exact downloads_aborted (Int.natCast_pos.mpr some_bytes) (numChunks_nonneg nonempty fits)
      (aborted_of_fails nonempty fits begins fails) fun err => ⟨err, rfl⟩

theorem two_inRange : InRange 2 := by decide

/-- Two ranges at a time, of two bytes. -/
def twoByTwo : S3Settings := newS3Settings 2 2 two_inRange

/-- The object `1 2 3 4` in two ranges, the first as given. -/
def answersFrom (first : Response) (i : Nat) : Response := if i = 0 then first else .body [3, 4] .eof

theorem download_assembles_four :
    (twoByTwo.Downloads (.found 4) (answersFrom (.body [1, 2] .eof)) [9]
      fun outcome => outcome = .returned ⟨[1, 2, 3, 4], none⟩) ∧
    twoByTwo.Downloads (.found 4) (answersFrom (.refused "no such key")) [9]
      fun outcome => ∃ err, outcome = .returned ⟨[9], some err⟩ := by
  have assembles := (download_assembles twoByTwo [1, 2, 3, 4] (by decide) (by decide)).2
  refine ⟨(assembles _ [9]).1 fun i inside => ⟨.eof, ?_⟩, (assembles _ [9]).2 ⟨0, by decide, trivial⟩⟩
  have count : (twoByTwo.numChunks ([1, 2, 3, 4] : Bytes).length).toNat = 2 := by decide
  rw [count] at inside
  have cases : i = 0 ∨ i = 1 := by omega
  rcases cases with rfl | rfl
  · decide
  · decide

/-- If the download reports no error, the buffer holds the object. -/
def S3Settings.CompleteIfReported (c : S3Settings) (object : Bytes) (answers : Nat → Response) (buffer : Bytes) : Prop :=
  c.Downloads (.found object.length) answers buffer fun outcome =>
    ∀ done, outcome = .returned done → done.err = none → done.buffer = object

/-- No range is requested when the number of chunks overflows. It is zero or negative then, and
an empty object is reported if it is zero. -/
theorem completeIfReported_overflow_iff (nonempty : object ≠ []) (inRange : object.length < 2 ^ 63)
    (overflow : 2 ^ 63 < object.length + c.downloadChunkSize) {buffer : Bytes} :
    c.CompleteIfReported object answers buffer ↔ object.length + 2 * c.downloadChunkSize ≤ 2 ^ 64 + 1 := by
  have positive : (0 : Int) < object.length := Int.natCast_pos.mpr (List.length_pos_of_ne_nil nonempty)
  have count := S3Settings.numChunks_overflow inRange overflow
  have chunk := c.positive
  rcases Nat.lt_or_ge (2 ^ 64 + 1) (object.length + 2 * c.downloadChunkSize) with zero | negative
  · rw [Nat.div_eq_of_lt (by omega), Int.natCast_zero, Int.neg_zero] at count
    have none_fails : ¬ (c.plan object.length).Aborted answers := by
      rw [plan_aborted_iff, count]
      rintro ⟨i, impossible, -⟩
      exact Nat.not_lt_zero i impossible
    rw [S3Settings.CompleteIfReported, downloads_complete_iff positive (by rw [count]) none_fails, count]
    exact iff_of_false (fun reported => nonempty (reported _ rfl rfl).symm) (Nat.not_le.mpr zero)
  · have some_chunk : c.downloadChunkSize ≤ 2 ^ 64 + 1 - object.length - c.downloadChunkSize := by omega
    have below : c.numChunks object.length < 0 := by
      have := Nat.div_pos some_chunk chunk
      omega
    refine iff_of_true ?_ negative
    simp only [S3Settings.CompleteIfReported, S3Settings.Downloads, if_neg (Int.not_le.mpr positive), if_pos below]
    exact fun done panicked => by cases panicked

theorem completeIfReported_fits_iff (nonempty : object ≠ []) (fits : object.length + c.downloadChunkSize ≤ 2 ^ 63)
    (parts : ∀ i, i * c.downloadChunkSize < object.length → (answers i).bytes <+: page c.downloadChunkSize i object)
    {buffer : Bytes} :
    c.CompleteIfReported object answers buffer ↔
      (∀ i, i * c.downloadChunkSize < object.length →
          ¬ (answers i).EndsEarly (page c.downloadChunkSize i object).length) ∨
        ∃ i, i * c.downloadChunkSize < object.length ∧
          (answers i).Fails (page c.downloadChunkSize i object).length := by
  have some_bytes := List.length_pos_of_ne_nil nonempty
  have inside {i : Nat} := S3Settings.lt_numChunks_iff (c := c) (i := i) some_bytes fits
  by_cases fails : ∃ i, i * c.downloadChunkSize < object.length ∧
      (answers i).Fails (page c.downloadChunkSize i object).length
  · obtain ⟨i, begins, failed⟩ := fails
    refine iff_of_true ?_ (.inr ⟨i, begins, failed⟩)
    refine downloads_aborted (Int.natCast_pos.mpr some_bytes) (numChunks_nonneg nonempty fits)
      (aborted_of_fails nonempty fits begins failed) fun err done returned none => ?_
    cases returned
    cases none
  · have complete : ∀ i, i * c.downloadChunkSize < object.length →
        ¬ (answers i).Fails (page c.downloadChunkSize i object).length :=
      fun i begins failed => fails ⟨i, begins, failed⟩
    have whole_iff : ∀ i, i * c.downloadChunkSize < object.length →
        ((answers i).bytes = page c.downloadChunkSize i object ↔
          ¬ (answers i).EndsEarly (page c.downloadChunkSize i object).length) := by
      intro i begins
      rw [Response.endsEarly_iff (complete i begins), Nat.not_lt]
      exact ⟨fun same => same ▸ Nat.le_refl _, (parts i begins).eq_of_length_le⟩
    have parts_iff := flatten_parts_iff (numChunks_enough nonempty fits) fun i here => parts i (inside.mp here)
    rw [S3Settings.CompleteIfReported, downloads_parts_iff nonempty fits parts complete, or_iff_left fails]
    generalize ((List.range (c.numChunks object.length).toNat).map fun i => (answers i).bytes).flatten = assembled
      at parts_iff ⊢
    constructor
    · intro reported i begins
      have whole := parts_iff.mp (reported _ rfl rfl) i (inside.mpr begins)
      exact (whole_iff i begins).mp whole
    · intro whole done returned _
      cases returned
      exact parts_iff.mpr fun i here => (whole_iff i (inside.mp here)).mpr (whole i (inside.mp here))

end

/-- **When a download reported as successful is complete**, for bodies that deliver prefixes of what is
requested: when no body ends early, unless some range fails. For huge sizes, whose number of chunks
overflows, it must have become negative: nothing is reported then. -/
theorem reported_complete_iff (c : S3Settings) (object : Bytes) (nonempty : object ≠ [])
    (inRange : object.length < 2 ^ 63) (answers : Nat → Response)
    (prefixes : ∀ i < (c.numChunks object.length).toNat, (answers i).bytes <+: c.requested object i)
    (buffer : Bytes) :
    c.CompleteIfReported object answers buffer ↔
      object.length + c.downloadChunkSize ≤ 2 ^ 63 ∧
          ((∀ i, i * c.downloadChunkSize < object.length →
              ¬ (answers i).EndsEarly (page c.downloadChunkSize i object).length) ∨
            ∃ i, i * c.downloadChunkSize < object.length ∧
              (answers i).Fails (page c.downloadChunkSize i object).length) ∨
        2 ^ 63 < object.length + c.downloadChunkSize ∧
          object.length + 2 * c.downloadChunkSize ≤ 2 ^ 64 + 1 := by
  rcases Nat.lt_or_ge (2 ^ 63) (object.length + c.downloadChunkSize) with overflow | fits
  · rw [or_iff_right fun both => Nat.not_lt.mpr both.1 overflow, and_iff_right overflow]
    exact completeIfReported_overflow_iff nonempty inRange overflow
  · rw [or_iff_left fun both => Nat.not_lt.mpr fits both.1, and_iff_right fits]
    refine completeIfReported_fits_iff nonempty fits fun i begins => ?_
    rw [← S3Settings.requested_eq begins fits]
    exact prefixes i ((S3Settings.lt_numChunks_iff (List.length_pos_of_ne_nil nonempty) fits).mpr begins)

theorem reported_complete_four :
    twoByTwo.CompleteIfReported [1, 2, 3, 4] (answersFrom (.body [1, 2] .eof)) [9] := by
  refine (reported_complete_iff twoByTwo [1, 2, 3, 4] (by decide) (by decide) _ ?_ [9]).mpr (.inl ⟨by decide, .inl ?_⟩)
  · decide
  · intro i begins early
    by_cases first : i = 0
    · subst first
      exact absurd early.1 (by decide)
    · rw [answersFrom, if_neg first] at early
      exact Nat.not_lt.mpr (page_length i _ ▸ Nat.min_le_left _ _) early.1

/-- The first of the two ranges breaks off after one byte: the download reports no error and the buffer
holds three of the four bytes, whatever the schedule. -/
theorem truncated_download :
    (∀ i < 2, (answersFrom (.body [1] .unexpectedEOF) i).bytes <+: twoByTwo.requested [1, 2, 3, 4] i) ∧
      (twoByTwo.Downloads (.found 4) (answersFrom (.body [1] .unexpectedEOF)) [9]
        fun outcome => outcome = .returned ⟨[1, 3, 4], none⟩) ∧
      ¬ twoByTwo.CompleteIfReported [1, 2, 3, 4] (answersFrom (.body [1] .unexpectedEOF)) [9] := by
  have none_fails : ¬ (twoByTwo.plan 4).Aborted (answersFrom (.body [1] .unexpectedEOF)) := by
    rw [plan_aborted_iff]
    decide
  refine ⟨by decide, (downloads_complete_iff (by decide) (by decide) none_fails).mpr (by decide), fun reported => ?_⟩
  have wrong := (downloads_complete_iff (by decide) (by decide) none_fails).mp reported _ rfl rfl
  exact absurd wrong (by decide)

end Blobcache.Server
