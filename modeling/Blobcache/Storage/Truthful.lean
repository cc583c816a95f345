import Blobcache.Storage.EndOfObject

/-!
# What `Exists` promises

`Exists` looks for the object's list of chunk keys in memory and for its directory on disk;
`Get` needs every chunk. The directory is made before the first chunk is written and stays
when a write fails, and the key list is put also when the chunks went to memory only, from
where each may be dropped by itself. So an object can exist and not be readable
(`exists_unreadable`). What a store has to meet for that not to happen is `AllOrNothing`: it
is let through until the last chunk is written, or its object is on disk already, or it is
stopped before it leaves a trace.
-/

namespace Blobcache.Storage
set_option autoImplicit false
open AdmissionCache Execution Paging

/-- Every read inside the object returns the bytes asked for. -/
def Readable (cfg : Config) (content : String → Bytes) (hash : String) (s : Cas) : Prop :=
  ∀ (sched : Nat → Around Bool) (off len : Nat) (dst : Bytes), off + len ≤ (content hash).length →
    len ≤ dst.length → ∃ s' f, s.get cfg sched hash off len dst = some (s', f, .ok len)

/-- An object that exists is readable. -/
def Truthful (cfg : Config) (content : String → Bytes) (s : Cas) : Prop :=
  ∀ hash, PlainHash hash → s.existsObject hash = true → Readable cfg content hash s

/-- There is nothing by which `Exists` could find the object. -/
structure Traceless (hash : String) (s : Cas) : Prop where
  noDir : s.dirs hash = false
  noIndex : s.cache.entries hash = none

/-- The object is whole on disk, or has left no trace. -/
def Settled (cfg : Config) (content : String → Bytes) (hash : String) (s : Cas) : Prop :=
  OnDisk cfg content hash s ∨ Traceless hash s

/-- The step of a store in which it writes the last chunk, when it finds the usage flag unset: a chunk takes three
steps, and two come before the first. -/
def lastWrite (cfg : Config) (object : Bytes) : Nat :=
  3 * ((object.length + cfg.pageSizeBytes - 1) / cfg.pageSizeBytes)

/-- What happens in the `n`th step of a store and before it does not hinder the store. -/
structure Unhampered (sched : Nat → Around StoreChoice) (n : Nat) : Prop where
  enabled : ∀ e ∈ (sched n).before, e ≠ .setUsageExceeded true
  disk : (sched n).choice.disk = .ok
  taken : (sched n).choice.setRefused = false

/-- The stores that leave their object whole on disk, or no trace of it, by the storage they start from and by what
happens during them. -/
inductive AllOrNothing (cfg : Config) (content : String → Bytes) (s : Cas) (hash : String)
    (sched : Nat → Around StoreChoice) : Prop where
  /-- The usage flag is unset, and until the last chunk is written it stays so, no disk access fails and no offer
  is refused. -/
  | through (enabled : s.diskCachedUsageExceeded = false)
      (unhampered : ∀ n, n ≤ lastWrite cfg (content hash) → Unhampered sched n)
  /-- The object is on disk already, and no disk access fails. -/
  | again (disk : OnDisk cfg content hash s) (faultless : ∀ n, (sched n).choice.disk = .ok)
  /-- The usage flag is unset and the directory cannot be made. -/
  | noDirectory (enabled : (s.envs (sched 0).before).diskCachedUsageExceeded = false) {written : Nat}
      (failed : (sched 1).choice.disk = .failed written)
  /-- The usage flag is set throughout, and the object is on disk already or every offer is refused. -/
  | off (exceeded : s.diskCachedUsageExceeded = true)
      (throughout : ∀ n, ∀ e ∈ (sched n).before, e ≠ .setUsageExceeded false)
      (either : OnDisk cfg content hash s ∨ ∀ n, (sched n).choice.setRefused = true)

/-- Stores store what their hash stands for, and are all or nothing. -/
def SettlingStores (cfg : Config) (content : String → Bytes) (s : Cas) : Op → Prop
  | .add hash bytes sched => PlainHash hash ∧ bytes = content hash ∧ AllOrNothing cfg content s hash sched
  | _ => True

/-- A file stands in a directory. -/
def Rooted (s : Cas) : Prop := ∀ hash key content, s.files hash key = some content → s.dirs hash = true

/-- What differs between two storages is of one object. -/
structure Apart (hash : String) (s t : Cas) : Prop where
  files : ∀ other, other ≠ hash → t.files other = s.files other
  dirs : ∀ other, other ≠ hash → t.dirs other = s.dirs other
  index : ∀ other, other ≠ hash → NoSeparators other → s.cache.entries other = none → t.cache.entries other = none

section

variable {cfg : Config} {content : String → Bytes} {hash : String} {s t : Cas}

theorem Traceless.not_exists (h : Traceless hash s) (plain : PlainHash hash) : s.existsObject hash = false := by
  simp [Cas.existsObject, Cache.get_vacant h.noIndex, plain.isDir, h.noDir]

theorem Traceless.env (h : Traceless hash s) (e : EnvStep) : Traceless hash (s.env e) :=
  ⟨by rw [(s.env_disk e).1]; exact h.noDir, (s.env_cache_sub e).vacant h.noIndex⟩

theorem Settled.env (h : Settled cfg content hash s) (e : EnvStep) : Settled cfg content hash (s.env e) := by
  rcases h with disk | traceless
  · exact .inl (disk.of_files (s.env_disk e).2)
  · exact .inr (traceless.env e)

theorem Settled.envs (h : Settled cfg content hash s) (steps : List EnvStep) :
    Settled cfg content hash (s.envs steps) := by
  induction steps generalizing s with
  | nil => exact h
  | cons e steps ih => exact ih (h.env e)

/-- An object that exists is on disk if all objects are settled, and can be read. -/
theorem Settled.readable (h : Settled cfg content hash s) (plain : PlainHash hash)
    (small : (content hash).length < 2 ^ 63) (clean : Clean cfg content s) (found : s.existsObject hash = true) :
    Readable cfg content hash s := by
  rcases h with disk | traceless
  · intro sched off len dst fits room
    obtain ⟨s', f, run, -⟩ := (Clean.complete clean disk).get_inside small sched fits room
    exact ⟨s', f, run⟩
  · rw [traceless.not_exists plain] at found
    cases found

/-- A settled object leaves another one settled. -/
theorem Settled.apart {other : String} (h : Settled cfg content other s) (apart : Apart hash s t)
    (different : other ≠ hash) (plain : NoSeparators other) : Settled cfg content other t := by
  rcases h with disk | traceless
  · left
    intro i start
    rw [apart.files other different]
    exact disk i start
  · exact .inr ⟨by rw [apart.dirs other different]; exact traceless.noDir,
      apart.index other different plain traceless.noIndex⟩

/-! ## Stores that may fail -/

/-- A store in progress: its chunks in memory are whole, and what it changes is its own. -/
structure Confined (cfg : Config) (content : String → Bytes) (hash : String) (s t : Cas) : Prop where
  tiers : Tiers (WholePage cfg content) (InObject cfg content) t
  rooted : Rooted t
  apart : Apart hash s t

theorem Confined.envs (h : Confined cfg content hash s t) (steps : List EnvStep) :
    Confined cfg content hash s (t.envs steps) := by
  obtain ⟨dirs, files⟩ := t.envs_disk steps
  refine ⟨h.tiers.envs steps, ?_, ?_⟩
  · intro other key bytes held
    rw [files] at held
    rw [dirs]
    exact h.rooted other key bytes held
  · exact ⟨fun other different => by rw [files]; exact h.apart.files other different,
      fun other different => by rw [dirs]; exact h.apart.dirs other different,
      fun other different plain vacant =>
        (t.envs_cache_sub steps).vacant (h.apart.index other different plain vacant)⟩

/-- Writing a chunk file of the object, whose directory is there. -/
theorem Confined.set_file (h : Confined cfg content hash s t) (plain : NoSeparators hash) (dir : t.dirs hash = true)
    {i : Nat} (inside : i * cfg.pageSizeBytes < (content hash).length) (bytes : Bytes) :
    Confined cfg content hash s (t.setFile hash (chunkKey hash i) bytes) := by
  refine ⟨h.tiers.set_file plain inside, ?_, ?_⟩
  · intro other key bytes' held
    by_cases same : other = hash
    · rw [same]; exact dir
    · rw [Cas.setFile_other _ _ fun pair => same (Prod.mk.inj pair).1] at held
      exact h.rooted other key bytes' held
  · refine ⟨fun other different => ?_, h.apart.dirs, h.apart.index⟩
    rw [← h.apart.files other different]
    funext key
    exact Cas.setFile_other _ _ fun pair => different (Prod.mk.inj pair).1

/-- Putting an entry of the object into the memory cache. -/
theorem Confined.put (h : Confined cfg content hash s t) {key : String} {v : Value}
    (own : ∀ other, other ≠ hash → NoSeparators other → other ≠ key) {refused expires : Bool}
    (good : ValueOk (WholePage cfg content) key v) :
    Confined cfg content hash s { t with cache := (t.cache.put refused expires key v).1 } :=
  ⟨⟨h.tiers.memory.put refused expires good, h.tiers.disk⟩, h.rooted, h.apart.files, h.apart.dirs,
    fun other different plain vacant => by
      rw [Cache.put_other _ _ _ _ (own other different plain)]
      exact h.apart.index other different plain vacant⟩

/-- A step of a store, whatever the disk does. -/
theorem Confined.step {c : AddChoice} {f : AddFrame} (h : Confined cfg content f.hash s t)
    (storing : Storing cfg content f) (unbroken : ∀ pos, f.pc ≠ .writing pos) :
    Confined cfg content f.hash s (addStep cfg c t f).1 := by
  have inside (more : f.offset < f.content.length) :
      f.chunkIdx cfg * cfg.pageSizeBytes < (content f.hash).length := by
    rw [← storing.aligned, ← storing.object]
    exact more
  have write {file : Bytes} {pos : Nat} (at_file : AtFile cfg t f file pos) (bytes : Bytes) :
      Confined cfg content f.hash s (t.setFile f.hash (f.chunkKey cfg) bytes) := by
    cases at_file with
    | truncated pc parent =>
      exact h.set_file storing.plain parent (inside (storing.inside (by rw [pc]; rfl))) bytes
    | resumed pc => exact absurd pc (unbroken _)
  have taken := addStep_taken cfg c t f
  generalize (addStep cfg c t f).1 = t', (addStep cfg c t f).2 = out at taken
  cases taken with
  | dir =>
    refine ⟨h.tiers.make_dir _, ?_, h.apart.files, ?_, h.apart.index⟩
    · intro other key bytes held
      have dir := h.rooted other key bytes held
      by_cases same : other = f.hash
      · simp [Cas.mkdirAll, same]
      · simp [Cas.mkdirAll, Function.update_of_ne same, dir]
    · intro other different
      rw [← h.apart.dirs other different]
      simp [Cas.mkdirAll, Function.update_of_ne different]
  | written at_file | writeFailed at_file | writePart at_file => exact write at_file _
  | offered pc =>
    apply h.put
    · rintro other - plain rfl
      exact chunkKey_not_plain f.hash (f.chunkIdx cfg) plain
    · exact ⟨storing.plain, f.chunkIdx cfg, rfl, storing.chunk, inside (storing.inside (by rw [pc]; rfl))⟩
  | indexed => exact h.put (fun other different _ => different) storing.plain
  | _ => exact h

/-- A whole store, whatever the disk does. -/
theorem add_confined (plain : NoSeparators hash) (clean : Clean cfg content s) (rooted : Rooted s)
    (sched : Nat → Around StoreChoice) :
    ∃ s' r, s.add cfg sched hash (content hash) = some (s', r) ∧ Confined cfg content hash s s' := by
  apply add_call (fun _ t f => f.hash = hash ∧ Confined cfg content hash s t)
    (fun t _ => Confined cfg content hash s t) _ plain
  · exact ⟨rfl, clean.imp (fun _ _ _ good => good) (fun _ _ _ good => good.2), rooted, fun _ _ => rfl, fun _ _ => rfl,
      fun _ _ _ h => h⟩
  · rintro n t f ⟨rfl, confined⟩ storing unbroken
    have after := (confined.envs (sched n).before).step (c := (sched n).choice.toAdd) storing unbroken
    exact ⟨fun f' next => ⟨addStep_hash next, after⟩, fun _ _ => after⟩

/-! ## Stores that are all or nothing -/

theorem le_lastWrite_iff (cfg : Config) (object : Bytes) (i : Nat) :
    3 * i + 3 ≤ lastWrite cfg object ↔ i * cfg.pageSizeBytes < object.length := by
  have positive := cfg.positive
  have counts := Nat.le_div_iff_mul_le (x := i + 1) (y := object.length + cfg.pageSizeBytes - 1) positive
  rw [Nat.add_mul, Nat.one_mul] at counts
  unfold lastWrite
  omega

/-- The number of steps behind a store that has been let through so far. -/
def AddFrame.position (cfg : Config) (f : AddFrame) : Nat :=
  3 * f.chunkIdx cfg + match f.pc with
    | .start => 0
    | .mkdir => 1
    | .loop => 2
    | .write => 3
    | .writing _ => 3
    | .set => 4

/-- A store that has been let through so far, before its `n`th step. -/
structure OnCourse (cfg : Config) (content : String → Bytes) (n : Nat) (t : Cas) (f : AddFrame) : Prop where
  position : n = f.position cfg
  enabled : n ≤ lastWrite cfg (content f.hash) + 1 → t.diskCachedUsageExceeded = false
  made : f.pc = .start ∨ f.pc = .mkdir ∨ t.dirs f.hash = true
  begun : f.pc = .start ∨ f.pc = .mkdir → f.offset < f.content.length
  written : Written cfg content t f

section

variable {n : Nat} {f f' : AddFrame} {sched : Nat → Around StoreChoice}

/-- As long as there is a chunk to write, the last one is not written. -/
theorem OnCourse.early (h : OnCourse cfg content n t f) (storing : Storing cfg content f)
    (more : f.offset < f.content.length) (unset : f.pc ≠ .set) : n ≤ lastWrite cfg (content f.hash) := by
  rw [storing.object, storing.aligned] at more
  have counts := (le_lastWrite_iff cfg (content f.hash) (f.chunkIdx cfg)).mpr more
  rw [h.position, AddFrame.position]
  cases pc : f.pc with
  | set => exact absurd pc unset
  | _ => simp only; omega

/-- Once it is behind the last write, all chunks are written. -/
theorem OnCourse.done (h : OnCourse cfg content n t f) (storing : Storing cfg content f)
    (late : lastWrite cfg (content f.hash) < n) (set : f.pc = .set) : OnDisk cfg content f.hash t := by
  intro i start
  have position := h.position
  have early := (le_lastWrite_iff cfg (content f.hash) i).mpr start
  simp only [AddFrame.position, set] at position
  have upto := Nat.mul_le_mul_right cfg.pageSizeBytes (show i ≤ f.chunkIdx cfg by omega)
  rw [← storing.aligned] at upto
  refine h.written i ?_ start
  rcases Nat.lt_or_eq_of_le upto with below | here
  · exact .inl below
  · exact .inr ⟨set, here⟩

variable (unhampered : ∀ m, m ≤ lastWrite cfg (content f.hash) → Unhampered sched m)
include unhampered

/-- A store that is let through goes on. -/
theorem OnCourse.step (h : OnCourse cfg content n t f) (storing : Storing cfg content f)
    (unbroken : ∀ pos, f.pc ≠ .writing pos)
    (next : (addStep cfg (sched n).choice.toAdd (t.envs (sched n).before) f).2 = .inl f') :
    OnCourse cfg content (n + 1) (addStep cfg (sched n).choice.toAdd (t.envs (sched n).before) f).1 f' := by
  have enabled (early : n ≤ lastWrite cfg (content f.hash)) :
      (t.envs (sched n).before).diskCachedUsageExceeded = false :=
    Cas.envs_flag (h.enabled (by omega)) (unhampered n early).enabled
  have same := addStep_hash next
  have flag := addStep_flag cfg (sched n).choice.toAdd (t.envs (sched n).before) f
  have written : Written cfg content (addStep cfg (sched n).choice.toAdd (t.envs (sched n).before) f).1 f' := by
    refine (h.written.of_files (t.envs_disk _).2).step storing unbroken ⟨_, rfl⟩ (fun pc more => ?_) next
    exact enabled (h.early storing more (by simp [pc]))
  suffices moved : n + 1 = f'.position cfg ∧ (f'.pc = .start ∨ f'.pc = .mkdir ∨
      (addStep cfg (sched n).choice.toAdd (t.envs (sched n).before) f).1.dirs f'.hash = true) ∧
      (f'.pc = .start ∨ f'.pc = .mkdir → f'.offset < f'.content.length) by
    refine ⟨moved.1, fun early => ?_, moved.2.1, moved.2.2, written⟩
    rw [same] at early
    rw [flag]
    exact enabled (by omega)
  have position := h.position
  have made : f.pc = .start ∨ f.pc = .mkdir ∨ (t.envs (sched n).before).dirs f.hash = true := by
    rw [(t.envs_disk _).1]
    exact h.made
  have taken := addStep_taken cfg (sched n).choice.toAdd (t.envs (sched n).before) f
  rw [next] at taken
  generalize (addStep cfg (sched n).choice.toAdd (t.envs (sched n).before) f).1 = t' at taken ⊢
  unfold AddFrame.position at position ⊢
  cases taken with
  | noDir pc exceeded =>
    rw [enabled (h.early storing (h.begun (.inl pc)) (by simp [pc]))] at exceeded
    cases exceeded
  | skipWrite pc more exceeded =>
    rw [enabled (h.early storing more (by simp [pc]))] at exceeded
    cases exceeded
  | toDir pc =>
    rw [pc] at position
    exact ⟨by rw [position]; rfl, .inr (.inl rfl), fun _ => h.begun (.inl pc)⟩
  | dir pc =>
    rw [pc] at position
    exact ⟨by rw [position]; rfl, .inr (.inr (by simp [Cas.mkdirAll])), by simp⟩
  | toWrite pc =>
    rw [pc] at position made
    exact ⟨by rw [position]; rfl, by simpa using made, by simp⟩
  | written at_file =>
    cases at_file with
    | resumed pc => exact absurd pc (unbroken _)
    | truncated pc parent =>
      rw [pc] at position
      exact ⟨by rw [position]; rfl, .inr (.inr parent), by simp⟩
  | writePart _ part => cases part
  | known pc | offered pc =>
    rw [pc] at position made
    have index : (f.offset + cfg.pageSizeBytes) / cfg.pageSizeBytes = f.chunkIdx cfg + 1 :=
      Nat.add_div_right _ cfg.positive
    refine ⟨?_, by simpa using made, by simp⟩
    simp only [AddFrame.chunkIdx] at position index ⊢
    rw [index, position]
    omega

/-- It returns only when all chunks are written. -/
theorem OnCourse.returned (h : OnCourse cfg content n t f) (storing : Storing cfg content f)
    {r : Except AddError Unit} (ret : (addStep cfg (sched n).choice.toAdd (t.envs (sched n).before) f).2 = .inr r) :
    OnDisk cfg content f.hash (addStep cfg (sched n).choice.toAdd (t.envs (sched n).before) f).1 := by
  have whole (early : n ≤ lastWrite cfg (content f.hash)) {written : Nat}
      (failed : (sched n).choice.toAdd.write = .finish (.failed written)) : False := by
    rw [StoreChoice.toAdd, (unhampered n early).disk] at failed
    cases failed
  have files := (t.envs_disk (sched n).before).2
  have disk (done : f.content.length ≤ f.offset) : OnDisk cfg content f.hash t := by
    intro i start
    rw [storing.object] at done
    exact h.written i (.inl (by omega)) start
  have taken := addStep_taken cfg (sched n).choice.toAdd (t.envs (sched n).before) f
  rw [ret] at taken
  generalize (addStep cfg (sched n).choice.toAdd (t.envs (sched n).before) f).1 = t' at taken ⊢
  cases taken with
  | dirFailed pc failed =>
    exact (whole (h.early storing (h.begun (.inr pc)) (by simp [pc])) failed).elim
  | noParent pc missing =>
    have made := h.made
    rw [← (t.envs_disk (sched n).before).1, missing, pc] at made
    simp at made
  | writeFailed at_file failed =>
    have more := storing.at_file at_file
    refine (whole (h.early storing more fun pc => ?_) failed).elim
    cases at_file with
    | truncated writes => rw [writes] at pc; cases pc
    | resumed writes => rw [writes] at pc; cases pc
  | refused pc answer =>
    have late : lastWrite cfg (content f.hash) < n := by
      by_contra early
      rw [StoreChoice.toAdd, (unhampered n (by omega)).taken] at answer
      cases answer
    exact (h.done storing late pc).of_files files
  | indexed _ done => exact (disk done).of_files files
  | indexRefused _ done => exact (disk done).of_files files

end

/-- A store that is let through until its last chunk is written leaves its object on disk, whatever it returns. -/
theorem add_through (plain : NoSeparators hash) (enabled : s.diskCachedUsageExceeded = false)
    {sched : Nat → Around StoreChoice}
    (unhampered : ∀ n, n ≤ lastWrite cfg (content hash) → Unhampered sched n) :
    ∃ s' r, s.add cfg sched hash (content hash) = some (s', r) ∧ OnDisk cfg content hash s' := by
  rcases Nat.eq_zero_or_pos (content hash).length with empty | object
  · obtain ⟨s', r, run⟩ := add_returns plain cfg sched s (content hash)
    exact ⟨s', r, run, fun i start => absurd start (by omega)⟩
  apply add_call (fun n t f => f.hash = hash ∧ OnCourse cfg content n t f) (fun t _ => OnDisk cfg content hash t) _ plain
  · refine ⟨rfl, by simp [AddFrame.position, AddFrame.chunkIdx, AddFrame.start], fun _ => enabled, .inl rfl,
      fun _ => object, fun i before => ?_⟩
    rcases before with below | ⟨set, -⟩
    · exact absurd below (by simp [AddFrame.start])
    · cases set
  · rintro n t f ⟨rfl, course⟩ storing unbroken
    exact ⟨fun f' next => ⟨addStep_hash next, course.step unhampered storing unbroken next⟩,
      fun r ret => course.returned unhampered storing ret⟩

/-- A store whose directory cannot be made changes nothing. -/
theorem add_noDirectory {sched : Nat → Around StoreChoice} {written : Nat} (bytes : Bytes)
    (enabled : (s.envs (sched 0).before).diskCachedUsageExceeded = false)
    (failed : (sched 1).choice.disk = .failed written) :
    s.add cfg sched hash bytes = some ((s.envs (sched 0).before).envs (sched 1).before,
      .error (.createDirectory (sched 1).choice.cause)) := by
  simp [Cas.add, drive, addStep, AddFrame.start, StoreChoice.toAdd, enabled, failed]

/-- With the usage flag set, a store does not touch the disk, and it puts no list of keys if every offer is refused. -/
theorem add_off (content : String → Bytes) (plain : NoSeparators hash) (exceeded : s.diskCachedUsageExceeded = true)
    {sched : Nat → Around StoreChoice} (throughout : ∀ n, ∀ e ∈ (sched n).before, e ≠ .setUsageExceeded false) :
    ∃ s' r, s.add cfg sched hash (content hash) = some (s', r) ∧ s'.dirs = s.dirs ∧ s'.files = s.files ∧
      ((∀ n, (sched n).choice.setRefused = true) → s.cache.entries hash = none → s'.cache.entries hash = none) := by
  let Same (t : Cas) : Prop := t.dirs = s.dirs ∧ t.files = s.files ∧
    ((∀ n, (sched n).choice.setRefused = true) → s.cache.entries hash = none → t.cache.entries hash = none)
  apply add_call (fun _ t f => f.hash = hash ∧ t.diskCachedUsageExceeded = true ∧
    (f.pc = .start ∨ f.pc = .loop ∨ f.pc = .set) ∧ Same t) (fun t _ => Same t) _ plain
  · exact ⟨rfl, exceeded, .inl rfl, rfl, rfl, fun _ vacant => vacant⟩
  rintro n t f ⟨rfl, flag, pcs, dirs, files, index⟩ storing unbroken
  obtain ⟨dirs', files'⟩ := t.envs_disk (sched n).before
  have flag' := Cas.envs_flag flag (throughout n)
  have same : Same (t.envs (sched n).before) :=
    ⟨dirs'.trans dirs, files'.trans files, fun refused vacant => (t.envs_cache_sub _).vacant (index refused vacant)⟩
  have taken := addStep_taken cfg (sched n).choice.toAdd (t.envs (sched n).before) f
  have kept : Same (addStep cfg (sched n).choice.toAdd (t.envs (sched n).before) f).1 := by
    generalize (addStep cfg (sched n).choice.toAdd (t.envs (sched n).before) f).1 = t',
      (addStep cfg (sched n).choice.toAdd (t.envs (sched n).before) f).2 = out at taken
    cases taken with
    | dir pc => simp [pc] at pcs
    | written at_file | writeFailed at_file | writePart at_file =>
      cases at_file with
      | truncated pc => simp [pc] at pcs
      | resumed pc => exact absurd pc (unbroken _)
    | offered =>
      refine ⟨same.1, same.2.1, fun refused vacant => ?_⟩
      refine (Cache.put_other _ _ _ _ fun key => ?_).trans (same.2.2 refused vacant)
      exact chunkKey_not_plain f.hash (f.chunkIdx cfg) (by rw [← AddFrame.chunkKey, ← key]; exact storing.plain)
    | indexed _ _ accepted =>
      refine ⟨same.1, same.2.1, fun refused vacant => ?_⟩
      have none := same.2.2 refused vacant
      rw [StoreChoice.toAdd, refused n, Cache.put_refused none] at accepted
      cases accepted
    | _ => exact same
  refine ⟨fun f' next => ⟨addStep_hash next, (addStep_flag ..).trans flag', ?_, kept⟩, fun _ _ => kept⟩
  rw [next] at taken
  generalize (addStep cfg (sched n).choice.toAdd (t.envs (sched n).before) f).1 = t' at taken
  cases taken with
  | toDir _ enabled | toWrite _ _ enabled => rw [flag'] at enabled; cases enabled
  | writePart _ part => cases part
  | written => exact .inr (.inr rfl)
  | skipWrite => exact .inr (.inr rfl)
  | noDir | dir | known | offered => exact .inr (.inl rfl)

/-- A store that is all or nothing leaves its object settled. -/
theorem AllOrNothing.settles {sched : Nat → Around StoreChoice} (h : AllOrNothing cfg content s hash sched)
    (plain : NoSeparators hash) (clean : Clean cfg content s) (before : Settled cfg content hash s) :
    ∃ t r, s.add cfg sched hash (content hash) = some (t, r) ∧ Settled cfg content hash t := by
  cases h with
  | through enabled unhampered =>
    obtain ⟨t, r, run, disk⟩ := add_through plain enabled unhampered
    exact ⟨t, r, run, .inl disk⟩
  | again disk faultless =>
    obtain ⟨t, r, run, -, keeps⟩ := add_keeps plain clean faultless
    exact ⟨t, r, run, .inl (keeps hash disk)⟩
  | noDirectory enabled failed =>
    exact ⟨_, _, add_noDirectory (content hash) enabled failed, (before.envs _).envs _⟩
  | off exceeded throughout either =>
    obtain ⟨t, r, run, dirs, files, index⟩ := add_off content plain exceeded throughout
    refine ⟨t, r, run, ?_⟩
    rcases before with disk | traceless
    · exact .inl (disk.of_files files)
    · rcases either with disk | refused
      · exact .inl (disk.of_files files)
      · exact .inr ⟨by rw [dirs]; exact traceless.noDir, index refused traceless.noIndex⟩

/-! ## Runs -/

/-- No damaged chunk, and every object settled. -/
structure AllSettled (cfg : Config) (content : String → Bytes) (s : Cas) : Prop where
  clean : Clean cfg content s
  rooted : Rooted s
  settled : ∀ hash, NoSeparators hash → Settled cfg content hash s

theorem AllSettled.fresh : AllSettled cfg content Cas.fresh :=
  ⟨Tiers.fresh, fun _ _ _ held => (by cases held), fun _ _ => .inr ⟨rfl, rfl⟩⟩

/-- A store that leaves its object settled leaves its chunk files whole. -/
theorem Confined.clean (h : Confined cfg content hash s t) (clean : Clean cfg content s)
    (settled : Settled cfg content hash t) : Clean cfg content t := by
  refine ⟨h.tiers.memory, fun other key bytes held => ?_⟩
  by_cases same : other = hash
  · subst same
    obtain ⟨plain, i, rfl, inside⟩ := h.tiers.disk other key bytes held
    rcases settled with disk | traceless
    · exact ⟨plain, i, rfl, Option.some.inj (held.symm.trans (disk i inside)), inside⟩
    · have dir := h.rooted other _ bytes held
      rw [traceless.noDir] at dir
      cases dir
  · rw [h.apart.files other same] at held
    exact clean.disk other key bytes held

/-- A read shows nothing of an object that has left no trace. -/
theorem AllSettled.read (h : AllSettled cfg content s) (call : GetCall) (sched : Nat → Around Bool) :
    AllSettled cfg content ((Op.get call sched).step cfg s) := by
  let Keeps (t : Cas) : Prop := Clean cfg content t ∧ t.files = s.files ∧ t.dirs = s.dirs ∧
    ∀ other, NoSeparators other → s.cache.entries other = none → t.cache.entries other = none
  have step : ∀ n t f, Keeps t → Keeps (getStep cfg (sched n).choice (t.envs (sched n).before) f).1 := by
    rintro n t f ⟨clean, files, dirs, index⟩
    obtain ⟨dirs', files'⟩ := t.envs_disk (sched n).before
    refine ⟨getStep_tiers (clean.envs _) (Loadable.same cfg _ _ _) _, ?_, ?_, fun other plain start => ?_⟩
    · rw [(getStep_disk cfg _ _ f).2, files', files]
    · rw [(getStep_disk cfg _ _ f).1, dirs', dirs]
    · have before := (t.envs_cache_sub (sched n).before).vacant (index other plain start)
      have taken := getStep_taken cfg (sched n).choice (t.envs (sched n).before) f
      generalize (getStep cfg (sched n).choice (t.envs (sched n).before) f).1 = t',
        (getStep cfg (sched n).choice (t.envs (sched n).before) f).2 = out at taken
      cases taken with
      | loaded =>
        refine (Cache.put_other _ _ _ _ ?_).trans before
        rintro rfl
        exact chunkKey_not_plain _ _ plain
      | _ => exact before
  obtain ⟨t, out, run, clean, files, dirs, index⟩ := get_keeps (K := Keeps) step
    ⟨h.clean, rfl, rfl, fun _ _ start => start⟩ call.hash call.offset call.length_inRange.2 call.dst
  simp only [Op.step, run]
  refine ⟨clean, fun other key bytes held => ?_, fun other plain => ?_⟩
  · rw [Option.map_some, Option.getD_some, files] at held
    rw [Option.map_some, Option.getD_some, dirs]
    exact h.rooted other key bytes held
  · rcases h.settled other plain with disk | traceless
    · exact .inl (disk.of_files files)
    · exact .inr ⟨by rw [Option.map_some, Option.getD_some, dirs]; exact traceless.noDir,
        index other plain traceless.noIndex⟩

/-- No operation unsettles an object. -/
theorem AllSettled.step {op : Op} (h : AllSettled cfg content s) (ok : SettlingStores cfg content s op) :
    AllSettled cfg content (op.step cfg s) := by
  cases op with
  | env e =>
    refine ⟨h.clean.env e, fun other key bytes held => ?_, fun other plain => (h.settled other plain).env e⟩
    obtain ⟨dirs, files⟩ := s.env_disk e
    simp only [Op.step] at held ⊢
    rw [files] at held
    rw [dirs]
    exact h.rooted other key bytes held
  | get call sched => exact h.read call sched
  | add hash bytes sched =>
    obtain ⟨⟨plain, -⟩, rfl, allOrNothing⟩ := ok
    obtain ⟨t, r, run, settled⟩ := allOrNothing.settles plain h.clean (h.settled hash plain)
    obtain ⟨t', r', again, confined⟩ := add_confined plain h.clean h.rooted sched
    cases run.symm.trans again
    simp only [Op.step, run, Option.map_some, Option.getD_some]
    refine ⟨confined.clean h.clean settled, confined.rooted, fun other plain' => ?_⟩
    by_cases same : other = hash
    · rw [same]; exact settled
    · exact (h.settled other plain').apart confined.apart same plain'

/-- **`Exists` is truthful** in every run in which each store is let through until its last
chunk is written, or finds its object on disk already, or is stopped before it leaves a trace. -/
theorem exists_truthful (small : ∀ hash, (content hash).length < 2 ^ 63)
    (run : Trace (Op.step cfg) (SettlingStores cfg content) Cas.fresh s) : Truthful cfg content s := by
  have all : AllSettled cfg content s :=
    run.invariant (I := AllSettled cfg content) (fun _ _ h ok => h.step ok) AllSettled.fresh
  intro hash plain found
  exact (all.settled hash plain.separators).readable plain (small hash) all.clean found

end

/-- A store of one byte, one byte a page, on a server with room on its disk. -/
theorem exists_truthful_stored :
    let s := (Op.add "a" [7] quietStore).step oneBytePages Cas.fresh
    s.existsObject "a" = true ∧ Truthful oneBytePages (fun _ => [7]) s := by
  refine ⟨by decide, exists_truthful (fun _ => by decide) (.tail _ (.refl _) ⟨by decide, rfl, .through rfl ?_⟩)⟩
  exact fun n _ => ⟨fun e member => absurd member List.not_mem_nil, rfl, rfl⟩

/-- Stores store what their hash stands for. -/
def Stores (content : String → Bytes) (_ : Cas) : Op → Prop
  | .add hash bytes _ => PlainHash hash ∧ bytes = content hash
  | _ => True

/-- The directory is made and the write of the first chunk fails. -/
def failsToWrite : Nat → Around StoreChoice
  | 3 => ⟨[], ⟨.failed 0, false, "no space left on device"⟩⟩
  | _ => ⟨[], ⟨.ok, false, ""⟩⟩

/-- The disk is full, so the object is stored in memory only, and its chunk is dropped. -/
def dropsChunk : List Op :=
  [.env (.setUsageExceeded true), .add "a" [7] quietStore, .env (.accept "a"), .env (.reject "a-0")]

/-- Two ways in which an object exists and its byte cannot be read: a store that failed, and
one that succeeded. -/
theorem exists_unreadable :
    (∃ s, Trace (Op.step oneBytePages) (Stores fun _ => [7]) Cas.fresh s ∧
      (Cas.fresh.add oneBytePages failsToWrite "a" [7]).map Prod.snd =
        some (.error (.writeDiskCache "no space left on device")) ∧
      s = (Op.add "a" [7] failsToWrite).step oneBytePages Cas.fresh ∧
      ¬ Truthful oneBytePages (fun _ => [7]) s) ∧
    ∃ s, Trace (Op.step oneBytePages) (Stores fun _ => [7]) Cas.fresh s ∧
      s = after (Op.step oneBytePages) dropsChunk Cas.fresh ∧
      ¬ Truthful oneBytePages (fun _ => [7]) s := by
  constructor
  · have stores : Stores (fun _ => [7]) Cas.fresh (.add "a" [7] failsToWrite) := ⟨by decide, rfl⟩
    refine ⟨_, .tail _ (.refl _) stores, by decide, rfl, fun truthful => ?_⟩
    obtain ⟨s', f, run⟩ := truthful "a" (by decide) (by decide) quietRead 0 1 [0] (by decide) (by decide)
    have result : (Cas.get _ _ _ _ _ _ _).map (fun out => out.2.2) = some (.ok 1) :=
      congrArg (Option.map fun out => out.2.2) run
    exact absurd result (by decide)
  · refine ⟨_, Trace.of_list dropsChunk Cas.fresh fun k => ?_, rfl, fun truthful => ?_⟩
    · have member := List.get_mem dropsChunk k
      generalize dropsChunk.get k = op at member ⊢
      simp only [dropsChunk, List.mem_cons, List.not_mem_nil, or_false] at member
      rcases member with rfl | rfl | rfl | rfl
      all_goals first
        | exact trivial
        | exact ⟨by decide, rfl⟩
    · obtain ⟨s', f, run⟩ := truthful "a" (by decide) (by decide) quietRead 0 1 [0] (by decide) (by decide)
      have result : (Cas.get _ _ _ _ _ _ _).map (fun out => out.2.2) = some (.ok 1) :=
        congrArg (Option.map fun out => out.2.2) run
      exact absurd result (by decide)

end Blobcache.Storage
