import Blobcache.Storage.Read
import Blobcache.Storage.Store

/-!
# Whole objects

An object whose chunk files are all on disk, over a memory cache that holds only whole
chunks of it, is read back as a paged sequence: `Get` is `Paging.read` of its pages. Nothing
the memory cache does takes that away. An operation is a whole call with whatever happens
during it; as long as no disk access fails, every operation keeps every chunk whole and
every object that is on disk there (`Op.keeps`), and a store during which the disk is not
switched off puts its object there (`add_on_disk`).
-/

namespace Blobcache.Storage
set_option autoImplicit false
open AdmissionCache Execution Int64Arith Paging

/-- A chunk is one of the pages of its object. -/
def WholePage (cfg : Config) (content : String → Bytes) : ChunkPred := fun hash i bytes =>
  bytes = page cfg.pageSizeBytes i (content hash) ∧ i * cfg.pageSizeBytes < (content hash).length

/-- The object has a chunk of this index. -/
def InObject (cfg : Config) (content : String → Bytes) : ChunkPred := fun hash i _ =>
  i * cfg.pageSizeBytes < (content hash).length

/-- Every chunk of the object is on disk, whole. -/
def OnDisk (cfg : Config) (content : String → Bytes) (hash : String) (s : Cas) : Prop :=
  ∀ i, i * cfg.pageSizeBytes < (content hash).length →
    s.files hash (chunkKey hash i) = some (page cfg.pageSizeBytes i (content hash))

/-- Every chunk of the object that is in memory, visible or not, is whole. -/
def WholeInMemory (cfg : Config) (content : String → Bytes) (hash : String) (s : Cas) : Prop :=
  s.cache.All fun key value =>
    ∀ i : Nat, key = chunkKey hash i → value = .chunk hash (page cfg.pageSizeBytes i (content hash))

/-- The object is on disk and the memory cache holds no damaged chunk of it. -/
structure Complete (cfg : Config) (content : String → Bytes) (hash : String) (s : Cas) : Prop where
  tiers : Tiers (InObject cfg content) (InObject cfg content) s
  memory : WholeInMemory cfg content hash s
  disk : OnDisk cfg content hash s

/-- No chunk in either tier is damaged. -/
abbrev Clean (cfg : Config) (content : String → Bytes) : Cas → Prop :=
  Tiers (WholePage cfg content) (WholePage cfg content)

section

variable {cfg : Config} {content : String → Bytes} {hash : String} {s : Cas}

theorem OnDisk.of_files {s' : Cas} (h : OnDisk cfg content hash s) (same : s'.files = s.files) :
    OnDisk cfg content hash s' := by
  intro i start
  rw [same]
  exact h i start

theorem Clean.whole_in_memory (h : Clean cfg content s) : WholeInMemory cfg content hash s := by
  rintro key e held i rfl
  have ok := h.memory _ e held
  cases value : e.value with
  | index keys =>
    rw [value] at ok
    exact absurd ok (chunkKey_not_plain hash i)
  | chunk hash' bytes =>
    rw [value] at ok
    obtain ⟨plain, j, same, whole, -⟩ := ok
    obtain ⟨rfl, index⟩ := chunkKey_inj plain same.symm
    cases index
    rw [whole]

theorem Clean.complete (h : Clean cfg content s) (disk : OnDisk cfg content hash s) :
    Complete cfg content hash s :=
  ⟨h.imp (fun _ _ _ good => good.2) (fun _ _ _ good => good.2), h.whole_in_memory, disk⟩

/-! ## Reading a whole object -/

theorem Complete.shows (h : Complete cfg content hash s) (i : Nat) :
    s.lookup hash i = pages cfg.pageSizeBytes (content hash) i := by
  unfold Cas.lookup pages
  cases found : s.cache.get (chunkKey hash i) with
  | some v =>
    obtain ⟨bytes, j, rfl, index, start⟩ := h.tiers.seen found
    cases index
    have whole := h.memory.get found i rfl
    cases whole
    exact (if_pos start).symm
  | none =>
    by_cases start : i * cfg.pageSizeBytes < (content hash).length
    · rw [if_pos start]
      exact h.disk i start
    · rw [if_neg start]
      cases file : s.files hash (chunkKey hash i) with
      | none => rfl
      | some bytes =>
        obtain ⟨-, j, index, inside⟩ := h.tiers.file file
        cases index
        exact absurd inside start

theorem Complete.envs (h : Complete cfg content hash s) (steps : List EnvStep) :
    Complete cfg content hash (s.envs steps) :=
  ⟨h.tiers.envs steps, h.memory.sub (s.envs_cache_sub steps), h.disk.of_files (s.envs_disk steps).2⟩

/-- A whole object stays one around and during a read of it. -/
theorem Complete.steady (cfg : Config) (content : String → Bytes) (hash : String) (sched : Nat → Around Bool) :
    Steady sched hash (pages cfg.pageSizeBytes (content hash)) (Complete cfg content hash) where
  shows h := h.shows
  envs n h := h.envs _
  lists := by
    intro s n i keys h listed
    obtain ⟨_, _, chunk, _⟩ := (h.envs _).tiers.seen listed
    cases chunk
  load := by
    intro s i bytes refused h _ file
    obtain ⟨plain, j, index, inside⟩ := h.tiers.file file
    cases index
    have whole := Option.some.inj (file.symm.trans (h.disk i inside))
    refine ⟨h.tiers.put_chunk plain inside refused, h.memory.put refused false fun j same => ?_, h.disk⟩
    cases chunkKey_injective hash same
    rw [whole]

/-- A read of a whole object is the abstract read of its pages. -/
theorem Complete.get (h : Complete cfg content hash s) (small : (content hash).length < 2 ^ 63)
    (sched : Nat → Around Bool) (off : Nat) {len : Nat} (inRange : len < 2 ^ 63) {dst : Bytes}
    (room : len ≤ dst.length) :
    ∃ s' f r, s.get cfg sched hash off len dst = some (s', f, r) ∧ Complete cfg content hash s' ∧
      f.dst.length = dst.length ∧
      Yields (read cfg.pageSizeBytes (pages cfg.pageSizeBytes (content hash)) off len) f r := by
  have page_of {i : Nat} {chunk : Bytes} (present : pages cfg.pageSizeBytes (content hash) i = some chunk) :
      i * cfg.pageSizeBytes < (content hash).length ∧ chunk = page cfg.pageSizeBytes i (content hash) := by
    unfold pages at present
    split at present
    · exact ⟨‹_›, (Option.some.inj present).symm⟩
    · cases present
  apply get_reads (Complete.steady cfg content hash sched) ?_ ?_ inRange h room
  · intro i chunk present
    rw [(page_of present).2, page_length]
    exact min_le_left _ _
  · intro i chunk present
    have start := (page_of present).1
    rw [(page_of present).2, page_length]
    omega

/-- Inside the object, a read returns its bytes. -/
theorem Complete.get_inside (h : Complete cfg content hash s) (small : (content hash).length < 2 ^ 63)
    (sched : Nat → Around Bool) {off len : Nat} (fits : off + len ≤ (content hash).length) {dst : Bytes}
    (room : len ≤ dst.length) :
    ∃ s' f, s.get cfg sched hash off len dst = some (s', f, .ok len) ∧ Complete cfg content hash s' ∧
      f.dst.length = dst.length ∧ f.dst.take len = ((content hash).drop off).take len := by
  obtain ⟨s', f, r, run, complete, space, yields⟩ := h.get small sched off (by omega) room
  rw [read_whole cfg.positive (pages_holds _ _).inside fits] at yields
  obtain ⟨rfl, bytes⟩ := yields
  have count : (((content hash).drop off).take len).length = len := by
    rw [List.length_take, List.length_drop]
    omega
  rw [count] at run bytes
  exact ⟨s', f, run, complete, space, bytes⟩

/-! ## Storing a whole object -/

variable {c : AddChoice} {f : AddFrame}

/-- A page written over its chunk file takes no object from the disk. -/
theorem OnDisk.set_page (h : OnDisk cfg content hash s) (other : String) (j : Nat) :
    OnDisk cfg content hash (s.setFile other (chunkKey other j) (page cfg.pageSizeBytes j (content other))) := by
  intro i start
  by_cases same : (hash, chunkKey hash i) = (other, chunkKey other j)
  · cases (Prod.mk.inj same).1
    cases chunkKey_injective hash (Prod.mk.inj same).2
    exact Cas.setFile_self _ _ _ _
  · rw [Cas.setFile_other _ _ same]
    exact h i start

/-- A step of a store whose disk accesses succeed damages no chunk. -/
theorem Storing.clean (h : Storing cfg content f) (unbroken : ∀ pos, f.pc ≠ .writing pos)
    (clean : Clean cfg content s) (whole : c.write = .finish .ok) : Clean cfg content (addStep cfg c s f).1 := by
  have inside (more : f.offset < f.content.length) :
      f.chunkIdx cfg * cfg.pageSizeBytes < (content f.hash).length := by
    rw [← h.aligned, ← h.object]
    exact more
  apply addStep_tiers clean h.plain
  · intro pc
    exact ⟨h.chunk, inside (h.inside (by rw [pc]; rfl))⟩
  · intro file pos at_file
    exact ⟨h.written unbroken whole at_file, inside (h.at_file at_file)⟩

/-- Nor does it take an object from the disk. -/
theorem Storing.on_disk (h : Storing cfg content f) (unbroken : ∀ pos, f.pc ≠ .writing pos)
    (disk : OnDisk cfg content hash s) (whole : c.write = .finish .ok) :
    OnDisk cfg content hash (addStep cfg c s f).1 := by
  have taken := addStep_taken cfg c s f
  generalize (addStep cfg c s f).1 = s', (addStep cfg c s f).2 = out at taken
  cases taken with
  | written at_file =>
    rw [h.written unbroken whole at_file]
    exact disk.set_page _ _
  | writeFailed _ failed => rw [failed] at whole; cases whole
  | writePart _ part => rw [part] at whole; cases whole
  | _ => exact disk

/-- A whole store whose disk accesses succeed, whether or not it returns an error. -/
theorem add_keeps (plain : NoSeparators hash) (clean : Clean cfg content s) {sched : Nat → Around StoreChoice}
    (faultless : ∀ n, (sched n).choice.disk = .ok) :
    ∃ s' r, s.add cfg sched hash (content hash) = some (s', r) ∧ Clean cfg content s' ∧
      ∀ other, OnDisk cfg content other s → OnDisk cfg content other s' := by
  let Keeps (t : Cas) : Prop := Clean cfg content t ∧ ∀ other, OnDisk cfg content other s → OnDisk cfg content other t
  apply add_call (fun _ t _ => Keeps t) (fun t _ => Keeps t) _ plain ⟨clean, fun _ disk => disk⟩
  intro n t f ⟨clean, disk⟩ storing unbroken
  have whole : (sched n).choice.toAdd.write = .finish .ok := by rw [StoreChoice.toAdd, faultless n]
  have after : Keeps (addStep cfg (sched n).choice.toAdd (t.envs (sched n).before) f).1 :=
    ⟨storing.clean unbroken (clean.envs _) whole, fun other start =>
      storing.on_disk unbroken ((disk other start).of_files (t.envs_disk _).2) whole⟩
  exact ⟨fun _ _ => after, fun _ _ => after⟩

/-- The chunks a store has written so far. -/
def Written (cfg : Config) (content : String → Bytes) (t : Cas) (f : AddFrame) : Prop :=
  ∀ i, i * cfg.pageSizeBytes < f.offset ∨ f.pc = .set ∧ i * cfg.pageSizeBytes = f.offset →
    i * cfg.pageSizeBytes < (content f.hash).length →
    t.files f.hash (chunkKey f.hash i) = some (page cfg.pageSizeBytes i (content f.hash))

/-- A store during which the disk is not switched off. -/
def Enabled {χ : Type} (sched : Nat → Around χ) : Prop :=
  ∀ n, ∀ e ∈ (sched n).before, e ≠ .setUsageExceeded true

theorem Written.of_files {t t' : Cas} (h : Written cfg content t f) (same : t'.files = t.files) :
    Written cfg content t' f := by
  intro i before start
  rw [same]
  exact h i before start

/-- While the disk is not switched off, no chunk is passed over. -/
theorem Written.step {t : Cas} {f' : AddFrame} (h : Written cfg content t f) (storing : Storing cfg content f)
    (unbroken : ∀ pos, f.pc ≠ .writing pos) (finishes : ∃ result, c.write = .finish result)
    (enabled : f.pc = .loop → f.offset < f.content.length → t.diskCachedUsageExceeded = false)
    (next : (addStep cfg c t f).2 = .inl f') : Written cfg content (addStep cfg c t f).1 f' := by
  have aligned := storing.aligned
  have taken := addStep_taken cfg c t f
  rw [next] at taken
  generalize (addStep cfg c t f).1 = t' at taken
  have passed {i : Nat} (below : i * cfg.pageSizeBytes < f.offset + cfg.pageSizeBytes) :
      i * cfg.pageSizeBytes < f.offset ∨ i * cfg.pageSizeBytes = f.offset := by
    have : i < f.chunkIdx cfg + 1 := by
      apply Nat.lt_of_mul_lt_mul_right (a := cfg.pageSizeBytes)
      rw [Nat.add_mul, Nat.one_mul, ← aligned]
      exact below
    have := Nat.mul_le_mul_right cfg.pageSizeBytes (Nat.le_of_lt_succ this)
    omega
  cases taken with
  | skipWrite pc more exceeded => rw [enabled pc more] at exceeded; cases exceeded
  | noDir | toDir | dir | toWrite =>
    refine fun i before => h i (.inl ?_)
    rcases before with below | ⟨set, -⟩
    · exact below
    · cases set
  | writePart _ part =>
    obtain ⟨result, finish⟩ := finishes
    rw [part] at finish
    cases finish
  | written at_file whole =>
    intro i before start
    rw [storing.written unbroken whole at_file]
    by_cases same : i = f.chunkIdx cfg
    · subst same
      exact Cas.setFile_self _ _ _ _
    · have below : i * cfg.pageSizeBytes < f.offset := by
        rcases before with below | ⟨-, here⟩
        · exact below
        · exact absurd (Nat.eq_of_mul_eq_mul_right cfg.positive (here.trans aligned)) same
      refine (Cas.setFile_other _ _ fun key => same ?_).trans (h i (.inl below) start)
      exact Int.ofNat.inj (chunkKey_injective f.hash (Prod.mk.inj key).2)
  | known pc | offered pc =>
    refine fun i before start => h i ?_ start
    rcases before with below | ⟨set, -⟩
    · rcases passed below with earlier | here
      · exact .inl earlier
      · exact .inr ⟨pc, here⟩
    · cases set

/-- **A store puts its object on disk**, if the disk is not switched off during it and it
returns no error. -/
theorem add_on_disk (plain : NoSeparators hash) (enabled : s.diskCachedUsageExceeded = false)
    {sched : Nat → Around StoreChoice} (throughout : Enabled sched) {s' : Cas}
    (stored : s.add cfg sched hash (content hash) = some (s', .ok ())) : OnDisk cfg content hash s' := by
  have call : ∃ s' r, s.add cfg sched hash (content hash) = some (s', r) ∧
      (r = .ok () → OnDisk cfg content hash s') := by
    apply add_call (fun _ t f => f.hash = hash ∧ Written cfg content t f ∧ t.diskCachedUsageExceeded = false)
      (fun t r => r = .ok () → OnDisk cfg content hash t) _ plain
    · refine ⟨rfl, fun i before => ?_, enabled⟩
      rcases before with below | ⟨set, -⟩
      · exact absurd below (by simp [AddFrame.start])
      · cases set
    · rintro n t f ⟨rfl, written, enabled⟩ storing unbroken
      have written' := written.of_files (t.envs_disk (sched n).before).2
      have enabled' := Cas.envs_flag enabled (throughout n)
      refine ⟨fun f' next => ?_, fun r returned ok => ?_⟩
      · exact ⟨addStep_hash next, written'.step storing unbroken ⟨_, rfl⟩ (fun _ _ => enabled') next,
          (addStep_flag ..).trans enabled'⟩
      · have taken := addStep_taken cfg (sched n).choice.toAdd (t.envs (sched n).before) f
        rw [returned, ok] at taken
        generalize (addStep cfg (sched n).choice.toAdd (t.envs (sched n).before) f).1 = t' at taken
        cases taken with
        | indexed pc done =>
          intro i start
          rw [storing.object] at done
          exact written' i (.inl (by omega)) start
  obtain ⟨s'', r, again, disk⟩ := call
  rw [stored] at again
  cases again
  exact disk rfl

end

/-! ## Operations -/

/-- A whole call with what happens during it, or a step around the calls. -/
inductive Op where
  | env (e : EnvStep)
  | add (hash : String) (content : Bytes) (sched : Nat → Around StoreChoice)
  | get (call : GetCall) (sched : Nat → Around Bool)

/-- The storage after an operation. Every call returns (`add_call`, `get_keeps`). -/
def Op.step (cfg : Config) (op : Op) (s : Cas) : Cas :=
  match op with
  | .env e => s.env e
  | .add hash content sched => ((s.add cfg sched hash content).map Prod.fst).getD s
  | .get call sched => ((s.get cfg sched call.hash call.offset call.length call.dst).map Prod.fst).getD s

theorem Op.add_returned {cfg : Config} {s : Cas} {hash : String} {bytes : Bytes} {sched : Nat → Around StoreChoice}
    {r : Except AddError Unit} (returned : (s.add cfg sched hash bytes).map Prod.snd = some r) :
    s.add cfg sched hash bytes = some ((Op.add hash bytes sched).step cfg s, r) := by
  obtain ⟨⟨t, _⟩, run, rfl⟩ := Option.map_eq_some_iff.mp returned
  simp only [Op.step, run, Option.map_some, Option.getD_some]

/-- An operation during which no disk access fails; stores store what their hash stands for. -/
def FaultFree (content : String → Bytes) (_ : Cas) : Op → Prop
  | .add hash bytes sched => PlainHash hash ∧ bytes = content hash ∧ ∀ n, (sched n).choice.disk = .ok
  | _ => True

/-- **No operation without disk faults damages a chunk or takes an object from the disk.** -/
theorem Op.keeps {cfg : Config} {content : String → Bytes} {s : Cas} {op : Op} (clean : Clean cfg content s)
    (faultFree : FaultFree content s op) :
    Clean cfg content (op.step cfg s) ∧
      ∀ hash, OnDisk cfg content hash s → OnDisk cfg content hash (op.step cfg s) := by
  cases op with
  | env e => exact ⟨clean.env e, fun _ disk => disk.of_files (s.env_disk e).2⟩
  | add hash bytes sched =>
    obtain ⟨plain, rfl, faultless⟩ := faultFree
    obtain ⟨s', r, run, keeps⟩ := add_keeps plain.separators clean faultless
    simp only [Op.step, run]
    exact keeps
  | get call sched =>
    have step : ∀ n t f, (Clean cfg content t ∧ t.files = s.files) →
        Clean cfg content (getStep cfg (sched n).choice (t.envs (sched n).before) f).1 ∧
          (getStep cfg (sched n).choice (t.envs (sched n).before) f).1.files = s.files := by
      rintro n t f ⟨clean, files⟩
      refine ⟨getStep_tiers (clean.envs _) (Loadable.same cfg _ _ _) _, ?_⟩
      rw [(getStep_disk cfg _ _ f).2, (t.envs_disk _).2, files]
    obtain ⟨s', out, run, clean', files⟩ := get_keeps (K := fun t => Clean cfg content t ∧ t.files = s.files) step
      ⟨clean, rfl⟩ call.hash call.offset call.length_inRange.2 call.dst
    simp only [Op.step, run]
    exact ⟨clean', fun _ disk => disk.of_files files⟩

end Blobcache.Storage
