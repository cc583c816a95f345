import Blobcache.Storage.System

/-!
# How much is on disk

The usage monitor sets a flag when the cache directory has grown too large, and `Add` reads it before
it creates a directory and before it begins a chunk file. Nothing removes a file again, so what is on
disk when the flag is set stays there, and whatever is added makes it worse.

Little is added. No lock holds the read of the flag and what follows it together, so a call that has
found the flag unset makes its directory, or writes its chunk file to the end, after the flag is set.
Each call under way does one of the two, once, and a chunk file is a page at most. So the disk grows by
a directory or by a page for each call under way, however long the flag stays set and however many calls
of `Add` come.
-/

namespace Blobcache.Storage
set_option autoImplicit false
open Execution Interleaving

/-! ## No chunk is longer than a page -/

/-- A chunk is at most a page long. -/
def AtMostPage (cfg : Config) : ChunkPred := fun _ _ bytes => bytes.length ≤ cfg.pageSizeBytes

/-- A store of an object, which has written no more than a page of the chunk it is at. -/
structure Filling (cfg : Config) (f : AddFrame) : Prop where
  plain : NoSeparators f.hash
  inside : ∀ pos, f.pc = .writing pos → pos ≤ cfg.pageSizeBytes

/-- Every store fills a page at most. -/
def FillingThread (cfg : Config) : Thread → Prop
  | .add f result => result = none → Filling cfg f
  | .get _ _ _ => True

variable {cfg : Config} {content : String → Bytes}

theorem chunk_length_le (f : AddFrame) : (f.chunk cfg).length ≤ cfg.pageSizeBytes := by
  rw [AddFrame.chunk, List.length_take]
  omega

theorem Filling.start {hash : String} (plain : NoSeparators hash) (bytes : Bytes) :
    Filling cfg (AddFrame.start hash bytes) :=
  ⟨plain, nofun⟩

theorem Filling.data_le {f : AddFrame} {s : Cas} {file : Bytes} {pos : Nat} (h : Filling cfg f)
    (at_file : AtFile cfg s f file pos) (c : WriteStep) :
    pos + (c.data ((f.chunk cfg).drop pos)).length ≤ cfg.pageSizeBytes := by
  have short := (c.data_prefix ((f.chunk cfg).drop pos)).length_le
  have chunk : (f.chunk cfg).length ≤ cfg.pageSizeBytes := chunk_length_le f
  rw [List.length_drop] at short
  cases at_file with
  | truncated => omega
  | resumed pc =>
    have inside := h.inside pos pc
    omega

theorem Filling.step {c : AddChoice} {s : Cas} {f f' : AddFrame} (h : Filling cfg f)
    (next : (addStep cfg c s f).2 = .inl f') : Filling cfg f' := by
  have taken := addStep_taken cfg c s f
  rw [next] at taken
  generalize (addStep cfg c s f).1 = s' at taken
  cases taken with
  | writePart at_file =>
    refine ⟨h.plain, fun pos pc => ?_⟩
    cases pc
    exact h.data_le at_file c.write
  | _ => exact ⟨h.plain, fun pos pc => by cases pc⟩

theorem Filling.ofAdd {c : AddChoice} {s : Cas} {f : AddFrame} (h : Filling cfg f) :
    FillingThread cfg (.ofAdd f (addStep cfg c s f).2) := by
  cases out : (addStep cfg c s f).2 with
  | inl f' => exact fun _ => h.step out
  | inr r => exact nofun

theorem Filling.tiers {c : AddChoice} {s : Cas} {f : AddFrame} (h : Filling cfg f)
    (tiers : Tiers (AtMostPage cfg) (AtMostPage cfg) s) :
    Tiers (AtMostPage cfg) (AtMostPage cfg) (addStep cfg c s f).1 := by
  refine addStep_tiers tiers h.plain (fun _ => chunk_length_le f) fun file pos at_file => ?_
  refine writeAt_length_le ?_ (h.data_le at_file c.write)
  cases at_file with
  | truncated => exact Nat.zero_le _
  | resumed =>
    cases found : s.files f.hash (f.chunkKey cfg) with
    | none => exact Nat.zero_le _
    | some file =>
      obtain ⟨-, i, -, short⟩ := tiers.disk _ _ _ found
      exact short

theorem atMostPage_run {sys : System} (run : Trace (System.step cfg) (CallSteps content) System.start sys) :
    Tiers (AtMostPage cfg) (AtMostPage cfg) sys.shared := by
  have invariant : Tiers (AtMostPage cfg) (AtMostPage cfg) sys.shared ∧
      ∀ thread ∈ sys.threads, FillingThread cfg thread := by
    refine System.invariant ?_ ?_ ?_ ?_ run Tiers.fresh rfl
    · intro _ thread starts
      cases starts with
      | add plain => exact fun _ => Filling.start plain.separators _
      | get call => exact trivial
    · intro p t c f _ tiers filling
      exact ⟨(filling rfl).tiers tiers, (filling rfl).ofAdd⟩
    · exact fun p _ _ _ f _ _ => Loadable.same cfg (AtMostPage cfg) p.shared f
    · exact fun _ _ _ _ _ => trivial
  exact invariant.1

/-! ## While the flag is set -/

/-- What a call does to the disk. -/
inductive Access where
  | dir (hash : String)
  | file (hash key : String)
  deriving DecidableEq, Repr

/-- What a call is about to do to the disk, or is in the middle of, having found the flag unset. -/
def Thread.access (cfg : Config) : Thread → Option Access
  | .add f none =>
    match f.pc with
    | .mkdir => some (.dir f.hash)
    | .write => some (.file f.hash (f.chunkKey cfg))
    | .writing _ => some (.file f.hash (f.chunkKey cfg))
    | _ => none
  | _ => none

/-- The accesses to the disk that are under way, at most one for each call. -/
def System.accesses (cfg : Config) (p : System) : List Access := p.threads.filterMap (Thread.access cfg)

/-- The actions of a run while the flag is set. -/
def WhileFull (content : String → Bytes) (p : System) (a : Act) : Prop :=
  CallSteps content p a ∧ p.shared.diskCachedUsageExceeded = true

/-- What changes on disk is accessed by `accessed`. -/
structure ChangedBy (accessed : Access → Prop) (s s' : Cas) : Prop where
  dirs : ∀ hash, s'.dirs hash ≠ s.dirs hash → accessed (.dir hash)
  files : ∀ hash key, s'.files hash key ≠ s.files hash key → accessed (.file hash key)

theorem ChangedBy.of_same {accessed : Access → Prop} {s s' : Cas} (dirs : s'.dirs = s.dirs) (files : s'.files = s.files) :
    ChangedBy accessed s s' :=
  ⟨fun hash differs => absurd (congrFun dirs hash) differs,
    fun hash key differs => absurd (congrFun (congrFun files hash) key) differs⟩

theorem ChangedBy.trans {accessed : Access → Prop} {s t u : Cas} (first : ChangedBy accessed s t)
    (second : ChangedBy accessed t u) : ChangedBy accessed s u := by
  refine ⟨fun hash differs => ?_, fun hash key differs => ?_⟩
  · by_cases same : u.dirs hash = t.dirs hash
    · exact first.dirs hash (same ▸ differs)
    · exact second.dirs hash same
  · by_cases same : u.files hash key = t.files hash key
    · exact first.files hash key (same ▸ differs)
    · exact second.files hash key same

/-- What a step of a store does while the flag is set: it carries out the access it is at, and goes on to no other. -/
theorem addStep_full {c : AddChoice} {s : Cas} {f : AddFrame} (full : s.diskCachedUsageExceeded = true) :
    (∀ x ∈ Thread.access cfg (.ofAdd f (addStep cfg c s f).2), x ∈ Thread.access cfg (.add f none)) ∧
      ChangedBy (· ∈ Thread.access cfg (.add f none)) s (addStep cfg c s f).1 := by
  have taken := addStep_taken cfg c s f
  generalize (addStep cfg c s f).1 = s', (addStep cfg c s f).2 = out at taken
  have own {file : Bytes} {pos : Nat} (at_file : AtFile cfg s f file pos) :
      Thread.access cfg (.add f none) = some (.file f.hash (f.chunkKey cfg)) := by
    cases at_file with
    | truncated pc => simp only [Thread.access, pc]
    | resumed pc => simp only [Thread.access, pc]
  have writes {file : Bytes} {pos : Nat} (at_file : AtFile cfg s f file pos) (bytes : Bytes) :
      ChangedBy (· ∈ Thread.access cfg (.add f none)) s (s.setFile f.hash (f.chunkKey cfg) bytes) := by
    refine ⟨fun hash differs => absurd rfl differs, fun hash key differs => ?_⟩
    have same : (hash, key) = (f.hash, f.chunkKey cfg) := by
      by_contra other
      exact differs (Cas.setFile_other _ _ other)
    cases same
    exact own at_file
  cases taken with
  | toDir _ enabled | toWrite _ _ enabled =>
    rw [full] at enabled
    cases enabled
  | dir pc =>
    refine ⟨nofun, fun hash differs => ?_, fun _ _ differs => absurd rfl differs⟩
    have same : hash = f.hash := by
      by_contra other
      exact differs (by simp [Cas.mkdirAll, Function.update_of_ne other])
    subst same
    simp [Thread.access, pc]
  | written at_file | writeFailed at_file => exact ⟨nofun, writes at_file _⟩
  | writePart at_file =>
    refine ⟨fun x member => ?_, writes at_file _⟩
    rw [own at_file]
    exact member
  | _ => exact ⟨nofun, .of_same rfl rfl⟩

/-- What has happened since the flag was set: nothing but the accesses that were under way then. -/
structure Bounded (cfg : Config) (p q : System) : Prop where
  accesses : ∀ x ∈ q.accesses cfg, x ∈ p.accesses cfg
  disk : ChangedBy (· ∈ p.accesses cfg) p.shared q.shared

theorem Bounded.refl (p : System) : Bounded cfg p p := ⟨fun _ member => member, .of_same rfl rfl⟩

/-- A call moves on, and what it accesses it was accessing before. -/
theorem Bounded.moved {p q : System} {s' : Cas} {t : Nat} {thread thread' : Thread} (h : Bounded cfg p q)
    (here : q.threads[t]? = some thread) (access : ∀ x ∈ thread'.access cfg, x ∈ thread.access cfg)
    (disk : ChangedBy (· ∈ thread.access cfg) q.shared s') : Bounded cfg p ⟨s', q.threads.set t thread'⟩ := by
  have before {x : Access} (member : x ∈ thread.access cfg) : x ∈ p.accesses cfg :=
    h.accesses x (List.mem_filterMap.mpr ⟨thread, List.mem_of_getElem? here, member⟩)
  refine ⟨fun x member => ?_, h.disk.trans ⟨fun hash differs => ?_, fun hash key differs => ?_⟩⟩
  · obtain ⟨other, found, accesses⟩ := List.mem_filterMap.mp member
    rcases List.mem_or_eq_of_mem_set found with old | rfl
    · exact h.accesses x (List.mem_filterMap.mpr ⟨other, old, accesses⟩)
    · exact before (access x accesses)
  · exact before (disk.dirs hash differs)
  · exact before (disk.files hash key differs)

theorem Bounded.step {p q : System} {a : Act} (h : Bounded cfg p q) (full : WhileFull content q a) :
    Bounded cfg p (System.step cfg a q) := by
  cases a with
  | env e =>
    obtain ⟨dirs, files⟩ := q.shared.env_disk e
    exact ⟨h.accesses, h.disk.trans (.of_same dirs files)⟩
  | spawn thread =>
    refine ⟨fun x member => ?_, h.disk⟩
    obtain ⟨other, found, accesses⟩ := List.mem_filterMap.mp member
    rcases List.mem_append.mp found with old | new
    · exact h.accesses x (List.mem_filterMap.mpr ⟨other, old, accesses⟩)
    · rw [List.mem_singleton.mp new] at accesses
      cases full.1 with
      | add => cases accesses
      | get => cases accesses
  | move t c =>
    simp only [System.step, Pool.step]
    cases here : q.threads[t]? with
    | none => exact h
    | some thread =>
      cases thread with
      | add f result =>
        cases result with
        | some r => exact h.moved here (fun _ member => member) (.of_same rfl rfl)
        | none =>
          obtain ⟨access, disk⟩ := @addStep_full cfg c _ f full.2
          exact h.moved here access disk
      | get call f result =>
        cases result with
        | some r => exact h.moved here (fun _ member => member) (.of_same rfl rfl)
        | none =>
          obtain ⟨dirs, files⟩ := getStep_disk cfg c.setRefused q.shared f
          refine h.moved here (fun _ accesses => ?_) (.of_same dirs files)
          cases accesses

/-- **A full disk grows no further.** From a moment on the flag is set. Then every directory that is created, and
every chunk file that is changed or created, is one that a call of `Add` had found the flag unset for at that moment
and was about to make or to write, or was in the middle of writing, one for each call; and a changed file is at most
a page long. -/
theorem full_disk_grows_no_further {p q : System} (before : Trace (System.step cfg) (CallSteps content) System.start p)
    (run : Trace (System.step cfg) (WhileFull content) p q) :
    (∀ hash, q.shared.dirs hash ≠ p.shared.dirs hash → .dir hash ∈ p.accesses cfg) ∧
      ∀ hash key, q.shared.files hash key ≠ p.shared.files hash key →
        .file hash key ∈ p.accesses cfg ∧ ∀ file ∈ q.shared.files hash key, file.length ≤ cfg.pageSizeBytes := by
  have bounded : Bounded cfg p q := run.invariant (fun _ _ h full => h.step full) (Bounded.refl p)
  have short := atMostPage_run (before.trans (run.weaken fun _ _ full => full.1))
  refine ⟨bounded.disk.dirs, fun hash key differs => ⟨bounded.disk.files hash key differs, fun file found => ?_⟩⟩
  obtain ⟨-, i, -, length⟩ := short.disk hash key file found
  exact length

/-- When the flag is set, a store of two pages is in the middle of the first, and another has found the flag unset and
is about to make its directory. -/
def fillsUp : List Act :=
  .spawn (.startAdd "a" [7, 8]) :: .spawn (.startAdd "b" [7, 8]) :: List.replicate 3 (.move 0 ⟨.finish .ok, false, ""⟩) ++
    [.move 0 ⟨.part 0, false, ""⟩, .move 1 ⟨.finish .ok, false, ""⟩, .env (.setUsageExceeded true)]

/-- The first finishes its page, the second makes its directory; both leave out the pages that are left and succeed. -/
def goesOn : List Act :=
  List.replicate 5 (.move 0 ⟨.finish .ok, false, ""⟩) ++ List.replicate 6 (.move 1 ⟨.finish .ok, false, ""⟩)

theorem full_disk_grows_no_further_one_page :
    ((after (System.step oneBytePages) (fillsUp ++ goesOn) System.start).shared.files "a" (chunkKey "a" 0) = some [7] ∧
      (after (System.step oneBytePages) fillsUp System.start).shared.dirs "b" = false ∧
      (after (System.step oneBytePages) (fillsUp ++ goesOn) System.start).shared.dirs "b" = true ∧
      (after (System.step oneBytePages) (fillsUp ++ goesOn) System.start).threads =
        [.add ⟨"a", [7, 8], 2, [chunkKey "a" 0, chunkKey "a" 1], .loop⟩ (some (.ok ())),
          .add ⟨"b", [7, 8], 2, [chunkKey "b" 0, chunkKey "b" 1], .loop⟩ (some (.ok ()))]) ∧
    (∀ hash, (after (System.step oneBytePages) (fillsUp ++ goesOn) System.start).shared.dirs hash ≠
        (after (System.step oneBytePages) fillsUp System.start).shared.dirs hash → hash = "b") ∧
    ∀ hash key, (after (System.step oneBytePages) (fillsUp ++ goesOn) System.start).shared.files hash key ≠
      (after (System.step oneBytePages) fillsUp System.start).shared.files hash key →
        hash = "a" ∧ key = chunkKey "a" 0 := by
  have before : Trace (System.step oneBytePages) (CallSteps fun _ => [7, 8]) System.start
      (after (System.step oneBytePages) fillsUp System.start) := by
    refine callSteps_run fillsUp System.start fun thread started => ?_
    obtain rfl | rfl : thread = .startAdd "a" [7, 8] ∨ thread = .startAdd "b" [7, 8] := by
      simpa [fillsUp] using started
    · exact .add (by decide)
    · exact .add (by decide)
  have run : Trace (System.step oneBytePages) (WhileFull fun _ => [7, 8])
      (after (System.step oneBytePages) fillsUp System.start)
      (after (System.step oneBytePages) (fillsUp ++ goesOn) System.start) := by
    rw [after_append]
    refine Trace.of_list goesOn _ fun k => ⟨?_, ?_⟩
    · rcases List.mem_append.mp (List.get_mem goesOn k) with first | second
      · rw [List.eq_of_mem_replicate first]
        exact trivial
      · rw [List.eq_of_mem_replicate second]
        exact trivial
    · revert k
      decide
  have two : (after (System.step oneBytePages) fillsUp System.start).accesses oneBytePages =
      [.file "a" (chunkKey "a" 0), .dir "b"] := by decide
  have grows := full_disk_grows_no_further before run
  rw [two] at grows
  refine ⟨⟨by decide, by decide, by decide, by decide⟩, fun hash differs => ?_, fun hash key differs => ?_⟩
  · simpa using grows.1 hash differs
  · simpa using (grows.2 hash key differs).1

end Blobcache.Storage
