import Blobcache.Storage.Integrity
import Blobcache.Storage.ConcurrentStores

/-!
# Reads beside half-written files

`os.WriteFile` truncates a chunk file and writes it in pieces, and a `Get` may load the file at any
moment in between. What it loads is a prefix of the chunk as long as the file has one writer. A second
store of the object that truncates the file under the hands of the first leaves a gap of zeros there,
and a reader takes them for the content.

So reads are as true at the granularity of system calls as they are at that of chunks, in every run in
which no store truncates a chunk file that another one is in the middle of writing (`orderly_run`).
-/

namespace Blobcache.Storage
set_option autoImplicit false
open Execution Interleaving Paging

/-- The chunk file that a call is in the middle of writing. -/
def Thread.writing (cfg : Config) : Thread → Option (String × String)
  | .add f none =>
    match f.pc with
    | .writing _ => some (f.hash, f.chunkKey cfg)
    | _ => none
  | _ => none

/-- The chunk file that a call truncates next. -/
def Thread.begins (cfg : Config) : Thread → Option (String × String)
  | .add f none =>
    match f.pc with
    | .write => some (f.hash, f.chunkKey cfg)
    | _ => none
  | _ => none

/-- The actions of a run in which file writes are seen at every system call, and no store truncates a chunk file
that another one is in the middle of writing. -/
structure SingleWriter (cfg : Config) (content : String → Bytes) (p : System) (a : Act) : Prop where
  calls : CallSteps content p a
  alone : ∀ t c thread, a = .move t c → p.threads[t]? = some thread →
    ∀ file ∈ thread.begins cfg, ∀ other ∈ p.threads, file ∉ other.writing cfg

/-- A store has its place and its file is right so far; a read has delivered bytes of its object. -/
def OrderlyThread (cfg : Config) (content : String → Bytes) (s : Cas) : Thread → Prop
  | .add f result => result = none → Placed cfg content f ∧
      ∀ pos, f.pc = .writing pos → s.files f.hash (f.chunkKey cfg) = some ((f.chunk cfg).take pos)
  | .get call f result => SoundThread cfg content (.get call f result)

/-- Every chunk is a prefix of its page, every call is in order, and no file has two writers. -/
structure Orderly (cfg : Config) (content : String → Bytes) (p : System) : Prop where
  tiers : Tiers (PrefixOfPage cfg content) (PrefixOfPage cfg content) p.shared
  calls : ∀ thread ∈ p.threads, OrderlyThread cfg content p.shared thread
  single : ∀ (t t' : Nat) thread other file, p.threads[t]? = some thread → p.threads[t']? = some other →
    file ∈ thread.writing cfg → file ∈ other.writing cfg → t = t'

variable {cfg : Config} {content : String → Bytes} {s s' : Cas} {p : System}

/-! ## One store -/

/-- The next piece, after the part of the chunk that is there. -/
theorem writeAt_take {chunk data : Bytes} {pos : Nat} (inside : pos ≤ chunk.length) (part : data <+: chunk.drop pos) :
    writeAt (chunk.take pos) pos data = chunk.take (pos + data.length) := by
  have length : (chunk.take pos).length = pos := List.length_take_of_le inside
  rw [List.take_add, ← List.prefix_iff_eq_take.mp part, writeAt, length, Nat.sub_self, List.replicate_zero,
    List.append_nil, List.take_take, Nat.min_self, List.drop_of_length_le (by omega), List.append_nil]

theorem OrderlyThread.at_file {f : AddFrame} (ok : OrderlyThread cfg content s (.add f none)) {file : Bytes} {pos : Nat}
    (at_file : AtFile cfg s f file pos) : file = (f.chunk cfg).take pos ∧ pos ≤ (f.chunk cfg).length := by
  obtain ⟨placed, right⟩ := ok rfl
  refine ⟨?_, at_file.pos_le placed⟩
  cases at_file with
  | truncated => rfl
  | resumed pc => rw [right _ pc, Option.getD_some]

/-- What a store leaves in its chunk file is a first part of the chunk. -/
theorem OrderlyThread.wrote {f : AddFrame} (ok : OrderlyThread cfg content s (.add f none)) {file : Bytes} {pos : Nat}
    (at_file : AtFile cfg s f file pos) (c : WriteStep) :
    writeAt file pos (c.data ((f.chunk cfg).drop pos)) =
      (f.chunk cfg).take (pos + (c.data ((f.chunk cfg).drop pos)).length) := by
  obtain ⟨rfl, inside⟩ := ok.at_file at_file
  exact writeAt_take inside (c.data_prefix _)

theorem OrderlyThread.add_tiers {f : AddFrame} (ok : OrderlyThread cfg content s (.add f none))
    (tiers : Tiers (PrefixOfPage cfg content) (PrefixOfPage cfg content) s) (c : AddChoice) :
    Tiers (PrefixOfPage cfg content) (PrefixOfPage cfg content) (addStep cfg c s f).1 := by
  have chunk := (ok rfl).1.chunk
  refine addStep_tiers tiers (ok rfl).1.plain (fun _ => ?_) fun file pos at_file => ?_
  · rw [chunk]
    exact List.prefix_rfl
  · rw [ok.wrote at_file, PrefixOfPage, ← chunk]
    exact List.take_prefix _ _

theorem OrderlyThread.add_next {f : AddFrame} (ok : OrderlyThread cfg content s (.add f none)) (c : AddChoice) :
    OrderlyThread cfg content (addStep cfg c s f).1 (.ofAdd f (addStep cfg c s f).2) := by
  cases next : (addStep cfg c s f).2 with
  | inr r => exact nofun
  | inl f' =>
    refine fun _ => ⟨(ok rfl).1.step next, fun pos pc => ?_⟩
    have taken := addStep_taken cfg c s f
    rw [next] at taken
    generalize (addStep cfg c s f).1 = s' at taken
    cases taken with
    | writePart at_file =>
      cases pc
      rw [ok.wrote at_file]
      exact Cas.setFile_self _ _ _ _
    | _ => cases pc

/-- What a step of a call writes, and what it is in the middle of writing afterwards, is the file it was at. -/
structure Own (cfg : Config) (s s' : Cas) (thread thread' : Thread) : Prop where
  files : ∀ file : String × String, s'.files file.1 file.2 ≠ s.files file.1 file.2 →
    file ∈ thread.begins cfg ∨ file ∈ thread.writing cfg
  writing : ∀ file ∈ thread'.writing cfg, file ∈ thread.begins cfg ∨ file ∈ thread.writing cfg

theorem addStep_own (cfg : Config) (c : AddChoice) (s : Cas) (f : AddFrame) :
    Own cfg s (addStep cfg c s f).1 (.add f none) (.ofAdd f (addStep cfg c s f).2) := by
  have own {file : Bytes} {pos : Nat} (at_file : AtFile cfg s f file pos) :
      (f.hash, f.chunkKey cfg) ∈ Thread.begins cfg (.add f none) ∨
        (f.hash, f.chunkKey cfg) ∈ Thread.writing cfg (.add f none) := by
    cases at_file with
    | truncated pc => exact .inl (by simp [Thread.begins, pc])
    | resumed pc => exact .inr (by simp [Thread.writing, pc])
  have writes {file : Bytes} {pos : Nat} (at_file : AtFile cfg s f file pos) (bytes : Bytes) (x : String × String)
      (differs : (s.setFile f.hash (f.chunkKey cfg) bytes).files x.1 x.2 ≠ s.files x.1 x.2) :
      x ∈ Thread.begins cfg (.add f none) ∨ x ∈ Thread.writing cfg (.add f none) := by
    have same : x = (f.hash, f.chunkKey cfg) := by
      by_contra other
      exact differs (Cas.setFile_other _ _ other)
    rw [same]
    exact own at_file
  have taken := addStep_taken cfg c s f
  generalize (addStep cfg c s f).1 = s', (addStep cfg c s f).2 = out at taken
  cases taken with
  | written at_file => exact ⟨writes at_file _, nofun⟩
  | writeFailed at_file => exact ⟨writes at_file _, nofun⟩
  | writePart at_file =>
    refine ⟨writes at_file _, fun file member => ?_⟩
    cases member
    exact own at_file
  | _ => exact ⟨fun _ differs => absurd rfl differs, nofun⟩

/-! ## The calls together -/

/-- A call goes on, as far as the file that it is in the middle of writing is left alone. -/
theorem OrderlyThread.keep {thread : Thread} (ok : OrderlyThread cfg content s thread)
    (same : ∀ file ∈ thread.writing cfg, s'.files file.1 file.2 = s.files file.1 file.2) :
    OrderlyThread cfg content s' thread := by
  cases thread with
  | get call f result => exact ok
  | add f result =>
    intro none
    subst none
    obtain ⟨placed, right⟩ := ok rfl
    refine ⟨placed, fun pos pc => ?_⟩
    rw [same (f.hash, f.chunkKey cfg) (by simp [Thread.writing, pc])]
    exact right pos pc

theorem Orderly.moved {t : Nat} {thread thread' : Thread} (h : Orderly cfg content p)
    (here : p.threads[t]? = some thread)
    (tiers : Tiers (PrefixOfPage cfg content) (PrefixOfPage cfg content) s')
    (ok : OrderlyThread cfg content s' thread') (own : Own cfg p.shared s' thread thread')
    (alone : ∀ file ∈ thread.begins cfg, ∀ other ∈ p.threads, file ∉ other.writing cfg) :
    Orderly cfg content ⟨s', p.threads.set t thread'⟩ := by
  -- the file that the call is at is no other call's
  have free {t' : Nat} {other : Thread} (there : p.threads[t']? = some other) (different : t' ≠ t)
      {file : String × String} (writes : file ∈ other.writing cfg) :
      ¬ (file ∈ thread.begins cfg ∨ file ∈ thread.writing cfg) := by
    rintro (begins | also)
    · exact alone file begins other (List.mem_of_getElem? there) writes
    · exact different (h.single t' t other thread file there here writes also)
  have others {t' : Nat} {other : Thread} (there : p.threads[t']? = some other) (different : t' ≠ t) :
      OrderlyThread cfg content s' other := by
    refine (h.calls other (List.mem_of_getElem? there)).keep fun file writes => ?_
    by_contra differs
    exact free there different writes (own.files file differs)
  refine ⟨tiers, fun other member => ?_, fun t₁ t₂ one two file found₁ found₂ writes₁ writes₂ => ?_⟩
  · obtain ⟨t', found⟩ := List.mem_iff_getElem?.mp member
    rcases threads_set found with ⟨-, rfl⟩ | ⟨different, there⟩
    · exact ok
    · exact others there different
  · rcases threads_set found₁ with ⟨rfl, rfl⟩ | ⟨different₁, there₁⟩
    · rcases threads_set found₂ with ⟨same, -⟩ | ⟨different₂, there₂⟩
      · exact same.symm
      · exact absurd (own.writing file writes₁) (free there₂ different₂ writes₂)
    · rcases threads_set found₂ with ⟨rfl, rfl⟩ | ⟨-, there₂⟩
      · exact absurd (own.writing file writes₂) (free there₁ different₁ writes₁)
      · exact h.single t₁ t₂ one two file there₁ there₂ writes₁ writes₂

theorem Orderly.spawn {thread : Thread} (h : Orderly cfg content p) (starts : Starts content thread) :
    Orderly cfg content ⟨p.shared, p.threads ++ [thread]⟩ := by
  have new : OrderlyThread cfg content p.shared thread ∧ thread.writing cfg = none := by
    cases starts with
    | add plain =>
      refine ⟨fun _ => ⟨⟨Storing.start plain.separators, fun _ pc => by cases pc⟩, fun _ pc => by cases pc⟩, rfl⟩
    | get call =>
      have sound : SoundThread cfg content (.startGet call) := soundThread_starts (.get call)
      exact ⟨sound, rfl⟩
  have place {t : Nat} {other : Thread} {file : String × String} (found : (p.threads ++ [thread])[t]? = some other)
      (writes : file ∈ other.writing cfg) : p.threads[t]? = some other := by
    rcases Nat.lt_or_ge t p.threads.length with old | late
    · rwa [List.getElem?_append_left old] at found
    · rw [List.getElem?_append_right late] at found
      rw [List.mem_singleton.mp (List.mem_of_getElem? found), new.2] at writes
      cases writes
  refine ⟨h.tiers, fun other member => ?_, fun t t' one two file found found' writes writes' => ?_⟩
  · rcases List.mem_append.mp member with old | late
    · exact h.calls other old
    · rw [List.mem_singleton.mp late]
      exact new.1
  · exact h.single t t' one two file (place found writes) (place found' writes') writes writes'

theorem Orderly.step (small : ∀ hash, (content hash).length < 2 ^ 63) {a : Act} (h : Orderly cfg content p)
    (admitted : SingleWriter cfg content p a) : Orderly cfg content (System.step cfg a p) := by
  cases a with
  | env e =>
    have files := (p.shared.env_disk e).2
    exact ⟨h.tiers.env e, fun thread member => (h.calls thread member).keep fun file _ =>
      congrFun (congrFun files file.1) file.2, h.single⟩
  | spawn thread => exact h.spawn admitted.calls
  | move t c =>
    have alone := admitted.alone t c
    simp only [System.step, Pool.step]
    cases here : p.threads[t]? with
    | none => exact h
    | some thread =>
      have ok := h.calls thread (List.mem_of_getElem? here)
      have idle : Own cfg p.shared p.shared thread thread := ⟨fun _ differs => absurd rfl differs, fun _ => .inr⟩
      cases thread with
      | add f result =>
        cases result with
        | some r => exact h.moved here h.tiers ok idle (alone _ rfl here)
        | none =>
          exact h.moved here (ok.add_tiers h.tiers c) (ok.add_next c) (addStep_own cfg c p.shared f) (alone _ rfl here)
      | get call f result =>
        cases result with
        | some r => exact h.moved here h.tiers ok idle (alone _ rfl here)
        | none =>
          have loadable := Loadable.same cfg (PrefixOfPage cfg content) p.shared f
          have files := (getStep_disk cfg c.setRefused p.shared f).2
          refine h.moved here (getStep_tiers h.tiers loadable _) ?_ ⟨fun file differs => ?_, fun _ member => ?_⟩
            (alone _ rfl here)
          · intro off len offset length room
            exact (Delivered.rule (small _) off len).reading (ok off len offset length room)
              (getStep_seen h.tiers loadable _)
          · exact absurd (congrFun (congrFun files file.1) file.2) differs
          · cases member

/-- **Reads beside half-written files.** In every run in which no chunk file has two writers, whatever is loaded is a
prefix of its chunk, and every call of `Get` has put the bytes of its object into its destination. -/
theorem orderly_run (small : ∀ hash, (content hash).length < 2 ^ 63)
    (run : Trace (System.step cfg) (SingleWriter cfg content) System.start p) : Orderly cfg content p := by
  have start : Orderly cfg content System.start :=
    ⟨Tiers.fresh, fun _ member => absurd member List.not_mem_nil, fun _ _ _ _ _ found => by cases found⟩
  exact run.invariant (fun _ _ h admitted => h.step small admitted) start

end Blobcache.Storage
