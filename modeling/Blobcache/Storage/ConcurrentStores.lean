import Blobcache.Storage.System
import Blobcache.Storage.Objects

/-!
# Concurrent stores of one object

Nothing keeps two calls of `Add` for the same hash apart. Each of them truncates the chunk files and
writes them from the beginning, so that a call finds its file shortened under its hands, goes on at its
own position and leaves a gap; a reader sees the file in any such state.

When the calls are over nothing of that is left. After a truncation the call that has truncated last
has the file right up to where it is (`Right`), and what the others write is in place: they write the
same page. So the file is whole once that call is through. This holds whatever the files held before
(`concurrent_stores_leave_whole`): a store repairs what an earlier process has left.
-/

namespace Blobcache.Storage
set_option autoImplicit false
open Execution Interleaving Paging

/-! ## Writing a part of a page in its place -/

/-- The first `n` bytes of the file are those of the page. -/
def Right (page file : Bytes) (n : Nat) : Prop := ∀ j < n, file[j]? = page[j]?

theorem writeAt_eq (file : Bytes) (pos : Nat) (data : Bytes) :
    ∃ front : Bytes, front.length = pos ∧ (∀ j < file.length, j < pos → front[j]? = file[j]?) ∧
      writeAt file pos data = front ++ (data ++ file.drop (pos + data.length)) := by
  refine ⟨file.take pos ++ List.replicate (pos - file.length) 0, ?_, fun j held before => ?_, ?_⟩
  · rw [List.length_append, List.length_take, List.length_replicate]
    omega
  · rw [List.getElem?_append_left (by rw [List.length_take]; omega), List.getElem?_take_of_lt before]
  · simp only [writeAt, List.append_assoc]

/-- The bytes that a part of the page puts in their places. -/
theorem getElem?_written {page file data : Bytes} {pos j : Nat} (part : data <+: page.drop pos) (from_pos : pos ≤ j)
    (to_end : j < pos + data.length) : (writeAt file pos data)[j]? = page[j]? := by
  obtain ⟨front, length, -, eq⟩ := writeAt_eq file pos data
  have inside : j - pos < data.length := by omega
  rw [eq, List.getElem?_append_right (by omega), length, List.getElem?_append_left inside,
    List.prefix_iff_eq_take.mp part, List.getElem?_take_of_lt inside, List.getElem?_drop, Nat.add_sub_cancel' from_pos]

/-- What is right stays right when a part of the page is written, wherever that is. -/
theorem Right.write {page file data : Bytes} {n pos : Nat} (h : Right page file n) (within : n ≤ page.length)
    (part : data <+: page.drop pos) : Right page (writeAt file pos data) n := by
  intro j before
  have same := h j before
  rcases Nat.lt_or_ge j pos with left | right
  · have held : j < file.length := by
      by_contra beyond
      rw [List.getElem?_eq_none (by omega), List.getElem?_eq_getElem (by omega)] at same
      cases same
    obtain ⟨front, length, old, eq⟩ := writeAt_eq file pos data
    rw [eq, List.getElem?_append_left (by omega), old j held left, same]
  rcases Nat.lt_or_ge j (pos + data.length) with inside | after
  · exact getElem?_written part right inside
  · obtain ⟨front, length, -, eq⟩ := writeAt_eq file pos data
    rw [eq, List.getElem?_append_right (by omega), List.getElem?_append_right (by omega), List.getElem?_drop, ← same]
    congr 1
    omega

/-- Writing on where the file is right so far. -/
theorem Right.append {page file data : Bytes} {pos : Nat} (h : Right page file pos) (within : pos ≤ page.length)
    (part : data <+: page.drop pos) : Right page (writeAt file pos data) (pos + data.length) := by
  intro j before
  rcases Nat.lt_or_ge j pos with left | right
  · exact h.write within part j left
  · exact getElem?_written part right before

theorem right_whole_iff {page file : Bytes} (short : file.length ≤ page.length) :
    Right page file page.length ↔ file = page := by
  constructor
  · intro h
    refine List.ext_getElem? fun j => ?_
    rcases Nat.lt_or_ge j page.length with inside | beyond
    · exact h j inside
    · rw [List.getElem?_eq_none (by omega), List.getElem?_eq_none beyond]
  · rintro rfl j -
    rfl

theorem part_length_le {page data : Bytes} {pos : Nat} (part : data <+: page.drop pos) (within : pos ≤ page.length) :
    pos + data.length ≤ page.length := by
  have length := part.length_le
  rw [List.length_drop] at length
  omega

/-! ## The steps of a store that nothing hinders -/

variable {cfg : Config} {content : String → Bytes} {hash : String}

/-- The call has begun to write chunk `i`. -/
def Begun (cfg : Config) (f : AddFrame) (i : Nat) : Prop :=
  i < f.chunkIdx cfg ∨ i = f.chunkIdx cfg ∧ (f.pc = .set ∨ ∃ pos, f.pc = .writing pos)

/-- A step that writes a part of the chunk, or its rest, and goes on. -/
structure WritesPart (cfg : Config) (s : Cas) (f : AddFrame) (s' : Cas) (f' : AddFrame) : Prop where
  writes : ∃ file pos data, AtFile cfg s f file pos ∧ data <+: (f.chunk cfg).drop pos ∧
    s' = s.setFile f.hash (f.chunkKey cfg) (writeAt file pos data) ∧
    (f' = { f with pc := .set } ∧ data = (f.chunk cfg).drop pos ∨ f' = { f with pc := .writing (pos + data.length) })

/-- A step that touches no file; a call that is in the middle of writing one takes none. -/
structure WritesNothing (cfg : Config) (s : Cas) (f : AddFrame) (s' : Cas)
    (out : AddFrame ⊕ (Except AddError Unit)) : Prop where
  files : s'.files = s.files
  not_writing : ∀ pos, f.pc ≠ .writing pos
  begun : ∀ f', out = .inl f' → ∀ i, Begun cfg f' i → Begun cfg f i

theorem begun_next {f : AddFrame} {keys : List String} (pc : f.pc = .set) {i : Nat}
    (begun : Begun cfg { f with pc := .loop, offset := f.offset + cfg.pageSizeBytes, chunkKeys := keys } i) :
    Begun cfg f i := by
  have next : AddFrame.chunkIdx cfg { f with pc := .loop, offset := f.offset + cfg.pageSizeBytes, chunkKeys := keys } =
      f.chunkIdx cfg + 1 := Nat.add_div_right _ cfg.positive
  rcases begun with before | ⟨-, loop | ⟨_, loop⟩⟩
  · rw [next] at before
    rcases Nat.lt_or_ge i (f.chunkIdx cfg) with before | this
    · exact .inl before
    · exact .inr ⟨by omega, .inl pc⟩
  · cases loop
  · cases loop

/-- Before it writes, a call has not begun its chunk. -/
theorem begun_before {f : AddFrame} {pc : AddPc} (set : pc ≠ .set) (writing : ∀ pos, pc ≠ .writing pos) {i : Nat}
    (begun : Begun cfg { f with pc := pc } i) : Begun cfg f i := by
  rcases begun with before | ⟨-, here | ⟨pos, here⟩⟩
  · exact .inl before
  · exact absurd here set
  · exact absurd here (writing pos)

theorem addStep_unhindered {c : AddChoice} {s : Cas} {f : AddFrame}
    (enabled : f.pc = .start ∨ f.pc = .loop → s.diskCachedUsageExceeded = false)
    (unfailing : ∀ written, c.write ≠ .finish (.failed written)) :
    (∃ f', (addStep cfg c s f).2 = .inl f' ∧ WritesPart cfg s f (addStep cfg c s f).1 f') ∨
      WritesNothing cfg s f (addStep cfg c s f).1 (addStep cfg c s f).2 := by
  have taken := addStep_taken cfg c s f
  generalize (addStep cfg c s f).1 = s', (addStep cfg c s f).2 = out at taken
  cases taken with
  | skipWrite pc _ exceeded =>
    rw [enabled (.inr pc)] at exceeded
    cases exceeded
  | dirFailed _ failed | writeFailed _ failed => exact absurd failed (unfailing _)
  | noDir pc | toDir pc | dir pc | toWrite pc =>
    refine .inr ⟨rfl, by simp [pc], ?_⟩
    rintro _ ⟨⟩ i begun
    exact begun_before (by simp) (by simp) begun
  | noParent pc | refused pc | indexRefused pc | indexed pc => exact .inr ⟨rfl, by simp [pc], nofun⟩
  | written at_file whole =>
    refine .inl ⟨_, rfl, _, _, _, at_file, c.write.data_prefix _, rfl, .inl ⟨rfl, ?_⟩⟩
    rw [whole, WriteStep.data]
  | writePart at_file => exact .inl ⟨_, rfl, _, _, _, at_file, c.write.data_prefix _, rfl, .inr rfl⟩
  | known pc | offered pc =>
    refine .inr ⟨rfl, by simp [pc], ?_⟩
    rintro _ ⟨⟩ i begun
    exact begun_next pc begun

theorem addStep_ended {c : AddChoice} {s : Cas} {f : AddFrame} (ended : (addStep cfg c s f).2 = .inr (.ok ())) :
    f.content.length ≤ f.offset := by
  have taken := addStep_taken cfg c s f
  rw [ended] at taken
  generalize (addStep cfg c s f).1 = s' at taken
  cases taken with
  | indexed _ done => exact done

/-- A store writes only its own files. -/
theorem addStep_files_other {c : AddChoice} {s : Cas} {f : AddFrame} (other : hash ≠ f.hash) (key : String) :
    (addStep cfg c s f).1.files hash key = s.files hash key := by
  have taken := addStep_taken cfg c s f
  generalize (addStep cfg c s f).1 = s', (addStep cfg c s f).2 = out at taken
  cases taken with
  | written | writeFailed | writePart => exact Cas.setFile_other _ _ fun same => other (Prod.mk.inj same).1
  | _ => rfl

/-! ## The calls together -/

/-- A call is in the middle of writing chunk `i` of the object. -/
structure WritingAt (cfg : Config) (hash : String) (i pos : Nat) (f : AddFrame) : Prop where
  hash_eq : f.hash = hash
  chunk : f.chunkIdx cfg = i
  pc : f.pc = .writing pos

/-- The chunk file is whole, or the call that is to make it whole is under way. -/
structure Mended (cfg : Config) (content : String → Bytes) (hash : String) (p : System) (i : Nat) (file : Bytes) :
    Prop where
  short : file.length ≤ (page cfg.pageSizeBytes i (content hash)).length
  bytes : file = page cfg.pageSizeBytes i (content hash) ∨
    ∃ (t : Nat) (f : AddFrame) (pos : Nat), p.threads[t]? = some (.add f none) ∧ WritingAt cfg hash i pos f ∧
      pos ≤ (page cfg.pageSizeBytes i (content hash)).length ∧ Right (page cfg.pageSizeBytes i (content hash)) file pos

/-- The chunk has a file, which is mended. -/
def HasMended (cfg : Config) (content : String → Bytes) (hash : String) (p : System) (i : Nat) : Prop :=
  ∃ file, p.shared.files hash (chunkKey hash i) = some file ∧ Mended cfg content hash p i file

/-- A step that leaves the file, and the calls that write it, as they are. -/
theorem HasMended.of_same {p p' : System} {i : Nat} (h : HasMended cfg content hash p i)
    (files : p'.shared.files hash (chunkKey hash i) = p.shared.files hash (chunkKey hash i))
    (writers : ∀ (t : Nat) (f : AddFrame) (pos : Nat), p.threads[t]? = some (.add f none) → WritingAt cfg hash i pos f →
      p'.threads[t]? = some (.add f none)) : HasMended cfg content hash p' i := by
  obtain ⟨file, found, short, bytes⟩ := h
  refine ⟨file, files.trans found, short, bytes.imp_right ?_⟩
  rintro ⟨t, f, pos, here, writes, within, right⟩
  exact ⟨t, f, pos, writers t f pos here writes, writes, within, right⟩

/-- A store is at a page boundary, and inside the page that it writes. -/
structure Placed (cfg : Config) (content : String → Bytes) (f : AddFrame) : Prop extends Storing cfg content f where
  within : ∀ pos, f.pc = .writing pos → pos ≤ (f.chunk cfg).length

/-- What is known of the calls: each store has its place, has ended only at the end of the object, and the chunks
of the object that a call has begun are mended, unless the call has failed. -/
structure Repairing (cfg : Config) (content : String → Bytes) (hash : String) (p : System) : Prop where
  placed : ∀ (t : Nat) (f : AddFrame) result, p.threads[t]? = some (.add f result) → Placed cfg content f
  ended : ∀ (t : Nat) (f : AddFrame), p.threads[t]? = some (.add f (some (.ok ()))) → f.content.length ≤ f.offset
  begun : ∀ (t : Nat) (f : AddFrame) result, p.threads[t]? = some (.add f result) → f.hash = hash →
    (∀ e, result ≠ some (.error e)) → ∀ i, Begun cfg f i → HasMended cfg content hash p i

/-- The actions of a run in which no store of the object finds the usage flag set, or a disk access of it fails. -/
structure Unhindered (content : String → Bytes) (hash : String) (p : System) (a : Act) : Prop where
  calls : CallSteps content p a
  disk : ∀ t c f, a = .move t c → p.threads[t]? = some (.add f none) → f.hash = hash →
    (f.pc = .start ∨ f.pc = .loop → p.shared.diskCachedUsageExceeded = false) ∧
      ∀ written, c.write ≠ .finish (.failed written)

theorem AtFile.pos_le {s : Cas} {f : AddFrame} {file : Bytes} {pos : Nat} (h : Placed cfg content f)
    (at_file : AtFile cfg s f file pos) : pos ≤ (f.chunk cfg).length := by
  cases at_file with
  | truncated => exact Nat.zero_le _
  | resumed pc => exact h.within pos pc

theorem Placed.step {c : AddChoice} {s : Cas} {f f' : AddFrame} (h : Placed cfg content f)
    (next : (addStep cfg c s f).2 = .inl f') : Placed cfg content f' := by
  refine ⟨h.toStoring.step next, fun pos pc => ?_⟩
  have taken := addStep_taken cfg c s f
  rw [next] at taken
  generalize (addStep cfg c s f).1 = s' at taken
  cases taken with
  | writePart at_file =>
    have inside := at_file.pos_le h
    cases pc
    exact part_length_le (c.write.data_prefix _) inside
  | _ => cases pc

/-- The calls after one of them has moved. -/
theorem threads_set {p : System} {t t' : Nat} {moved other : Thread}
    (found : (p.threads.set t moved)[t']? = some other) :
    t' = t ∧ other = moved ∨ t' ≠ t ∧ p.threads[t']? = some other := by
  rw [List.getElem?_set] at found
  split at found
  · rename_i same
    split at found
    · cases found
      exact .inl ⟨same.symm, rfl⟩
    · cases found
  · rename_i different
    exact .inr ⟨Ne.symm different, found⟩

/-- A step that writes mends its chunk. A call that finds its file right so far, because it has truncated it last,
carries on; what another call leaves there is in its place. -/
theorem Repairing.mends {p : System} {t : Nat} {f f' : AddFrame} {s' : Cas} (h : Repairing cfg content hash p)
    (here : p.threads[t]? = some (.add f none)) (own : f.hash = hash) (part : WritesPart cfg p.shared f s' f') :
    HasMended cfg content hash ⟨s', p.threads.set t (.add f' none)⟩ (f.chunkIdx cfg) := by
  obtain ⟨file, pos, data, at_file, part, rfl, next⟩ := part
  have placed := h.placed t f none here
  have inside := at_file.pos_le placed
  obtain ⟨inThreads, -⟩ := List.getElem?_eq_some_iff.mp here
  subst own
  rw [placed.chunk] at part inside next
  -- what the call finds: a file that it has right so far, a whole one, or another call's
  have found : file.length ≤ (page cfg.pageSizeBytes (f.chunkIdx cfg) (content f.hash)).length ∧
      (Right (page cfg.pageSizeBytes (f.chunkIdx cfg) (content f.hash)) file pos ∨
        Mended cfg content f.hash ⟨p.shared, p.threads.set t (.add f' none)⟩ (f.chunkIdx cfg) file) := by
    cases at_file with
    | truncated => exact ⟨Nat.zero_le _, .inl fun j before => absurd before (Nat.not_lt_zero j)⟩
    | resumed pc =>
      obtain ⟨file, found, mended⟩ := h.begun t f none here rfl nofun (f.chunkIdx cfg)
        (.inr ⟨rfl, .inr ⟨_, pc⟩⟩)
      rw [AddFrame.chunkKey, found, Option.getD_some]
      refine ⟨mended.short, ?_⟩
      rcases mended.bytes with whole | ⟨t', g, pos', there, writes, within, right⟩
      · exact .inr ⟨mended.short, .inl whole⟩
      · by_cases same : t' = t
        · subst same
          rw [here] at there
          cases there
          cases pc.symm.trans writes.pc
          exact .inl right
        · refine .inr ⟨mended.short, .inr ⟨t', g, pos', ?_, writes, within, right⟩⟩
          rw [List.getElem?_set_ne (Ne.symm same)]
          exact there
  obtain ⟨short, found⟩ := found
  refine ⟨_, Cas.setFile_self _ _ _ _, writeAt_length_le short (part_length_le part inside), ?_⟩
  rcases found with right | ⟨-, whole | ⟨t', g, pos', there, writes, within, right⟩⟩
  · rcases next with ⟨rfl, rest⟩ | rfl
    · left
      refine (right_whole_iff (writeAt_length_le short (part_length_le part inside))).mp ?_
      have whole : pos + data.length = (page cfg.pageSizeBytes (f.chunkIdx cfg) (content f.hash)).length := by
        rw [rest, List.length_drop]
        omega
      rw [← whole]
      exact right.append inside part
    · refine .inr ⟨t, _, _, List.getElem?_set_self inThreads, ⟨rfl, rfl, rfl⟩, part_length_le part inside, ?_⟩
      exact right.append inside part
  · left
    refine (right_whole_iff (writeAt_length_le short (part_length_le part inside))).mp ?_
    exact ((right_whole_iff short).mpr whole).write (Nat.le_refl _) part
  · exact .inr ⟨t', g, pos', there, writes, within, right.write within part⟩

/-- A call moves that is not in the middle of writing the chunk, and leaves its file alone. -/
theorem HasMended.moved {p : System} {s' : Cas} {t i : Nat} {thread : Thread} (h : HasMended cfg content hash p i)
    (files : s'.files hash (chunkKey hash i) = p.shared.files hash (chunkKey hash i))
    (idle : ∀ f pos, p.threads[t]? = some (.add f none) → ¬ WritingAt cfg hash i pos f) :
    HasMended cfg content hash ⟨s', p.threads.set t thread⟩ i := by
  refine h.of_same files fun t' f pos here writes => ?_
  have different : t ≠ t' := by
    rintro rfl
    exact idle f pos here writes
  rw [List.getElem?_set_ne different]
  exact here

/-- A call moves: what holds of it afterwards, and that the chunks stay mended. -/
theorem Repairing.of_moved {p : System} {s' : Cas} {t : Nat} {thread : Thread} (h : Repairing cfg content hash p)
    (placed : ∀ f result, thread = .add f result → Placed cfg content f)
    (ended : ∀ f, thread = .add f (some (.ok ())) → f.content.length ≤ f.offset)
    (kept : ∀ i, HasMended cfg content hash p i → HasMended cfg content hash ⟨s', p.threads.set t thread⟩ i)
    (begun : ∀ f result, thread = .add f result → f.hash = hash → (∀ e, result ≠ some (.error e)) → ∀ i,
      Begun cfg f i → HasMended cfg content hash ⟨s', p.threads.set t thread⟩ i) :
    Repairing cfg content hash ⟨s', p.threads.set t thread⟩ := by
  refine ⟨fun t' f result found => ?_, fun t' f found => ?_, fun t' f result found own fine i started => ?_⟩
  · rcases threads_set found with ⟨-, same⟩ | ⟨-, before⟩
    · exact placed f result same.symm
    · exact h.placed t' f result before
  · rcases threads_set found with ⟨-, same⟩ | ⟨-, before⟩
    · exact ended f same.symm
    · exact h.ended t' f before
  · rcases threads_set found with ⟨-, same⟩ | ⟨-, before⟩
    · exact begun f result same.symm own fine i started
    · exact kept i (h.begun t' f result before own fine i started)

theorem Repairing.add_other {p : System} {t : Nat} {f : AddFrame} (h : Repairing cfg content hash p)
    (here : p.threads[t]? = some (.add f none)) (other : f.hash ≠ hash) (c : AddChoice) :
    Repairing cfg content hash
      ⟨(addStep cfg c p.shared f).1, p.threads.set t (.ofAdd f (addStep cfg c p.shared f).2)⟩ := by
  have kept (i : Nat) (mended : HasMended cfg content hash p i) : HasMended cfg content hash
      ⟨(addStep cfg c p.shared f).1, p.threads.set t (.ofAdd f (addStep cfg c p.shared f).2)⟩ i := by
    refine mended.moved (addStep_files_other (Ne.symm other) _) fun g pos found writes => ?_
    rw [here] at found
    cases found
    exact other writes.hash_eq
  cases out : (addStep cfg c p.shared f).2 with
  | inl f' =>
    rw [out] at kept
    refine h.of_moved ?_ nofun kept ?_
    · rintro _ _ ⟨⟩
      exact (h.placed t f none here).step out
    · rintro _ _ ⟨⟩ own
      exact absurd ((addStep_hash out).symm.trans own) other
  | inr r =>
    rw [out] at kept
    refine h.of_moved ?_ ?_ kept ?_
    · rintro _ _ ⟨⟩
      exact h.placed t f none here
    · rintro _ ⟨⟩
      exact addStep_ended out
    · rintro _ _ ⟨⟩ own
      exact absurd own other

theorem Repairing.add_own {p : System} {t : Nat} {f : AddFrame} {c : AddChoice} (h : Repairing cfg content hash p)
    (here : p.threads[t]? = some (.add f none)) (own : f.hash = hash)
    (enabled : f.pc = .start ∨ f.pc = .loop → p.shared.diskCachedUsageExceeded = false)
    (unfailing : ∀ written, c.write ≠ .finish (.failed written)) :
    Repairing cfg content hash
      ⟨(addStep cfg c p.shared f).1, p.threads.set t (.ofAdd f (addStep cfg c p.shared f).2)⟩ := by
  have placed := h.placed t f none here
  have begun := h.begun t f none here own nofun
  have step : (∃ f', (addStep cfg c p.shared f).2 = .inl f' ∧ WritesPart cfg p.shared f (addStep cfg c p.shared f).1 f') ∨
      WritesNothing cfg p.shared f (addStep cfg c p.shared f).1 (addStep cfg c p.shared f).2 :=
    addStep_unhindered enabled unfailing
  rcases step with ⟨f', next, part⟩ | nothing
  · rw [next]
    have mends := h.mends here own part
    have kept (i : Nat) (mended : HasMended cfg content hash p i) :
        HasMended cfg content hash ⟨(addStep cfg c p.shared f).1, p.threads.set t (.add f' none)⟩ i := by
      by_cases same : i = f.chunkIdx cfg
      · rw [same]
        exact mends
      obtain ⟨file, pos, data, -, -, written, -⟩ := part
      refine mended.moved ?_ fun g pos found writes => ?_
      · rw [written]
        refine Cas.setFile_other _ _ fun pair => same ?_
        have keys : chunkKey hash i = chunkKey f.hash (f.chunkIdx cfg) := (Prod.mk.inj pair).2
        rw [own] at keys
        exact Int.ofNat_inj.mp (chunkKey_injective hash keys)
      · rw [here] at found
        cases found
        exact same writes.chunk.symm
    have frame : f'.hash = f.hash ∧ f'.chunkIdx cfg = f.chunkIdx cfg := by
      obtain ⟨file, pos, data, -, -, -, ⟨rfl, -⟩ | rfl⟩ := part
      · exact ⟨rfl, rfl⟩
      · exact ⟨rfl, rfl⟩
    refine h.of_moved ?_ nofun kept ?_
    · rintro _ _ ⟨⟩
      exact placed.step next
    · rintro _ _ ⟨⟩ - - i (before | ⟨this, -⟩)
      · exact kept i (begun i (.inl (frame.2 ▸ before)))
      · rw [this, frame.2]
        exact mends
  · have kept (i : Nat) (mended : HasMended cfg content hash p i) : HasMended cfg content hash
        ⟨(addStep cfg c p.shared f).1, p.threads.set t (.ofAdd f (addStep cfg c p.shared f).2)⟩ i := by
      refine mended.moved (by rw [nothing.files]) fun g pos found writes => ?_
      rw [here] at found
      cases found
      exact nothing.not_writing pos writes.pc
    cases out : (addStep cfg c p.shared f).2 with
    | inl f' =>
      rw [out] at kept
      refine h.of_moved ?_ nofun kept ?_
      · rintro _ _ ⟨⟩
        exact placed.step out
      · rintro _ _ ⟨⟩ - - i started
        exact kept i (begun i (nothing.begun f' out i started))
    | inr r =>
      rw [out] at kept
      refine h.of_moved ?_ ?_ kept ?_
      · rintro _ _ ⟨⟩
        exact placed
      · rintro _ ⟨⟩
        exact addStep_ended out
      · rintro _ _ ⟨⟩ - - i started
        exact kept i (begun i started)

theorem Repairing.env {p : System} (h : Repairing cfg content hash p) (e : EnvStep) :
    Repairing cfg content hash ⟨p.shared.env e, p.threads⟩ := by
  refine ⟨h.placed, h.ended, fun t f result found own fine i started => ?_⟩
  refine (h.begun t f result found own fine i started).of_same ?_ fun _ _ _ here _ => here
  rw [(p.shared.env_disk e).2]

theorem Repairing.spawn {p : System} {thread : Thread} (h : Repairing cfg content hash p) (starts : Starts content thread) :
    Repairing cfg content hash ⟨p.shared, p.threads ++ [thread]⟩ := by
  have place {t : Nat} {other : Thread} (found : (p.threads ++ [thread])[t]? = some other) :
      p.threads[t]? = some other ∨ other = thread := by
    rcases Nat.lt_or_ge t p.threads.length with old | new
    · rw [List.getElem?_append_left old] at found
      exact .inl found
    · rw [List.getElem?_append_right new] at found
      exact .inr (List.mem_singleton.mp (List.mem_of_getElem? found))
  have started (f : AddFrame) (result : Option (Except AddError Unit)) (new : Thread.add f result = thread) :
      Placed cfg content f ∧ result = none ∧ ∀ i, ¬ Begun cfg f i := by
    subst new
    cases starts with
    | add plain =>
      refine ⟨⟨Storing.start plain.separators, nofun⟩, rfl, ?_⟩
      rintro i (before | ⟨-, set | ⟨_, writing⟩⟩)
      · rw [AddFrame.chunkIdx, AddFrame.start, Nat.zero_div] at before
        exact Nat.not_lt_zero i before
      · cases set
      · cases writing
  refine ⟨fun t f result found => ?_, fun t f found => ?_, fun t f result found own fine i begun => ?_⟩
  · rcases place found with old | new
    · exact h.placed t f result old
    · exact (started f result new).1
  · rcases place found with old | new
    · exact h.ended t f old
    · cases (started f _ new).2.1
  · rcases place found with old | new
    · refine (h.begun t f result old own fine i begun).of_same rfl fun t' g pos here _ => ?_
      obtain ⟨inside, -⟩ := List.getElem?_eq_some_iff.mp here
      exact (List.getElem?_append_left inside).trans here
    · exact absurd begun ((started f result new).2.2 i)

/-- A call of `Get`, or one that has returned, moves. -/
theorem Repairing.move_other {p : System} {t : Nat} {thread : Thread} (h : Repairing cfg content hash p)
    (here : p.threads[t]? = some thread) (other : ∀ f, thread ≠ .add f none) (c : AddChoice) :
    Repairing cfg content hash ⟨(move cfg c p.shared thread).1, p.threads.set t (move cfg c p.shared thread).2⟩ := by
  have idle (i : Nat) (f : AddFrame) (pos : Nat) (found : p.threads[t]? = some (.add f none)) :
      ¬ WritingAt cfg hash i pos f := by
    rw [here] at found
    cases found
    exact absurd rfl (other f)
  cases thread with
  | add f result =>
    cases result with
    | none => exact absurd rfl (other f)
    | some r =>
      refine h.of_moved ?_ ?_ (fun i mended => mended.moved rfl (idle i)) ?_
      · rintro _ _ ⟨⟩
        exact h.placed t f _ here
      · rintro _ ⟨⟩
        exact h.ended t f here
      · rintro _ _ ⟨⟩ own fine i begun
        exact (h.begun t f _ here own fine i begun).moved rfl (idle i)
  | get call f result =>
    cases result with
    | none =>
      refine h.of_moved nofun nofun (fun i mended => mended.moved ?_ (idle i)) nofun
      exact congrFun (congrFun (getStep_disk cfg c.setRefused p.shared f).2 hash) _
    | some r => exact h.of_moved nofun nofun (fun i mended => mended.moved rfl (idle i)) nofun

theorem Repairing.step {p : System} {a : Act} (h : Repairing cfg content hash p)
    (unhindered : Unhindered content hash p a) : Repairing cfg content hash (System.step cfg a p) := by
  cases a with
  | env e => exact h.env e
  | spawn thread => exact h.spawn unhindered.calls
  | move t c =>
    simp only [System.step, Pool.step]
    cases here : p.threads[t]? with
    | none => exact h
    | some thread =>
      by_cases store : ∃ f, thread = .add f none
      · obtain ⟨f, rfl⟩ := store
        by_cases own : f.hash = hash
        · obtain ⟨enabled, unfailing⟩ := unhindered.disk t c f rfl here own
          exact h.add_own here own enabled unfailing
        · exact h.add_other here own c
      · exact h.move_other here (fun f same => store ⟨f, same⟩) c

/-- **Concurrent stores leave the object whole.** Whatever the files held, and whatever other calls do: when a store
of the object has succeeded and none is under way, every chunk of it is on disk as it should be, provided that no
store of the object has found the usage flag set and no disk access of one has failed. -/
theorem concurrent_stores_leave_whole {s : Cas} {p : System}
    (run : Trace (System.step cfg) (Unhindered content hash) ⟨s, []⟩ p)
    (stored : ∃ f, Thread.add f (some (.ok ())) ∈ p.threads ∧ f.hash = hash)
    (none_left : ∀ f, Thread.add f none ∈ p.threads → f.hash ≠ hash) : OnDisk cfg content hash p.shared := by
  have repairing : Repairing cfg content hash p := by
    refine run.invariant (I := Repairing cfg content hash) (fun _ _ h unhindered => h.step unhindered) ?_
    exact ⟨nofun, nofun, nofun⟩
  obtain ⟨f, member, own⟩ := stored
  obtain ⟨t, here⟩ := List.mem_iff_getElem?.mp member
  have placed := repairing.placed t f _ here
  have ended := repairing.ended t f here
  intro i inside
  have begun : Begun cfg f i := by
    left
    rw [placed.object, placed.aligned, own] at ended
    exact Nat.lt_of_mul_lt_mul_right (Nat.lt_of_lt_of_le inside ended)
  obtain ⟨file, found, short, whole | ⟨t', g, pos, there, writes, -⟩⟩ := repairing.begun t f _ here own nofun i begun
  · rw [found, whole]
  · exact absurd writes.hash_eq (none_left g (List.mem_of_getElem? there))

/-- Two stores of two bytes, one page. The second truncates the file when the first has written one byte, and the
first goes on behind a gap. -/
def leavesGap : List Act :=
  [.spawn (.startAdd "a" [7, 8]), .spawn (.startAdd "a" [7, 8])] ++ List.replicate 3 (.move 0 ⟨.finish .ok, false, ""⟩) ++
    [.move 0 ⟨.part 1, false, ""⟩] ++ List.replicate 3 (.move 1 ⟨.finish .ok, false, ""⟩) ++
    [.move 1 ⟨.part 0, false, ""⟩, .move 0 ⟨.finish .ok, false, ""⟩]

/-- Both stores go on to their ends. -/
def closesGap : List Act :=
  [.move 1 ⟨.finish .ok, false, ""⟩, .move 0 ⟨.finish .ok, false, ""⟩, .move 0 ⟨.finish .ok, false, ""⟩,
    .move 1 ⟨.finish .ok, false, ""⟩, .move 1 ⟨.finish .ok, false, ""⟩]

theorem concurrent_stores_leave_whole_gap :
    (after (System.step twoBytePages) leavesGap System.start).shared.files "a" (chunkKey "a" 0) = some [0, 8] ∧
      OnDisk twoBytePages (fun _ => [7, 8]) "a"
        (after (System.step twoBytePages) (leavesGap ++ closesGap) System.start).shared := by
  have run : Trace (System.step twoBytePages) (Unhindered (fun _ => [7, 8]) "a") System.start
      (after (System.step twoBytePages) (leavesGap ++ closesGap) System.start) := by
    refine Trace.of_list (leavesGap ++ closesGap) System.start fun k => ?_
    have flag : ∀ k : Fin (leavesGap ++ closesGap).length, (after (System.step twoBytePages)
        ((leavesGap ++ closesGap).take k) System.start).shared.diskCachedUsageExceeded = false := by decide
    have acts : ∀ a ∈ leavesGap ++ closesGap, a = .spawn (.startAdd "a" [7, 8]) ∨
        ∃ t ∈ [0, 1], ∃ w ∈ [WriteStep.finish .ok, .part 0, .part 1], a = .move t ⟨w, false, ""⟩ := by
      simp [leavesGap, closesGap]
    rcases acts _ (List.get_mem (leavesGap ++ closesGap) k) with same | ⟨t, -, w, kind, same⟩
    · rw [same]
      exact ⟨Starts.add (by decide), nofun⟩
    · rw [same]
      refine ⟨trivial, fun t c f moved _ _ => ?_⟩
      cases moved
      refine ⟨fun _ => flag k, fun written failed => ?_⟩
      simp only at failed
      simp [failed] at kind
  have threads : (after (System.step twoBytePages) (leavesGap ++ closesGap) System.start).threads =
      List.replicate 2 (.add ⟨"a", [7, 8], 2, [chunkKey "a" 0], .loop⟩ (some (.ok ()))) := by decide
  refine ⟨by decide, concurrent_stores_leave_whole run ?_ fun f member => ?_⟩
  · rw [threads]
    exact ⟨_, List.mem_cons_self, rfl⟩
  · rw [threads] at member
    cases List.eq_of_mem_replicate member

end Blobcache.Storage
