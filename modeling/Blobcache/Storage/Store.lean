import Blobcache.Storage.Add

/-!
# The rule of stores

The calls of `Add` store `content hash` under `hash`, as the server does when no two
contents have the same digest. The frame of such a call stands at a page boundary and the
chunk in hand is a page of the object (`Storing`). `add_call` is the rule for a whole call
whose file writes nobody observes half done: what one step keeps, the call keeps, and it
returns.
-/

namespace Blobcache.Storage
set_option autoImplicit false
open Execution Paging

/-- The frame of a store of the object `content hash`. -/
structure Storing (cfg : Config) (content : String → Bytes) (f : AddFrame) : Prop where
  plain : NoSeparators f.hash
  object : f.content = content f.hash
  aligned : f.offset = f.chunkIdx cfg * cfg.pageSizeBytes
  inside : f.pc.inChunk = true → f.offset < f.content.length

variable {cfg : Config} {content : String → Bytes}

theorem Storing.start {hash : String} (plain : NoSeparators hash) :
    Storing cfg content (AddFrame.start hash (content hash)) :=
  ⟨plain, rfl, by simp [AddFrame.start, AddFrame.chunkIdx], fun pc => by cases pc⟩

/-- The chunk at an aligned offset is a page of the content. -/
theorem Storing.chunk {f : AddFrame} (h : Storing cfg content f) :
    f.chunk cfg = page cfg.pageSizeBytes (f.chunkIdx cfg) (content f.hash) := by
  rw [AddFrame.chunk, page, ← h.aligned, ← h.object]
  by_cases last : f.offset + cfg.pageSizeBytes ≤ f.content.length
  · rw [min_eq_left last, Nat.add_sub_cancel_left]
  · rw [min_eq_right (by omega), List.take_of_length_le (by simp), List.take_of_length_le (by simp; omega)]

theorem Storing.next {f : AddFrame} (h : Storing cfg content f) {keys : List String} :
    Storing cfg content { f with pc := .loop, offset := f.offset + cfg.pageSizeBytes, chunkKeys := keys } := by
  refine ⟨h.plain, h.object, ?_, fun pc => by cases pc⟩
  have step : (f.offset + cfg.pageSizeBytes) / cfg.pageSizeBytes = f.chunkIdx cfg + 1 :=
    Nat.add_div_right _ cfg.positive
  have aligned := h.aligned
  show f.offset + cfg.pageSizeBytes = (f.offset + cfg.pageSizeBytes) / cfg.pageSizeBytes * cfg.pageSizeBytes
  rw [step, Nat.add_mul, Nat.one_mul, ← aligned]

theorem Storing.at_file {s : Cas} {f : AddFrame} (h : Storing cfg content f) {file : Bytes} {pos : Nat}
    (at_file : AtFile cfg s f file pos) : f.offset < f.content.length := by
  cases at_file with
  | truncated pc => exact h.inside (by rw [pc]; rfl)
  | resumed pc => exact h.inside (by rw [pc]; rfl)

/-- A step of a store leaves a frame of the same store. -/
theorem Storing.step {c : AddChoice} {s : Cas} {f f' : AddFrame} (h : Storing cfg content f)
    (next : (addStep cfg c s f).2 = .inl f') : Storing cfg content f' := by
  have taken := addStep_taken cfg c s f
  rw [next] at taken
  generalize (addStep cfg c s f).1 = s' at taken
  cases taken with
  | noDir | toDir | dir => exact ⟨h.plain, h.object, h.aligned, fun pc => by cases pc⟩
  | skipWrite _ more | toWrite _ more => exact ⟨h.plain, h.object, h.aligned, fun _ => more⟩
  | written at_file | writePart at_file => exact ⟨h.plain, h.object, h.aligned, fun _ => h.at_file at_file⟩
  | known | offered => exact h.next

theorem addStep_hash {c : AddChoice} {s : Cas} {f f' : AddFrame}
    (next : (addStep cfg c s f).2 = .inl f') : f'.hash = f.hash := by
  have taken := addStep_taken cfg c s f
  rw [next] at taken
  generalize (addStep cfg c s f).1 = s' at taken
  cases taken <;> rfl

/-- Only the usage monitor changes the usage flag. -/
theorem addStep_flag (cfg : Config) (c : AddChoice) (s : Cas) (f : AddFrame) :
    (addStep cfg c s f).1.diskCachedUsageExceeded = s.diskCachedUsageExceeded := by
  have taken := addStep_taken cfg c s f
  generalize (addStep cfg c s f).1 = s', (addStep cfg c s f).2 = out at taken
  cases taken <;> rfl

/-- A write that is not interrupted leaves no call in the middle of one. -/
theorem unbroken_step {c : AddChoice} {s : Cas} {f f' : AddFrame} (finishes : ∃ result, c.write = .finish result)
    (next : (addStep cfg c s f).2 = .inl f') : ∀ pos, f'.pc ≠ .writing pos := by
  obtain ⟨result, finish⟩ := finishes
  have taken := addStep_taken cfg c s f
  rw [next] at taken
  generalize (addStep cfg c s f).1 = s' at taken
  intro pos pc
  cases taken with
  | writePart _ part => rw [part] at finish; cases finish
  | _ => cases pc

/-- The steps to come: three for each byte left, and those that belong to no chunk. -/
def AddFrame.rank (f : AddFrame) : Nat :=
  3 * (f.content.length - f.offset) + match f.pc with
    | .start => 5
    | .mkdir => 4
    | .loop => 3
    | .write => 2
    | .writing _ => 2
    | .set => 1

/-- Every step of an unbroken call comes closer to its end. -/
theorem Storing.rank_step {c : AddChoice} {s : Cas} {f f' : AddFrame} (h : Storing cfg content f)
    (finishes : ∃ result, c.write = .finish result) (unbroken : ∀ pos, f.pc ≠ .writing pos)
    (next : (addStep cfg c s f).2 = .inl f') : f'.rank < f.rank := by
  obtain ⟨result, finish⟩ := finishes
  have positive := cfg.positive
  have taken := addStep_taken cfg c s f
  rw [next] at taken
  generalize (addStep cfg c s f).1 = s' at taken
  cases taken with
  | noDir pc | toDir pc | dir pc => simp [AddFrame.rank, pc]
  | skipWrite pc | toWrite pc => simp [AddFrame.rank, pc]
  | written at_file =>
    cases at_file with
    | truncated pc => simp [AddFrame.rank, pc]
    | resumed pc => exact absurd pc (unbroken _)
  | writePart _ part => rw [part] at finish; cases finish
  | known pc | offered pc =>
    have inside := h.inside (by rw [pc]; rfl)
    simp only [AddFrame.rank, pc]
    omega

/-- What an unbroken call writes, when nothing fails, is the page. -/
theorem Storing.written {c : AddChoice} {s : Cas} {f : AddFrame} (h : Storing cfg content f)
    (unbroken : ∀ pos, f.pc ≠ .writing pos) (whole : c.write = .finish .ok) {file : Bytes} {pos : Nat}
    (at_file : AtFile cfg s f file pos) :
    writeAt file pos (c.write.data ((f.chunk cfg).drop pos)) =
      page cfg.pageSizeBytes (f.chunkIdx cfg) (content f.hash) := by
  cases at_file with
  | resumed pc => exact absurd pc (unbroken _)
  | truncated => rw [writeAt_nil, List.drop_zero, whole, WriteStep.data, h.chunk]

/-- **The whole call.** `I` links storage and frame before the `n`th step. -/
theorem add_call (I : Nat → Cas → AddFrame → Prop) (Post : Cas → Except AddError Unit → Prop)
    {sched : Nat → Around StoreChoice}
    (steps : ∀ n s f, I n s f → Storing cfg content f → (∀ pos, f.pc ≠ .writing pos) →
      let out := addStep cfg (sched n).choice.toAdd (s.envs (sched n).before) f
      (∀ f', out.2 = .inl f' → I (n + 1) out.1 f') ∧ ∀ r, out.2 = .inr r → Post out.1 r)
    {s : Cas} {hash : String} (plain : NoSeparators hash) (start : I 0 s (AddFrame.start hash (content hash))) :
    ∃ s' r, s.add cfg sched hash (content hash) = some (s', r) ∧ Post s' r := by
  have finishes n : ∃ result, (sched n).choice.toAdd.write = .finish result := ⟨_, rfl⟩
  apply drive_rule_indexed (fun n s f => I n s f ∧ Storing cfg content f ∧ ∀ pos, f.pc ≠ .writing pos) Post
    AddFrame.rank
  · rintro n s f s' f' ⟨linked, storing, unbroken⟩ taken
    have next : (addStep cfg (sched n).choice.toAdd (s.envs (sched n).before) f).2 = .inl f' := by rw [taken]
    refine ⟨⟨?_, storing.step next, unbroken_step (finishes n) next⟩, storing.rank_step (finishes n) unbroken next⟩
    have keeps := (steps n s f linked storing unbroken).1 f' next
    rwa [taken] at keeps
  · rintro n s f s' r ⟨linked, storing, unbroken⟩ taken
    have post := (steps n s f linked storing unbroken).2 r (by rw [taken])
    rwa [taken] at post
  · simp only [AddFrame.rank, AddFrame.start]
    omega
  · exact ⟨start, Storing.start plain, fun _ pc => by cases pc⟩

/-- Every call of `Add` returns. -/
theorem add_returns {hash : String} (plain : NoSeparators hash) (cfg : Config) (sched : Nat → Around StoreChoice)
    (s : Cas) (bytes : Bytes) : ∃ s' r, s.add cfg sched hash bytes = some (s', r) := by
  have steps (n : Nat) (s : Cas) (f : AddFrame) (_ : True) (_ : Storing cfg (fun _ => bytes) f)
      (_ : ∀ pos, f.pc ≠ .writing pos) :
      let out := addStep cfg (sched n).choice.toAdd (s.envs (sched n).before) f
      (∀ f', out.2 = .inl f' → True) ∧ ∀ r, out.2 = .inr r → True := ⟨fun _ _ => trivial, fun _ _ => trivial⟩
  obtain ⟨s', r, returned, -⟩ := add_call (fun _ _ _ => True) (fun _ _ => True) steps plain trivial
  exact ⟨s', r, returned⟩

end Blobcache.Storage
