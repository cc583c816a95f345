import Blobcache.Storage.Prefetcher

/-!
# Detecting sequential reads

An object is read from front to back, every read beginning where the one before it ended. The state
that `OnRead` keeps of the object should say so after two reads: the comment at the threshold has
"detect sequential after 2 adjacent reads". Between the reads the rest of the prefetcher goes on; only
its cleanup does not run, and nobody else reads the object.

Every read but the first records where it ends. The first read of an object without a state records
where it begins, so that the second one seems to leave a gap as long as the first.
-/

namespace Blobcache.Storage.Prefetcher
set_option autoImplicit false
open Execution Int64Arith

/-- What may happen between two reads of the object. -/
def Quiet (hash : String) (pf : Prefetcher) : Act → Prop
  | .clientRead r => r.hash ≠ hash
  | .worker k _ present => ∀ task ∈ pf.held k, task.hash = hash → present = false
  | .cleanup => False
  | _ => True

/-- Reads of these lengths, the first one at `offset` and every other one where the one before it ended, lead
from the first state to the second. -/
inductive Fed (hash : String) : Prefetcher → Int → List Int → Prefetcher → Prop where
  | done (pf : Prefetcher) (offset : Int) : Fed hash pf offset [] pf
  | read {pf before last : Prefetcher} {offset length : Int} {lengths : List Int}
      (between : Trace step (Quiet hash) pf before)
      (rest : Fed hash (before.onRead hash offset length) (offset + length) lengths last) :
      Fed hash pf offset (length :: lengths) last

/-- Where reads of these lengths end. -/
def readsEnd (offset : Int) (lengths : List Int) : Int := lengths.foldl (· + ·) offset

/-- The object is being read from front to back, the last time up to `stop`. -/
def Detected (pf : Prefetcher) (hash : String) (stop : Int) : Prop :=
  ∃ state, pf.states hash = some state ∧ state.sequential = true ∧ state.lastOffset = stop

/-! ## What the steps record -/

/-- What the state of a hash says of the reads. -/
def noted (pf : Prefetcher) (hash : String) : Option (Int × Bool) :=
  (pf.states hash).map fun state => (state.lastOffset, state.sequential)

theorem detected_iff (pf : Prefetcher) (hash : String) (stop : Int) :
    pf.Detected hash stop ↔ pf.noted hash = some (stop, true) := by
  simp only [Detected, noted, Option.map_eq_some_iff, Prod.mk.injEq, and_comm]

theorem modify_other {pf : Prefetcher} {hash other : String} (differs : other ≠ hash)
    (f : PrefetchState → PrefetchState) : (pf.modify other f).states hash = pf.states hash :=
  Function.update_of_ne (Ne.symm differs) _ _

/-- An assignment to other fields. -/
theorem noted_modify {pf : Prefetcher} {hash : String} (other : String) {f : PrefetchState → PrefetchState}
    (keeps : ∀ state, (f state).lastOffset = state.lastOffset ∧ (f state).sequential = state.sequential) :
    (pf.modify other f).noted hash = pf.noted hash := by
  by_cases same : other = hash
  · subst same
    simp only [noted, modify, Function.update_self, Option.map_map]
    congr 1
    funext state
    exact Prod.ext (keeps state).1 (keeps state).2
  · rw [noted, modify_other same, noted]

theorem noted_startPrefetch (pf : Prefetcher) (hash other : String) (startOffset : Int) :
    (pf.startPrefetch other startOffset).noted hash = pf.noted hash := by
  unfold startPrefetch
  split
  · rfl
  · split
    · rfl
    · exact noted_modify other fun _ => ⟨rfl, rfl⟩

/-- The middle of `OnRead` stores whether the read is sequential. -/
theorem noted_detect {pf : Prefetcher} {hash : String} {state : PrefetchState} (found : pf.states hash = some state)
    (offset length : Int) :
    (pf.detect hash state offset length).noted hash = some (state.lastOffset, isSequential state offset) := by
  unfold detect
  cases seq : isSequential state offset with
  | false => simp [noted, modify_found found]
  | true =>
    cases before : state.sequential with
    | false =>
      refine (noted_startPrefetch _ hash hash _).trans ?_
      simp [noted, modify_found found]
    | true =>
      have unchanged : pf.noted hash = some (state.lastOffset, true) := by simp [noted, found, before]
      cases state.prefetching with
      | false => exact (noted_startPrefetch pf hash hash _).trans unchanged
      | true => exact unchanged

theorem noted_onRead_new {pf : Prefetcher} {hash : String} (unknown : pf.noted hash = none) (offset length : Int) :
    (pf.onRead hash offset length).noted hash = some (offset, false) := by
  have none : pf.states hash = none := Option.map_eq_none_iff.mp unknown
  simp [onRead, none, noted]

/-- **A read** of an object with a state records where it ends, and whether it begins close to the offset
that was recorded before. -/
theorem noted_onRead {pf : Prefetcher} {hash : String} {last : Int} {seq : Bool}
    (known : pf.noted hash = some (last, seq)) (offset length : Int) :
    (pf.onRead hash offset length).noted hash = some (wrap (offset + length),
      decide (last ≤ offset) && decide (wrap (offset - last) ≤ prefetchThresholdBytes)) := by
  obtain ⟨state, found, same⟩ := Option.map_eq_some_iff.mp known
  obtain ⟨rfl, -⟩ := Prod.mk.inj same
  obtain ⟨state', found', same'⟩ := Option.map_eq_some_iff.mp (noted_detect found offset length)
  obtain ⟨-, seq'⟩ := Prod.mk.inj same'
  simp only [onRead, found, noted, modify_found found', Option.map_some, seq', isSequential]

theorem onRead_other {pf : Prefetcher} {hash other : String} (differs : other ≠ hash) (offset length : Int) :
    (pf.onRead other offset length).noted hash = pf.noted hash := by
  have modified (pf : Prefetcher) (f : PrefetchState → PrefetchState) :
      (pf.modify other f).noted hash = pf.noted hash := by
    rw [noted, modify_other differs, noted]
  unfold onRead
  split
  · simp [noted, Function.update_of_ne (Ne.symm differs)]
  · rw [modified, detect]
    split
    · rw [noted_startPrefetch, modified]
    · split
      · rw [noted_startPrefetch]
      · split
        · rw [modified]
        · rfl

theorem noted_produce (pf : Prefetcher) (hash : String) (k : Nat) (sees : Bool) :
    (pf.produce k sees).noted hash = pf.noted hash := by
  unfold produce
  split
  · rfl
  · rename_i p found
    dsimp only
    split
    · split
      · split
        · rfl
        · split <;> rfl
      · rfl
    · exact noted_modify p.hash fun _ => ⟨rfl, rfl⟩

theorem noted_worker {pf : Prefetcher} {hash : String} {k : Nat} {sees present : Bool}
    (quiet : ∀ task ∈ pf.held k, task.hash = hash → present = false) :
    (pf.worker k sees present).noted hash = pf.noted hash := by
  unfold held at quiet
  unfold worker
  split
  · rfl
  · rfl
  · split
    · rfl
    · split <;> rfl
  · rename_i task found
    simp only [found, Option.mem_def, Option.some.injEq, forall_eq'] at quiet
    dsimp only
    split
    · rename_i read
      exact onRead_other (fun same => absurd read (by rw [quiet same]; decide)) task.offset task.length
    · rfl

/-- The rest of the prefetcher leaves what is recorded of the object. -/
theorem noted_step {pf : Prefetcher} {hash : String} {a : Act} (quiet : Quiet hash pf a) :
    (step a pf).noted hash = pf.noted hash := by
  cases a with
  | clientRead r => exact onRead_other quiet r.offset r.length
  | producer k sees => exact noted_produce pf hash k sees
  | worker k sees present => exact noted_worker quiet
  | cleanup => exact quiet.elim
  | tick duration => rfl
  | cancel => rfl

theorem noted_between {pf before : Prefetcher} {hash : String} (between : Trace step (Quiet hash) pf before) :
    before.noted hash = pf.noted hash :=
  between.invariant (I := fun t => t.noted hash = pf.noted hash)
    (fun _ _ kept quiet => (noted_step quiet).trans kept) rfl

/-! ## Reads from front to back -/

/-- A read at the recorded offset, or a little after it. -/
theorem Detected.of_noted {pf : Prefetcher} {hash : String} {last offset length : Int} {seq : Bool}
    (known : pf.noted hash = some (last, seq)) (nonneg : 0 ≤ last) (after : last ≤ offset)
    (close : offset - last ≤ prefetchThresholdBytes) (longer : 0 < length) (noOverflow : offset + length < 2 ^ 63) :
    (pf.onRead hash offset length).Detected hash (offset + length) := by
  have ends : wrap (offset + length) = offset + length := wrap_eq (by omega) noOverflow
  have gap : wrap (offset - last) = offset - last := wrap_eq (by omega) (by omega)
  rw [detected_iff, noted_onRead known, ends, gap, decide_eq_true after, decide_eq_true close, Bool.and_self]

/-- A read that seems to leave a gap. -/
theorem not_detected_of_noted {pf : Prefetcher} {hash : String} {last offset length : Int} {seq : Bool}
    (known : pf.noted hash = some (last, seq)) (nonneg : 0 ≤ last) (inside : offset < 2 ^ 63)
    (far : prefetchThresholdBytes < offset - last) (stop : Int) :
    ¬ (pf.onRead hash offset length).Detected hash stop := by
  have wide : 0 < offset - last := by
    unfold prefetchThresholdBytes at far
    omega
  have gap : wrap (offset - last) = offset - last := wrap_eq (by omega) (by omega)
  rw [detected_iff, noted_onRead known, gap, decide_eq_false (by omega : ¬ offset - last ≤ prefetchThresholdBytes),
    Bool.and_false]
  intro detected
  exact absurd (Prod.mk.inj (Option.some.inj detected)).2 Bool.false_ne_true

theorem le_readsEnd {lengths : List Int} (positive : ∀ length ∈ lengths, 0 < length) (offset : Int) :
    offset ≤ readsEnd offset lengths := by
  induction lengths generalizing offset with
  | nil => exact Int.le_refl offset
  | cons length lengths ih =>
    have first := positive length List.mem_cons_self
    have rest := ih (fun l member => positive l (List.mem_cons_of_mem _ member)) (offset + length)
    exact Int.le_trans (by omega) rest

theorem readsEnd_take_le {lengths : List Int} (positive : ∀ length ∈ lengths, 0 < length) (offset : Int) (n : Nat) :
    readsEnd offset (lengths.take n) ≤ readsEnd offset lengths := by
  have split : readsEnd offset lengths = readsEnd (readsEnd offset (lengths.take n)) (lengths.drop n) := by
    rw [readsEnd, readsEnd, readsEnd, ← List.foldl_append, List.take_append_drop]
  rw [split]
  exact le_readsEnd (fun length member => positive length (List.mem_of_mem_drop member)) _

/-- Once it is detected, it is so after every later read. -/
theorem Detected.fed {pf last : Prefetcher} {hash : String} {offset : Int} {lengths : List Int}
    (fed : Fed hash pf offset lengths last) (h : pf.Detected hash offset) (nonneg : 0 ≤ offset)
    (positive : ∀ length ∈ lengths, 0 < length) (noOverflow : readsEnd offset lengths < 2 ^ 63) :
    last.Detected hash (readsEnd offset lengths) := by
  induction fed with
  | done pf offset => exact h
  | @read pf before last offset length lengths between rest ih =>
    have first := positive length List.mem_cons_self
    have later : ∀ l ∈ lengths, 0 < l := fun l member => positive l (List.mem_cons_of_mem _ member)
    have inside := le_readsEnd later (offset + length)
    have known : before.noted hash = some (offset, true) := by
      rw [noted_between between]
      exact (detected_iff pf hash offset).mp h
    have room : offset + length < 2 ^ 63 := by
      refine Int.lt_of_le_of_lt inside ?_
      exact noOverflow
    refine ih (Detected.of_noted known nonneg (Int.le_refl _) ?_ first room) (by omega) later noOverflow
    rw [Int.sub_self]
    decide

/-- Two reads, the second one where the first one ended. -/
theorem Fed.first_two {pf last : Prefetcher} {hash : String} {offset first second : Int} {rest : List Int}
    (fed : Fed hash pf offset (first :: second :: rest) last) :
    ∃ before between : Prefetcher, before.noted hash = pf.noted hash ∧
      between.noted hash = (before.onRead hash offset first).noted hash ∧
      Fed hash (between.onRead hash (offset + first) second) (offset + first + second) rest last := by
  cases fed with
  | read initially fed =>
    cases fed with
    | read between fed => exact ⟨_, _, noted_between initially, noted_between between, fed⟩

/-- The state says so after the second read, if there was a state before the first, or if that was short. -/
theorem Detected.second {pf before between : Prefetcher} {hash : String} {offset first second : Int}
    (initially : before.noted hash = pf.noted hash)
    (then' : between.noted hash = (before.onRead hash offset first).noted hash)
    (nonneg : 0 ≤ offset) (positive : 0 < first ∧ 0 < second) (noOverflow : offset + first + second < 2 ^ 63)
    (recorded : (pf.states hash).isSome ∨ first ≤ prefetchThresholdBytes) :
    (between.onRead hash (offset + first) second).Detected hash (offset + first + second) := by
  cases known : pf.noted hash with
  | some note =>
    obtain ⟨last, seq⟩ := note
    rw [noted_onRead (initially.trans known), wrap_eq (by omega) (by omega)] at then'
    refine Detected.of_noted then' (by omega) (Int.le_refl _) ?_ positive.2 noOverflow
    rw [Int.sub_self]
    decide
  | none =>
    have unknown : pf.states hash = none := Option.map_eq_none_iff.mp known
    have short : first ≤ prefetchThresholdBytes := by simpa [unknown] using recorded
    rw [noted_onRead_new (initially.trans known)] at then'
    exact Detected.of_noted then' nonneg (by omega) (by omega) positive.2 noOverflow

/-- **Sequential reads.** Whatever the rest of the prefetcher does in between, the object's state says after the
second read and after every later one that it is read sequentially, up to the end of that read: exactly if
there was a state before the first read, or that read is not longer than the threshold. -/
theorem sequential_detected_iff (pf : Prefetcher) (hash : String) {offset first second : Int} {rest : List Int}
    (nonneg : 0 ≤ offset) (positive : ∀ length ∈ first :: second :: rest, 0 < length)
    (noOverflow : readsEnd offset (first :: second :: rest) < 2 ^ 63) :
    (∀ n last, Fed hash pf offset (first :: second :: rest.take n) last →
        last.Detected hash (readsEnd offset (first :: second :: rest.take n))) ↔
      (pf.states hash).isSome ∨ first ≤ prefetchThresholdBytes := by
  have positive' : 0 < first ∧ 0 < second := ⟨positive _ (by simp), positive _ (by simp)⟩
  have later : ∀ length ∈ rest, 0 < length := fun length member => positive _ (by simp [member])
  have room : offset + first + second < 2 ^ 63 :=
    Int.lt_of_le_of_lt (le_readsEnd later (offset + first + second)) noOverflow
  constructor
  · intro detects
    by_contra missed
    obtain ⟨unknown, long⟩ := not_or.mp missed
    have unknown : pf.noted hash = none := by simpa [noted] using unknown
    have reads : Fed hash pf offset (first :: second :: rest.take 0) _ := .read (.refl _) (.read (.refl _) (.done _ _))
    have recorded := noted_onRead_new unknown offset first
    exact not_detected_of_noted recorded nonneg (by omega) (by omega) _ (detects 0 _ reads)
  · intro recorded n last fed
    obtain ⟨before, between, initially, then', fed⟩ := fed.first_two
    have detected := Detected.second initially then' nonneg positive' room recorded
    have inside : readsEnd (offset + first + second) (rest.take n) < 2 ^ 63 :=
      Int.lt_of_le_of_lt (readsEnd_take_le later _ n) noOverflow
    have positive : ∀ length ∈ rest.take n, 0 < length := fun length member => later length (List.mem_of_mem_take member)
    have sequential := detected.fed fed (by omega) positive inside
    exact sequential

/-- Two reads of 1 MiB each and a third one, of an object that was not read before. -/
theorem short_reads_detected :
    ∃ last, Fed "h" (Prefetcher.new 0) 0 [1048576, 1048576, 500] last ∧ last.Detected "h" 2097652 := by
  have positive : ∀ length ∈ [1048576, 1048576, 500], (0 : Int) < length := by decide
  have detects :=
    (sequential_detected_iff (Prefetcher.new 0) "h" (Int.le_refl 0) positive (by decide)).mpr (.inr (by decide))
  have reads : Fed "h" (Prefetcher.new 0) 0 [1048576, 1048576, 500] _ :=
    .read (.refl _) (.read (.refl _) (.read (.refl _) (.done _ _)))
  exact ⟨_, reads, detects 1 _ reads⟩

/-- Two adjacent reads of 4 MiB each of an object that was not read before: they are not detected. -/
theorem long_reads_missed :
    ∃ last, Fed "h" (Prefetcher.new 0) 0 [4194304, 4194304] last ∧ ¬ last.Detected "h" 8388608 :=
  ⟨_, .read (.refl _) (.read (.refl _) (.done _ _)),
    not_detected_of_noted (noted_onRead_new rfl 0 4194304) (by decide) (by decide) (by decide) _⟩

end Blobcache.Storage.Prefetcher
