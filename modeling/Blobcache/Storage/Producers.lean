import Blobcache.Storage.Prefetcher

/-!
# One goroutine for each object

`startPrefetch` marks the state of an object as `prefetching` and starts a goroutine, which takes
the mark back when it ends. The mark is there to keep the goroutines apart: as long as it stands
no read of the object starts another one. It lives in the state of the object, though, and
`cleanup` removes a state that was not touched for thirty seconds, whoever is at work on it.

In every run a mark has a goroutine behind it, so that it is taken back in the end. And as long as
`cleanup` removes no state whose object is being prefetched, there is one goroutine for a mark.
-/

namespace Blobcache.Storage.Prefetcher
set_option autoImplicit false
open Execution Int64Arith

/-- The object is marked as being prefetched. -/
def busy (pf : Prefetcher) (hash : String) : Bool := (pf.states hash).any (·.prefetching)

/-- A goroutine is at work for the object. -/
def Produced (pf : Prefetcher) (hash : String) : Prop := hash ∈ pf.producers.map (·.hash)

/-- `cleanup` removes no state whose object is being prefetched. -/
def KeepsBusy (pf : Prefetcher) : Act → Prop
  | .cleanup => ∀ hash ∈ pf.producers.map (·.hash), ∀ state ∈ pf.states hash,
      pf.now - state.lastAccessTime ≤ prefetchCacheTime
  | _ => True

instance (pf : Prefetcher) : (a : Act) → Decidable (KeepsBusy pf a)
  | .cleanup => inferInstanceAs (Decidable (∀ _ ∈ _, ∀ _ ∈ _, _))
  | .clientRead _ => inferInstanceAs (Decidable True)
  | .worker _ _ _ => inferInstanceAs (Decidable True)
  | .producer _ _ => inferInstanceAs (Decidable True)
  | .tick _ => inferInstanceAs (Decidable True)
  | .cancel => inferInstanceAs (Decidable True)

/-! ## The marks after a read -/

theorem busy_of_found {pf : Prefetcher} {hash : String} {state : PrefetchState} (found : pf.states hash = some state) :
    pf.busy hash = state.prefetching := by
  rw [busy, found, Option.any_some]

theorem busy_modify_other {pf : Prefetcher} {hash other : String} (different : other ≠ hash)
    (f : PrefetchState → PrefetchState) : (pf.modify hash f).busy other = pf.busy other := by
  simp only [busy, modify, Function.update_of_ne different]

/-- An assignment to other fields. -/
theorem busy_modify_same {f : PrefetchState → PrefetchState} (same : ∀ state, (f state).prefetching = state.prefetching)
    (pf : Prefetcher) (hash : String) : (pf.modify hash f).busy hash = pf.busy hash := by
  cases found : pf.states hash with
  | none => simp [busy, modify, found]
  | some state => simp [busy, modify, found, same]

theorem busy_modify_found {pf : Prefetcher} {hash : String} {state : PrefetchState}
    (found : pf.states hash = some state) (f : PrefetchState → PrefetchState) :
    (pf.modify hash f).busy hash = (f state).prefetching :=
  busy_of_found (modify_found found f)

/-- The deferred function of a goroutine takes the mark back. -/
theorem busy_cleared (pf : Prefetcher) (hash : String) :
    (pf.modify hash fun state => { state with prefetching := false }).busy hash = false := by
  cases found : pf.states hash with
  | none => simp [busy, modify, found]
  | some state => exact busy_modify_found found _

theorem busy_startPrefetch {pf : Prefetcher} {hash : String} {state : PrefetchState}
    (found : pf.states hash = some state) (startOffset : Int) :
    (pf.startPrefetch hash startOffset).busy hash = true := by
  unfold startPrefetch
  rw [found]
  dsimp only
  split
  · rename_i marked
    rw [busy_of_found found, marked]
  · exact busy_modify_found found _

theorem busy_startPrefetch_other {pf : Prefetcher} {hash other : String} (different : other ≠ hash) (startOffset : Int) :
    (pf.startPrefetch hash startOffset).busy other = pf.busy other := by
  unfold startPrefetch
  split
  · rfl
  · split
    · rfl
    · exact busy_modify_other different _

theorem busy_detect {pf : Prefetcher} {hash : String} {state : PrefetchState} (found : pf.states hash = some state)
    (offset length : Int) :
    (pf.detect hash state offset length).busy hash = (state.prefetching || isSequential state offset) := by
  unfold detect
  cases seq : isSequential state offset with
  | false =>
    simp only [Bool.false_and, Bool.false_eq_true, if_false, Bool.not_false, if_true, Bool.or_false]
    rw [busy_modify_same, busy_of_found found]
    exact fun _ => rfl
  | true =>
    simp only [Bool.true_and, Bool.not_true, Bool.false_eq_true, if_false, Bool.or_true]
    split
    · exact busy_startPrefetch (modify_found found _) _
    · rename_i noticed
      split
      · exact busy_startPrefetch found _
      · rename_i idle
        rw [busy_of_found found]
        revert noticed idle
        cases state.sequential <;> cases state.prefetching <;> simp

theorem busy_detect_other {pf : Prefetcher} {hash other : String} (different : other ≠ hash) (state : PrefetchState)
    (offset length : Int) : (pf.detect hash state offset length).busy other = pf.busy other := by
  unfold detect
  split
  · rw [busy_startPrefetch_other different, busy_modify_other different]
  · split
    · exact busy_startPrefetch_other different _
    · split
      · exact busy_modify_other different _
      · rfl

/-- After a read the object is marked if it was, or if the read has started a goroutine. -/
theorem busy_onRead (pf : Prefetcher) (hash : String) (offset length : Int) :
    (pf.onRead hash offset length).busy hash = true ↔ pf.busy hash = true ∨ pf.Starts hash offset := by
  unfold onRead
  cases found : pf.states hash with
  | none => simp [busy, Starts, found]
  | some state =>
    have noted := (busy_modify_same (f := fun state =>
      { state with lastOffset := wrap (offset + length), lastAccessTime := pf.now }) (fun _ => rfl)
      (pf.detect hash state offset length) hash).trans (busy_detect found offset length)
    dsimp only
    rw [noted, starts_iff found, busy_of_found found]
    cases state.prefetching <;> simp

theorem busy_onRead_other {pf : Prefetcher} {hash other : String} (different : other ≠ hash) (offset length : Int) :
    (pf.onRead hash offset length).busy other = pf.busy other := by
  unfold onRead
  split
  · simp only [busy, Function.update_of_ne different]
  · rw [busy_modify_other different, busy_detect_other different]

theorem produced_onRead (pf : Prefetcher) (hash other : String) (offset length : Int) :
    (pf.onRead hash offset length).Produced other ↔ pf.Produced other ∨ other = hash ∧ pf.Starts hash offset := by
  obtain ⟨states, read⟩ := onRead_eq pf hash offset length
  rw [read]
  unfold Produced started
  split
  · rename_i starts
    simp [starts]
  · rename_i still
    simp [still]

/-! ## Marks and goroutines -/

/-- What every run keeps. -/
structure Backed (pf : Prefetcher) : Prop where
  produced : ∀ hash, pf.busy hash = true → pf.Produced hash
  room : pf.workQueue.length ≤ workQueueSize

/-- What a run keeps in which no state of an object that is being prefetched is removed. -/
structure Paired (pf : Prefetcher) : Prop where
  busy : ∀ hash, pf.Produced hash → pf.busy hash = true
  once : (pf.producers.map (·.hash)).Nodup

theorem Backed.new (now : Nat) : Backed (Prefetcher.new now) :=
  ⟨fun _ marked => (by cases marked), Nat.zero_le _⟩

theorem Paired.new (now : Nat) : Paired (Prefetcher.new now) := ⟨fun _ none => (by cases none), .nil⟩

variable {pf : Prefetcher}

theorem Backed.onRead (h : Backed pf) (hash : String) (offset length : Int) : Backed (pf.onRead hash offset length) := by
  obtain ⟨states, read⟩ := onRead_eq pf hash offset length
  refine ⟨fun other marked => ?_, by rw [read]; exact h.room⟩
  rw [produced_onRead]
  by_cases same : other = hash
  · subst same
    exact ((busy_onRead ..).mp marked).imp (h.produced other) fun starts => ⟨rfl, starts⟩
  · rw [busy_onRead_other same] at marked
    exact .inl (h.produced other marked)

/-- A read starts a goroutine only for an object that has no mark, and so no goroutine. -/
theorem Paired.onRead (h : Paired pf) (hash : String) (offset length : Int) : Paired (pf.onRead hash offset length) := by
  obtain ⟨states, read⟩ := onRead_eq pf hash offset length
  constructor
  · intro other produced
    rw [produced_onRead] at produced
    by_cases same : other = hash
    · subst same
      exact (busy_onRead ..).mpr (produced.imp (h.busy other) And.right)
    · rw [busy_onRead_other same]
      exact h.busy other (produced.resolve_right fun this => same this.1)
  · rw [read]
    unfold started
    split
    · rename_i starts
      have fresh : ¬ pf.Produced hash := fun produced => by
        obtain ⟨state, found, -, free⟩ := starts
        have marked := h.busy hash produced
        rw [busy_of_found found, free] at marked
        cases marked
      rw [List.map_append, List.map_singleton]
      exact h.once.append (List.nodup_singleton _) (List.disjoint_singleton.mpr fresh)
    · rw [List.append_nil]
      exact h.once

/-- A goroutine that moves on stays at work for its object. -/
theorem map_set_moved {producers : List Producer} {k : Nat} {p : Producer} (found : producers[k]? = some p)
    (pc : ProducerPc) : (producers.set k { p with pc := pc }).map (·.hash) = producers.map (·.hash) := by
  have here : (producers.map (·.hash))[k]? = some p.hash := by
    rw [List.getElem?_map, found]
    rfl
  obtain ⟨inside, at_⟩ := List.getElem?_eq_some_iff.mp here
  rw [List.map_set, ← at_, List.set_getElem_self]

/-- A step that changes neither the marks nor who is at work. -/
theorem Paired.of_same {pf' : Prefetcher} (h : Paired pf) (states : pf'.states = pf.states)
    (producers : pf'.producers.map (·.hash) = pf.producers.map (·.hash)) : Paired pf' := by
  refine ⟨fun hash produced => ?_, producers ▸ h.once⟩
  rw [Prefetcher.busy, states]
  exact h.busy hash (by rwa [Produced, producers] at produced)

theorem Backed.of_same {pf' : Prefetcher} (h : Backed pf) (states : pf'.states = pf.states)
    (producers : pf'.producers.map (·.hash) = pf.producers.map (·.hash))
    (room : pf'.workQueue.length ≤ workQueueSize) : Backed pf' := by
  refine ⟨fun hash marked => ?_, room⟩
  rw [busy, states] at marked
  rw [Produced, producers]
  exact h.produced hash marked

/-- Who is at work when one goroutine has ended. -/
theorem mem_map_eraseIdx {producers : List Producer} {k : Nat} {p : Producer} (found : producers[k]? = some p)
    {hash : String} (different : hash ≠ p.hash) :
    hash ∈ (producers.eraseIdx k).map (·.hash) ↔ hash ∈ producers.map (·.hash) := by
  simp only [List.mem_map, List.mem_eraseIdx_iff_getElem?]
  constructor
  · rintro ⟨q, ⟨i, -, here⟩, same⟩
    exact ⟨q, List.mem_of_getElem? here, same⟩
  · rintro ⟨q, member, same⟩
    obtain ⟨i, here⟩ := List.mem_iff_getElem?.mp member
    refine ⟨q, ⟨i, fun this => different ?_, here⟩, same⟩
    rw [this, found] at here
    cases here
    exact same.symm

theorem Backed.produce (h : Backed pf) (k : Nat) (sees : Bool) : Backed (pf.produce k sees) := by
  unfold Prefetcher.produce
  cases found : pf.producers[k]? with
  | none => exact h
  | some p =>
    have leaves : Backed { pf with producers := pf.producers.set k { p with pc := .deferred } } :=
      h.of_same rfl (map_set_moved found _) h.room
    dsimp only
    split
    · rename_i i _
      split
      · split
        · exact leaves
        · split
          · rename_i room
            refine h.of_same rfl (map_set_moved found _) ?_
            rw [List.length_append]
            exact room
          · exact leaves
      · exact leaves
    · refine ⟨fun hash (marked : (pf.modify p.hash _).busy hash = true) => ?_, h.room⟩
      by_cases same : hash = p.hash
      · rw [same, busy_cleared] at marked
        cases marked
      · rw [busy_modify_other same] at marked
        exact (mem_map_eraseIdx found same).mpr (h.produced hash marked)

theorem Paired.produce (h : Paired pf) (k : Nat) (sees : Bool) : Paired (pf.produce k sees) := by
  unfold Prefetcher.produce
  cases found : pf.producers[k]? with
  | none => exact h
  | some p =>
    have moves (pc : ProducerPc) : Paired { pf with producers := pf.producers.set k { p with pc := pc } } :=
      h.of_same rfl (map_set_moved found _)
    dsimp only
    split
    · rename_i i _
      split
      · split
        · exact moves _
        · split
          · exact h.of_same rfl (map_set_moved found _)
          · exact moves _
      · exact moves _
    · -- the goroutine was the only one for its object
      have apart (hash : String) (produced : hash ∈ (pf.producers.eraseIdx k).map (·.hash)) : hash ≠ p.hash := by
        rintro rfl
        obtain ⟨q, ⟨i, different, here⟩, same⟩ := by
          simpa only [List.mem_map, List.mem_eraseIdx_iff_getElem?] using produced
        have inside : i < (pf.producers.map (·.hash)).length := by
          rw [List.length_map]
          exact (List.getElem?_eq_some_iff.mp here).1
        refine different ((List.getElem?_inj inside h.once).mp ?_)
        rw [List.getElem?_map, List.getElem?_map, here, found]
        exact congrArg some same
      refine ⟨fun hash produced => ?_, (List.Sublist.map _ (List.eraseIdx_sublist _ k)).nodup h.once⟩
      have different := apart hash produced
      show (pf.modify p.hash _).busy hash = true
      rw [busy_modify_other different]
      exact h.busy hash ((mem_map_eraseIdx found different).mp produced)

theorem Backed.worker (h : Backed pf) (k : Nat) (sees present : Bool) : Backed (pf.worker k sees present) := by
  unfold Prefetcher.worker
  split
  · exact h
  · exact h
  · split
    · exact h.of_same rfl rfl h.room
    · split
      · exact h
      · rename_i task rest queue
        refine h.of_same rfl rfl ?_
        have room := h.room
        rw [queue, List.length_cons] at room
        exact Nat.le_of_succ_le room
  · rename_i task found
    have free : Backed { pf with workers := pf.workers.set k .waits } := h.of_same rfl rfl h.room
    dsimp only
    split
    · exact free.onRead ..
    · exact free

theorem Paired.worker (h : Paired pf) (k : Nat) (sees present : Bool) : Paired (pf.worker k sees present) := by
  unfold Prefetcher.worker
  split
  · exact h
  · exact h
  · split
    · exact h.of_same rfl rfl
    · split
      · exact h
      · exact h.of_same rfl rfl
  · rename_i task found
    have free : Paired { pf with workers := pf.workers.set k .waits } := h.of_same rfl rfl
    dsimp only
    split
    · exact free.onRead ..
    · exact free

/-- A mark is removed with its state, and no other way. -/
theorem busy_cleanup (pf : Prefetcher) (hash : String) :
    pf.cleanup.busy hash = true ↔ pf.busy hash = true ∧ ∀ state ∈ pf.states hash,
      pf.now - state.lastAccessTime ≤ prefetchCacheTime := by
  cases found : pf.states hash with
  | none => simp [busy, cleanup, found]
  | some state =>
    simp only [busy, cleanup, found, Option.filter_some, Option.any_some, Option.mem_def, Option.some.injEq, forall_eq']
    split
    · rename_i fresh
      simp at fresh
      simp [fresh]
    · rename_i stale
      simp at stale
      simp [stale]

theorem Backed.step (h : Backed pf) (a : Act) : Backed (step a pf) := by
  cases a with
  | clientRead r => exact (h.onRead r.hash r.offset r.length).of_same rfl rfl (h.onRead r.hash r.offset r.length).room
  | producer k sees => exact h.produce k sees
  | worker k sees present => exact h.worker k sees present
  | cleanup => exact ⟨fun hash marked => h.produced hash ((busy_cleanup pf hash).mp marked).1, h.room⟩
  | tick duration => exact h.of_same rfl rfl h.room
  | cancel => exact h.of_same rfl rfl h.room

theorem Paired.step (h : Paired pf) {a : Act} (keeps : KeepsBusy pf a) : Paired (step a pf) := by
  cases a with
  | clientRead r => exact (h.onRead r.hash r.offset r.length).of_same rfl rfl
  | producer k sees => exact h.produce k sees
  | worker k sees present => exact h.worker k sees present
  | cleanup =>
    refine ⟨fun hash produced => ?_, h.once⟩
    exact (busy_cleanup pf hash).mpr ⟨h.busy hash produced, fun state found => keeps hash produced state found⟩
  | tick duration => exact h.of_same rfl rfl
  | cancel => exact h.of_same rfl rfl

/-- **In every run a mark is taken back in the end**: a goroutine is at work for every object that is marked as
being prefetched. The work queue never holds more than its channel does. -/
theorem backed_run {now : Nat} (run : Trace step (fun _ _ => True) (Prefetcher.new now) pf) : Backed pf :=
  run.invariant (fun _ a h _ => h.step a) (Backed.new now)

/-- **One goroutine for each object.** In every run in which `cleanup` removes no state whose object is being
prefetched, no two goroutines are at work for one object, and one is at work exactly for those objects that are
marked. -/
theorem one_producer_per_object {now : Nat} (run : Trace step KeepsBusy (Prefetcher.new now) pf) :
    (pf.producers.map (·.hash)).Nodup ∧ (∀ hash, pf.busy hash = true ↔ hash ∈ pf.producers.map (·.hash)) ∧
      pf.workQueue.length ≤ workQueueSize := by
  have paired : Paired pf := run.invariant (fun _ _ h keeps => h.step keeps) (Paired.new now)
  have backed : Backed pf := backed_run (run.weaken fun _ _ _ => trivial)
  exact ⟨paired.once, fun hash => ⟨backed.produced hash, paired.busy hash⟩, backed.room⟩

/-- Thirty seconds after two adjacent reads. -/
def cleanedUp : Prefetcher := after step (servedEarly ++ [.tick prefetchCacheTime, .cleanup]) (Prefetcher.new 0)

/-- The goroutine has not yet ended, and there is no more than one. -/
theorem one_producer_per_object_two_reads :
    cleanedUp.producers.map (·.hash) = ["h"] ∧
      cleanedUp.busy "h" = true := by
  have run : Trace step KeepsBusy (Prefetcher.new 0) cleanedUp :=
    Trace.of_list _ _ (by decide)
  have one : cleanedUp.producers.map (·.hash) = ["h"] := by decide
  exact ⟨one, ((one_producer_per_object run).2.1 "h").mpr (by rw [one]; exact List.mem_cons_self)⟩

/-- A little later the state is removed, and the next reads start a second goroutine beside the first. -/
example : (after step (servedEarly ++ [.tick (prefetchCacheTime + 1), .cleanup] ++ twoReads)
    (Prefetcher.new 0)).producers.map (·.hash) = ["h", "h"] := by decide

end Blobcache.Storage.Prefetcher
