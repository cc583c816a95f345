import Blobcache.Lib.Interleaving
import Mathlib.Algebra.Order.Ring.Nat

/-!
# Fork and join

A main thread starts a number of jobs, of which only so many run at a time (a counting
semaphore). Each job sends its result into a channel that has room for all of them; a wait
group counts the jobs that are left, and the channel is closed when there is none. The main
thread takes the results out of the channel, in the order in which they come, until it is
closed and empty. A job whose result aborts the whole cancels the others, which may then
give up with such a result as well.

`Inv.gathered` says what has been collected in the end: one result for each job, in some
order. `ends` says that there is an end, whatever the schedule.
-/

namespace ForkJoin
set_option autoImplicit false
open Execution Interleaving

/-- What a job does with what it meets, and how the results are collected. -/
structure Plan (χ ρ γ : Type*) where
  jobs : Nat
  /-- How many jobs run at a time. -/
  limit : Nat
  work : Nat → χ → ρ
  aborts : ρ → Bool
  collect : γ → Nat × ρ → γ

inductive Pc (χ : Type*) where
  | waiting
  | running
  | sent (met : χ)
  | done (met : χ)

structure Job (χ : Type*) where
  index : Nat
  pc : Pc χ

structure Shared (ρ γ : Type*) where
  /-- The places of the semaphore that are taken. -/
  slots : Nat
  /-- The counter of the wait group. -/
  left : Nat
  cancelled : Bool
  channel : List (Nat × ρ)
  closed : Bool
  collected : γ
  finished : Bool

/-- What happens outside the jobs. -/
inductive Event where
  | close
  | receive
  | finish

variable {χ ρ γ : Type*}

def Pc.holds : Pc χ → Bool
  | .running => true
  | .sent _ => true
  | _ => false

def Pc.left : Pc χ → Bool
  | .done _ => false
  | _ => true

def Pc.delivered : Pc χ → Bool
  | .sent _ => true
  | .done _ => true
  | _ => false

/-- The steps a job still has to take, and that its result has to. -/
def Pc.rank : Pc χ → Nat
  | .waiting => 4
  | .running => 3
  | .sent _ => 1
  | .done _ => 0

namespace Plan

def event (plan : Plan χ ρ γ) (e : Event) (s : Shared ρ γ) : Shared ρ γ :=
  match e with
  | .close => if s.left = 0 then { s with closed := true } else s
  | .receive =>
    match s.channel with
    | [] => s
    | arrival :: rest => { s with channel := rest, collected := plan.collect s.collected arrival }
  | .finish => if s.closed = true ∧ s.channel = [] then { s with finished := true } else s

/-- One step of a job. -/
def move (plan : Plan χ ρ γ) (met : χ) (s : Shared ρ γ) (job : Job χ) : Shared ρ γ × Job χ :=
  match job.pc with
  | .waiting => if s.slots < plan.limit then ({ s with slots := s.slots + 1 }, { job with pc := .running }) else (s, job)
  | .running =>
    ({ s with
      channel := s.channel ++ [(job.index, plan.work job.index met)]
      cancelled := s.cancelled || plan.aborts (plan.work job.index met) }, { job with pc := .sent met })
  | .sent met => ({ s with slots := s.slots - 1, left := s.left - 1 }, { job with pc := .done met })
  | .done _ => (s, job)

def start (plan : Plan χ ρ γ) (initial : γ) : Pool (Shared ρ γ) (Job χ) :=
  ⟨⟨0, plan.jobs, false, [], false, initial, false⟩, (List.range plan.jobs).map fun i => ⟨i, .waiting⟩⟩

def step (plan : Plan χ ρ γ) : Action (Job χ) Event χ → Pool (Shared ρ γ) (Job χ) → Pool (Shared ρ γ) (Job χ) :=
  Pool.step plan.event plan.move

/-- A job meets its answer; once the whole is cancelled it may also meet something that aborts. -/
def Admits (plan : Plan χ ρ γ) (answers : Nat → χ) (p : Pool (Shared ρ γ) (Job χ)) :
    Action (Job χ) Event χ → Prop
  | .env _ => True
  | .spawn _ => False
  | .move t met => ∀ job, p.threads[t]? = some job → job.pc = .running →
      met = answers job.index ∨ p.shared.cancelled = true ∧ plan.aborts (plan.work job.index met) = true

/-- Some job aborts the whole by what it is answered. -/
def Aborted (plan : Plan χ ρ γ) (answers : Nat → χ) : Prop :=
  ∃ j < plan.jobs, plan.aborts (plan.work j (answers j)) = true

/-- The result of a job: that of its answer, unless the whole is aborted. -/
def Result (plan : Plan χ ρ γ) (answers : Nat → χ) (i : Nat) (r : ρ) : Prop :=
  r = plan.work i (answers i) ∨ plan.aborts r = true ∧ plan.Aborted answers

/-- One result of each job, in the order in which they came. -/
structure Gathered (plan : Plan χ ρ γ) (answers : Nat → χ) (initial collected : γ) (arrivals : List (Nat × ρ)) :
    Prop where
  once : (arrivals.map Prod.fst).Perm (List.range plan.jobs)
  results : ∀ a ∈ arrivals, plan.Result answers a.1 a.2
  collected_eq : collected = arrivals.foldl plan.collect initial

end Plan

/-- What holds along every run. -/
structure Inv (plan : Plan χ ρ γ) (answers : Nat → χ) (initial : γ) (p : Pool (Shared ρ γ) (Job χ)) : Prop where
  indices : p.threads.map Job.index = List.range plan.jobs
  slots : p.shared.slots = p.threads.countP (·.pc.holds)
  left : p.shared.left = p.threads.countP (·.pc.left)
  cancelled : p.shared.cancelled = true → plan.Aborted answers
  closed : p.shared.closed = true → p.shared.left = 0
  finished : p.shared.finished = true → p.shared.closed = true ∧ p.shared.channel = []
  arrivals : ∃ received, p.shared.collected = received.foldl plan.collect initial ∧
    ((received ++ p.shared.channel).map Prod.fst).Perm ((p.threads.filter (·.pc.delivered)).map Job.index) ∧
    ∀ a ∈ received ++ p.shared.channel, plan.Result answers a.1 a.2

section

variable {plan : Plan χ ρ γ} {answers : Nat → χ} {initial : γ} {p : Pool (Shared ρ γ) (Job χ)}

theorem Inv.start : Inv plan answers initial (plan.start initial) where
  indices := by
    simp only [Plan.start, List.map_map]
    exact List.map_id _
  slots := by
    rw [Plan.start, List.countP_map]
    exact (List.countP_eq_zero.mpr fun _ _ => by simp [Pc.holds]).symm
  left := by
    rw [Plan.start, List.countP_map]
    exact (List.length_range.symm.trans (List.countP_eq_length.mpr fun _ _ => rfl).symm)
  cancelled none := by cases none
  closed none := by cases none
  finished none := by cases none
  arrivals := by
    refine ⟨[], rfl, ?_, fun a none => by cases none⟩
    have nothing : (plan.start initial).threads.filter (·.pc.delivered) = [] := by
      rw [List.filter_eq_nil_iff]
      intro job member
      obtain ⟨i, -, rfl⟩ := List.mem_map.mp member
      simp [Pc.delivered]
    rw [nothing]
    exact .nil

/-- A job that is found stands between the others, and moving it changes nothing else. -/
theorem split_at {jobs : List (Job χ)} {t : Nat} {job : Job χ} (found : jobs[t]? = some job) :
    ∃ before after, jobs = before ++ job :: after ∧ ∀ job', jobs.set t job' = before ++ job' :: after := by
  obtain ⟨inside, rfl⟩ := List.getElem?_eq_some_iff.mp found
  refine ⟨jobs.take t, jobs.drop (t + 1), ?_, fun job' => ?_⟩
  · rw [← List.drop_eq_getElem_cons inside, List.take_append_drop]
  · exact List.set_eq_take_append_cons_drop.trans (if_pos inside)

/-- Nothing is left when the wait group is down. -/
theorem Inv.none_left (h : Inv plan answers initial p) (down : p.shared.left = 0) :
    ∀ job ∈ p.threads, job.pc.left = false := by
  rw [h.left, List.countP_eq_zero] at down
  intro job member
  simpa using down job member

theorem Inv.event (h : Inv plan answers initial p) (e : Event) :
    Inv plan answers initial { p with shared := plan.event e p.shared } := by
  cases e with
  | close =>
    simp only [Plan.event]
    split
    · rename_i down
      exact ⟨h.indices, h.slots, h.left, h.cancelled, fun _ => down, fun done => ⟨rfl, (h.finished done).2⟩, h.arrivals⟩
    · exact h
  | receive =>
    simp only [Plan.event]
    split
    · exact h
    · rename_i arrival rest waiting
      obtain ⟨received, collected, indices, results⟩ := h.arrivals
      rw [waiting] at indices results
      refine ⟨h.indices, h.slots, h.left, h.cancelled, h.closed, fun done => ?_, received ++ [arrival], ?_, ?_, ?_⟩
      · have empty := (h.finished done).2
        rw [waiting] at empty
        cases empty
      · rw [List.foldl_append, ← collected]
        rfl
      · rwa [List.append_assoc, List.singleton_append]
      · rwa [List.append_assoc, List.singleton_append]
  | finish =>
    simp only [Plan.event]
    split
    · rename_i drained
      exact ⟨h.indices, h.slots, h.left, h.cancelled, h.closed, fun _ => drained, h.arrivals⟩
    · exact h

/-- What a move does. -/
inductive Moved (plan : Plan χ ρ γ) (met : χ) (s : Shared ρ γ) (i : Nat) : Pc χ → Shared ρ γ × Job χ → Prop where
  | blocked (full : plan.limit ≤ s.slots) : Moved plan met s i .waiting (s, ⟨i, .waiting⟩)
  | enters (room : s.slots < plan.limit) :
      Moved plan met s i .waiting ({ s with slots := s.slots + 1 }, ⟨i, .running⟩)
  | sends : Moved plan met s i .running
      ({ s with
        channel := s.channel ++ [(i, plan.work i met)]
        cancelled := s.cancelled || plan.aborts (plan.work i met) }, ⟨i, .sent met⟩)
  | leaves (met' : χ) :
      Moved plan met s i (.sent met') ({ s with slots := s.slots - 1, left := s.left - 1 }, ⟨i, .done met'⟩)
  | rests (met' : χ) : Moved plan met s i (.done met') (s, ⟨i, .done met'⟩)

theorem Plan.move_moved (plan : Plan χ ρ γ) (met : χ) (s : Shared ρ γ) (job : Job χ) :
    Moved plan met s job.index job.pc (plan.move met s job) := by
  rcases job with ⟨i, _ | _ | met' | met'⟩
  · simp only [Plan.move]
    split
    · exact .enters ‹_›
    · exact .blocked (by omega)
  · exact .sends
  · exact .leaves met'
  · exact .rests met'

theorem countP_middle (f : Job χ → Bool) (before after : List (Job χ)) (job : Job χ) :
    (before ++ job :: after).countP f = (before ++ after).countP f + if f job then 1 else 0 := by
  rw [List.countP_append, List.countP_append, List.countP_cons]
  omega

/-- The indices of the jobs that have delivered, without the job in the middle. -/
theorem delivered_middle (before after : List (Job χ)) (job : Job χ) :
    (((before ++ job :: after).filter (·.pc.delivered)).map Job.index).Perm
      ((if job.pc.delivered then [job.index] else []) ++
        ((before ++ after).filter (·.pc.delivered)).map Job.index) := by
  rw [List.filter_append, List.filter_append, List.filter_cons]
  split
  · rw [List.map_append, List.map_append, List.map_cons]
    exact List.perm_middle
  · exact .refl _

theorem Inv.move (h : Inv plan answers initial p) {t : Nat} {job : Job χ} (found : p.threads[t]? = some job) {met : χ}
    (admitted : plan.Admits answers p (.move t met)) :
    Inv plan answers initial ⟨(plan.move met p.shared job).1, p.threads.set t (plan.move met p.shared job).2⟩ := by
  obtain ⟨before, after, here, set⟩ := split_at found
  have result := admitted job found
  have member : job ∈ p.threads := List.mem_of_getElem? found
  have inside : job.index < plan.jobs := by
    rw [← List.mem_range, ← h.indices]
    exact List.mem_map_of_mem member
  have moved := plan.move_moved met p.shared job
  obtain ⟨received, collected, arrived, results⟩ := h.arrivals
  have indices := h.indices
  have slots := h.slots
  have left := h.left
  have cancelled := h.cancelled
  have closed := h.closed
  have finished := h.finished
  have downs := h.none_left
  rw [here] at indices slots left arrived
  rw [countP_middle] at slots left
  replace arrived := arrived.trans (delivered_middle before after job)
  rw [set]
  clear h
  rcases job with ⟨i, pc⟩
  dsimp only at moved slots left arrived result
  generalize plan.move met p.shared ⟨i, pc⟩ = moved_to at moved ⊢
  have indices' (pc' : Pc χ) : (before ++ ⟨i, pc'⟩ :: after).map Job.index = List.range plan.jobs := by
    rw [← indices, List.map_append, List.map_append, List.map_cons, List.map_cons]
  -- a job that has not delivered yet moves, or one that has
  have same (pc' : Pc χ) (unchanged : pc'.delivered = pc.delivered) :
      ((received ++ p.shared.channel).map Prod.fst).Perm
        (((before ++ ⟨i, pc'⟩ :: after).filter (·.pc.delivered)).map Job.index) := by
    refine arrived.trans (.trans ?_ (delivered_middle before after ⟨i, pc'⟩).symm)
    rw [unchanged]
  cases moved with
  | blocked | rests =>
    refine ⟨indices' _, ?_, ?_, cancelled, closed, finished, received, collected, same _ rfl, results⟩
    · rw [countP_middle]; exact slots
    · rw [countP_middle]; exact left
  | enters room =>
    refine ⟨indices' _, ?_, ?_, cancelled, closed, finished, received, collected, same _ rfl, results⟩
    · rw [countP_middle, slots]; rfl
    · rw [countP_middle]; exact left
  | sends =>
    refine ⟨indices' _, ?_, ?_, fun stops => ?_, closed, fun done => ?_, received, collected, ?_, ?_⟩
    · rw [countP_middle]; exact slots
    · rw [countP_middle]; exact left
    · rcases Bool.or_eq_true_iff.mp stops with earlier | own
      · exact cancelled earlier
      · exact (result rfl).elim (fun answered => ⟨i, inside, by rw [← answered]; exact own⟩) fun both => cancelled both.1
    · exact absurd (downs (closed (finished done).1) _ member) (by simp [Pc.left])
    · refine .trans ?_ (delivered_middle before after ⟨i, .sent met⟩).symm
      rw [← List.append_assoc, List.map_append]
      exact List.perm_append_comm.trans (arrived.append_left [i])
    · intro a arrival
      rw [← List.append_assoc] at arrival
      rcases List.mem_append.mp arrival with earlier | last
      · exact results a earlier
      · rw [List.mem_singleton.mp last]
        exact (result rfl).imp (fun answered => by rw [answered]) fun both => ⟨both.2, cancelled both.1⟩
  | leaves met' =>
    refine ⟨indices' _, ?_, ?_, cancelled, ?_, finished, received, collected, same _ rfl, results⟩
    · rw [countP_middle, slots]; rfl
    · rw [countP_middle, left]; rfl
    · intro shut
      dsimp only
      rw [closed shut]

/-- The invariant holds along every run. -/
theorem Inv.run {q : Pool (Shared ρ γ) (Job χ)} (run : Trace plan.step (plan.Admits answers) p q)
    (start : Inv plan answers initial p) : Inv plan answers initial q := by
  refine run.invariant (fun q a h admitted => ?_) start
  cases a with
  | env e => exact h.event e
  | spawn job => exact admitted.elim
  | move t met =>
    simp only [Plan.step, Pool.step]
    cases found : q.threads[t]? with
    | none => exact h
    | some job => exact h.move found admitted

/-- **What is collected in the end.** -/
theorem Inv.gathered (h : Inv plan answers initial p) (ended : p.shared.finished = true) :
    ∃ arrivals, plan.Gathered answers initial p.shared.collected arrivals := by
  obtain ⟨closed, empty⟩ := h.finished ended
  obtain ⟨received, collected, indices, results⟩ := h.arrivals
  have down := h.none_left (h.closed closed)
  have all : p.threads.filter (·.pc.delivered) = p.threads := by
    rw [List.filter_eq_self]
    intro job member
    have idle := down job member
    rcases job with ⟨i, _ | _ | met | met⟩
    · cases idle
    · cases idle
    · rfl
    · rfl
  rw [all, h.indices, empty, List.append_nil] at indices
  rw [empty, List.append_nil] at results
  exact ⟨received, indices, results, collected⟩

/-! ## There is an end -/

/-- The steps to come. -/
def rank (p : Pool (Shared ρ γ) (Job χ)) : Nat :=
  (p.threads.map (·.pc.rank)).sum + p.shared.channel.length + (!p.shared.closed).toNat + (!p.shared.finished).toNat

theorem rank_middle (before after : List (Job χ)) (job : Job χ) :
    ((before ++ job :: after).map (·.pc.rank)).sum = ((before ++ after).map (·.pc.rank)).sum + job.pc.rank := by
  simp only [List.map_append, List.map_cons, List.sum_append, List.sum_cons]
  omega

/-- A move lowers the rank, unless the job is blocked or over. -/
theorem rank_move (plan : Plan χ ρ γ) {t : Nat} {job : Job χ} (found : p.threads[t]? = some job) (met : χ) :
    let q : Pool (Shared ρ γ) (Job χ) :=
      ⟨(plan.move met p.shared job).1, p.threads.set t (plan.move met p.shared job).2⟩
    rank q < rank p ∨ q = p ∧ (job.pc = .waiting → plan.limit ≤ p.shared.slots) ∧ job.pc ≠ .running ∧
      ∀ met', job.pc ≠ .sent met' := by
  obtain ⟨before, after, here, set⟩ := split_at found
  have moved := plan.move_moved met p.shared job
  rcases p with ⟨s, jobs⟩
  dsimp only at here set moved ⊢
  rw [set, here]
  rcases job with ⟨i, pc⟩
  dsimp only at moved
  generalize plan.move met s ⟨i, pc⟩ = moved_to at moved ⊢
  simp only [rank, rank_middle]
  cases moved with
  | blocked full => exact .inr ⟨rfl, fun _ => full, by simp, by simp⟩
  | rests met' => exact .inr ⟨rfl, by simp, by simp, by simp⟩
  | enters room => left; simp only [Pc.rank]; omega
  | sends => left; simp only [Pc.rank, List.length_append, List.length_singleton]; omega
  | leaves met' => left; simp only [Pc.rank]; omega

theorem rank_event (plan : Plan χ ρ γ) (e : Event) (p : Pool (Shared ρ γ) (Job χ)) :
    plan.step (.env e) p = p ∨ rank (plan.step (.env e) p) < rank p := by
  rcases p with ⟨⟨slots, left, cancelled, channel, closed, collected, finished⟩, jobs⟩
  cases e with
  | close =>
    simp only [Plan.step, Pool.step, Plan.event]
    split
    · cases closed with
      | true => exact .inl rfl
      | false => right; simp [rank]
    · exact .inl rfl
  | receive =>
    cases channel with
    | nil => exact .inl rfl
    | cons arrival rest =>
      right
      simp only [rank, Plan.step, Pool.step, Plan.event, List.length_cons]
      omega
  | finish =>
    simp only [Plan.step, Pool.step, Plan.event]
    split
    · cases finished with
      | true => exact .inl rfl
      | false => right; simp [rank]
    · exact .inl rfl

/-- A job that is not blocked can move on. -/
theorem progress_move (answers : Nat → χ) {job : Job χ} (member : job ∈ p.threads)
    (free : job.pc.holds = true ∨ job.pc = .waiting ∧ p.shared.slots < plan.limit) :
    ∃ a, plan.Admits answers p a ∧ rank (plan.step a p) < rank p := by
  obtain ⟨t, found⟩ := List.mem_iff_getElem?.mp member
  refine ⟨.move t (answers job.index), fun job' found' _ => ?_, ?_⟩
  · rw [found] at found'
    cases found'
    exact .inl rfl
  · have moved := rank_move plan found (answers job.index)
    simp only [Plan.step, Pool.step, found]
    refine moved.resolve_right fun still => ?_
    obtain ⟨-, full, notRunning, notSent⟩ := still
    rcases free with holds | ⟨waits, room⟩
    · rcases job with ⟨i, _ | _ | met | met⟩
      · cases holds
      · exact notRunning rfl
      · exact notSent met rfl
      · cases holds
    · have := full waits
      omega

/-- **There is an end**, if at least one job may run at a time. -/
theorem ends (some_runs : 0 < plan.limit) (answers : Nat → χ) (initial : γ) :
    Inevitable plan.step (plan.Admits answers) (fun q => q.shared.finished = true) (plan.start initial) := by
  refine Inevitable.of_rank (I := Inv plan answers initial) rank (fun q a h admitted => ?_)
    (fun q a h admitted => ?_) (fun q h unfinished => ?_) Inv.start
  · exact Inv.run ((Trace.refl q).tail a admitted) h
  · cases a with
    | env e => exact rank_event plan e q
    | spawn job => exact admitted.elim
    | move t met =>
      simp only [Plan.step, Pool.step]
      cases found : q.threads[t]? with
      | none => exact .inl rfl
      | some job => exact (rank_move plan found met).symm.imp And.left id
  · -- a job that holds a place moves; without one the places are free for those that wait
    by_cases holds : ∃ job ∈ q.threads, job.pc.holds = true
    · obtain ⟨job, member, here⟩ := holds
      exact progress_move answers member (.inl here)
    have free : q.shared.slots = 0 := by
      rw [h.slots, List.countP_eq_zero]
      exact fun job member here => holds ⟨job, member, here⟩
    by_cases waits : ∃ job ∈ q.threads, job.pc = .waiting
    · obtain ⟨job, member, here⟩ := waits
      exact progress_move answers member (.inr ⟨here, by omega⟩)
    have down : q.shared.left = 0 := by
      rw [h.left, List.countP_eq_zero]
      rintro ⟨i, _ | _ | met | met⟩ member here
      · exact waits ⟨_, member, rfl⟩
      · exact holds ⟨_, member, rfl⟩
      · exact holds ⟨_, member, rfl⟩
      · cases here
    have event (e : Event) (changes : plan.event e q.shared ≠ q.shared) :
        ∃ a, plan.Admits answers q a ∧ rank (plan.step a q) < rank q := by
      refine ⟨.env e, trivial, (rank_event plan e q).resolve_left fun same => changes ?_⟩
      exact congrArg Pool.shared same
    cases closed : q.shared.closed with
    | false =>
      refine event .close fun same => ?_
      simp only [Plan.event, if_pos down] at same
      rw [← same] at closed
      cases closed
    | true =>
      cases waiting : q.shared.channel with
      | nil =>
        refine event .finish fun same => unfinished ?_
        simp only [Plan.event, if_pos (show q.shared.closed = true ∧ q.shared.channel = [] from ⟨closed, waiting⟩)]
          at same
        rw [← same]
      | cons arrival rest =>
        refine event .receive fun same => ?_
        simp only [Plan.event, waiting] at same
        have shorter := congrArg (·.channel.length) same
        simp [waiting] at shorter

end

/-! ## Results put in their places -/

/-- Results that come in any order, each put in the place of its index, stand in order. -/
theorem foldl_set {α : Type*} {arrivals : List (Nat × α)} {value : Nat → α}
    (values : ∀ a ∈ arrivals, a.2 = value a.1) (init : List α) (i : Nat) :
    (arrivals.foldl (fun places a => places.set a.1 a.2) init)[i]? =
      if i < init.length ∧ i ∈ arrivals.map Prod.fst then some (value i) else init[i]? := by
  induction arrivals generalizing init with
  | nil => simp
  | cons a arrivals ih =>
    rw [List.foldl_cons, ih fun b later => values b (List.mem_cons_of_mem _ later), List.length_set,
      List.getElem?_set, values a List.mem_cons_self, List.map_cons]
    by_cases same : a.1 = i
    · subst same
      by_cases inside : a.1 < init.length <;> simp [inside]
    · have later : i ∈ a.1 :: arrivals.map Prod.fst ↔ i ∈ arrivals.map Prod.fst := by simp [Ne.symm same]
      rw [if_neg same]
      exact if_congr (and_congr_right fun _ => later.symm) rfl rfl

theorem foldl_set_all {α : Type*} {arrivals : List (Nat × α)} {n : Nat} {value : Nat → α}
    (once : (arrivals.map Prod.fst).Perm (List.range n)) (values : ∀ a ∈ arrivals, a.2 = value a.1)
    {init : List α} (places : init.length = n) :
    arrivals.foldl (fun places a => places.set a.1 a.2) init = (List.range n).map value := by
  apply List.ext_getElem?
  intro i
  simp only [foldl_set values, places, once.mem_iff, List.mem_range, and_self, List.getElem?_map]
  split
  · rename_i inside
    rw [List.getElem?_range inside]
    rfl
  · rename_i outside
    rw [List.getElem?_eq_none (by omega), List.getElem?_eq_none (by rw [List.length_range]; omega)]
    rfl

end ForkJoin
