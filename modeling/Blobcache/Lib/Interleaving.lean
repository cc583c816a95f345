import Blobcache.Lib.Execution

/-!
# Interleaved threads over a shared state

Any number of threads, each a local state, move one at a time over a shared state; new
threads may start and an environment may act at any moment. A run is a `Trace` of such
actions. `Pool.invariant_indexed` is the thread-modular rule: a property of the shared state
and one of every local state, kept together by each move, hold along every run.
`Pool.simulates` carries a run over to another shared state that the moves keep related.
-/

namespace Interleaving
set_option autoImplicit false
open Execution

variable {σ τ ε χ : Type*}

structure Pool (σ τ : Type*) where
  shared : σ
  threads : List τ

inductive Action (τ ε χ : Type*) where
  | env (e : ε)
  | spawn (thread : τ)
  | move (t : Nat) (choice : χ)

/-- One action; moving a thread that does not exist changes nothing. -/
def Pool.step (env : ε → σ → σ) (move : χ → σ → τ → σ × τ) (a : Action τ ε χ) (p : Pool σ τ) : Pool σ τ :=
  match a with
  | .env e => { p with shared := env e p.shared }
  | .spawn thread => { p with threads := p.threads ++ [thread] }
  | .move t choice =>
    match p.threads[t]? with
    | none => p
    | some thread =>
      let moved := move choice p.shared thread
      ⟨moved.1, p.threads.set t moved.2⟩

/-- What each thread keeps in its own moves it never loses. -/
theorem Pool.thread_step {env : ε → σ → σ} {move : χ → σ → τ → σ × τ} {P : τ → Prop}
    (kept : ∀ choice s thread, P thread → P (move choice s thread).2) {p : Pool σ τ} {i : Nat} {thread : τ}
    (here : p.threads[i]? = some thread) (holds : P thread) (a : Action τ ε χ) :
    ∃ thread', (Pool.step env move a p).threads[i]? = some thread' ∧ P thread' := by
  obtain ⟨inside, -⟩ := List.getElem?_eq_some_iff.mp here
  cases a with
  | env e => exact ⟨thread, here, holds⟩
  | spawn other => exact ⟨thread, (List.getElem?_append_left inside).trans here, holds⟩
  | move t choice =>
    simp only [Pool.step]
    cases found : p.threads[t]? with
    | none => exact ⟨thread, here, holds⟩
    | some moving =>
      dsimp only
      by_cases same : t = i
      · subst same
        rw [here] at found
        cases found
        exact ⟨_, List.getElem?_set_self inside, kept choice p.shared thread holds⟩
      · rw [List.getElem?_set_ne same]
        exact ⟨thread, here, holds⟩

/-- **The thread-modular rule**, for local properties that speak of the shared state and of the
thread's number too: an action also has to keep those of the threads that do not move. -/
theorem Pool.invariant_indexed {env : ε → σ → σ} {move : χ → σ → τ → σ × τ}
    {ok : Pool σ τ → Action τ ε χ → Prop} {I : σ → Prop} {L : Nat → σ → τ → Prop} {first last : Pool σ τ}
    (envs : ∀ p e, ok p (.env e) → I p.shared →
      I (env e p.shared) ∧ ∀ i other, L i p.shared other → L i (env e p.shared) other)
    (spawns : ∀ p thread, ok p (.spawn thread) → I p.shared →
      (∀ i other, p.threads[i]? = some other → L i p.shared other) → first.threads.length ≤ p.threads.length →
      L p.threads.length p.shared thread)
    (moves : ∀ p t choice thread, ok p (.move t choice) → p.threads[t]? = some thread → I p.shared →
      L t p.shared thread → I (move choice p.shared thread).1 ∧
        L t (move choice p.shared thread).1 (move choice p.shared thread).2 ∧
        ∀ i other, L i p.shared other → L i (move choice p.shared thread).1 other)
    (run : Trace (Pool.step env move) ok first last) (shared : I first.shared)
    (threads : ∀ i thread, first.threads[i]? = some thread → L i first.shared thread) :
    I last.shared ∧ ∀ i thread, last.threads[i]? = some thread → L i last.shared thread := by
  refine (run.invariant (I := fun q => first.threads.length ≤ q.threads.length ∧ I q.shared ∧
    ∀ i thread, q.threads[i]? = some thread → L i q.shared thread) ?_ ⟨Nat.le_refl _, shared, threads⟩).2
  rintro q a ⟨more, shared, threads⟩ admitted
  cases a with
  | env e =>
    obtain ⟨after, kept⟩ := envs q e admitted shared
    exact ⟨more, after, fun i other at_ => kept i other (threads i other at_)⟩
  | spawn thread =>
    refine ⟨?_, shared, fun i other at_ => ?_⟩
    · rw [Pool.step, List.length_append]
      omega
    rcases Nat.lt_or_ge i q.threads.length with old | new
    · rw [Pool.step, List.getElem?_append_left old] at at_
      exact threads i other at_
    · rw [Pool.step, List.getElem?_append_right new, List.getElem?_singleton] at at_
      split at at_
      · cases at_
        rw [show i = q.threads.length by omega]
        exact spawns q thread admitted shared threads more
      · cases at_
  | move t choice =>
    simp only [Pool.step]
    cases found : q.threads[t]? with
    | none => exact ⟨more, shared, threads⟩
    | some thread =>
      obtain ⟨after, moved, kept⟩ := moves q t choice thread admitted found shared (threads t thread found)
      refine ⟨by rwa [List.length_set], after, fun i other at_ => ?_⟩
      dsimp only at at_
      rw [List.getElem?_set] at at_
      split at at_
      · rename_i here
        split at at_
        · cases at_
          cases here
          exact moved
        · cases at_
      · exact kept i other (threads i other at_)

/-- The rule for local properties that do not depend on the thread's number. -/
theorem Pool.invariant_stable {env : ε → σ → σ} {move : χ → σ → τ → σ × τ}
    {ok : Pool σ τ → Action τ ε χ → Prop} {I : σ → Prop} {L : σ → τ → Prop}
    (envs : ∀ p e, ok p (.env e) → I p.shared →
      I (env e p.shared) ∧ ∀ other, L p.shared other → L (env e p.shared) other)
    (spawns : ∀ p thread, ok p (.spawn thread) → I p.shared → L p.shared thread)
    (moves : ∀ p t choice thread, ok p (.move t choice) → p.threads[t]? = some thread → I p.shared →
      L p.shared thread → I (move choice p.shared thread).1 ∧
        L (move choice p.shared thread).1 (move choice p.shared thread).2 ∧
        ∀ other, L p.shared other → L (move choice p.shared thread).1 other)
    {p q : Pool σ τ} (run : Trace (Pool.step env move) ok p q) (shared : I p.shared)
    (threads : ∀ thread ∈ p.threads, L p.shared thread) :
    I q.shared ∧ ∀ thread ∈ q.threads, L q.shared thread := by
  obtain ⟨after, kept⟩ := Pool.invariant_indexed (L := fun _ => L)
    (fun q e admitted before => (envs q e admitted before).imp_right fun keeps _ => keeps)
    (fun q thread admitted before _ _ => spawns q thread admitted before)
    (fun q t choice thread admitted found before here =>
      (moves q t choice thread admitted found before here).imp_right (And.imp_right fun keeps _ => keeps))
    run shared (fun _ thread found => threads thread (List.mem_of_getElem? found))
  refine ⟨after, fun thread member => ?_⟩
  obtain ⟨i, found⟩ := List.mem_iff_getElem?.mp member
  exact kept i thread found

/-- The rule for local properties that do not speak of the shared state. -/
theorem Pool.invariant {env : ε → σ → σ} {move : χ → σ → τ → σ × τ}
    {ok : Pool σ τ → Action τ ε χ → Prop} {I : σ → Prop} {L : τ → Prop}
    (envs : ∀ p e, ok p (.env e) → I p.shared → I (env e p.shared))
    (spawns : ∀ p thread, ok p (.spawn thread) → L thread)
    (moves : ∀ p t choice thread, ok p (.move t choice) → p.threads[t]? = some thread → I p.shared → L thread →
      I (move choice p.shared thread).1 ∧ L (move choice p.shared thread).2)
    {p q : Pool σ τ} (run : Trace (Pool.step env move) ok p q) (shared : I p.shared)
    (threads : ∀ thread ∈ p.threads, L thread) : I q.shared ∧ ∀ thread ∈ q.threads, L thread := by
  refine Pool.invariant_stable (L := fun _ => L) ?_ ?_ ?_ run shared threads
  · exact fun q e admitted before => ⟨envs q e admitted before, fun _ kept => kept⟩
  · exact fun q thread admitted _ => spawns q thread admitted
  · intro q t choice thread admitted found before here
    obtain ⟨after, moved⟩ := moves q t choice thread admitted found before here
    exact ⟨after, moved, fun _ kept => kept⟩

/-- **The rule of simulation.** A run is also one of the same threads over another shared state,
if the shared states stay related and each thread moves alike. -/
theorem Pool.simulates {σ' : Type*} {env : ε → σ → σ} {env' : ε → σ' → σ'} {move : χ → σ → τ → σ × τ}
    {move' : χ → σ' → τ → σ' × τ} {ok : Action τ ε χ → Prop} {R : σ → σ' → Prop} {T : τ → Prop}
    (envs : ∀ e s s', R s s' → R (env e s) (env' e s')) (spawns : ∀ thread, ok (.spawn thread) → T thread)
    (moves : ∀ choice s s' thread, R s s' → T thread → R (move choice s thread).1 (move' choice s' thread).1 ∧
      (move choice s thread).2 = (move' choice s' thread).2 ∧ T (move choice s thread).2)
    {p q : Pool σ τ} (run : Trace (Pool.step env move) (fun _ => ok) p q) {s' : σ'} (start : R p.shared s')
    (threads : ∀ thread ∈ p.threads, T thread) :
    ∃ t', Trace (Pool.step env' move') (fun _ => ok) ⟨s', p.threads⟩ ⟨t', q.threads⟩ ∧ R q.shared t' ∧
      ∀ thread ∈ q.threads, T thread := by
  induction run with
  | refl => exact ⟨s', .refl _, start, threads⟩
  | @tail q a _ admitted ih =>
    obtain ⟨t', run', related, threads'⟩ := ih
    have next := run'.tail a admitted
    cases a with
    | env e => exact ⟨_, next, envs e _ _ related, threads'⟩
    | spawn thread =>
      refine ⟨_, next, related, fun other member => ?_⟩
      rcases List.mem_append.mp member with old | new
      · exact threads' other old
      · rw [List.mem_singleton.mp new]
        exact spawns thread admitted
    | move t choice =>
      simp only [Pool.step] at next ⊢
      cases found : q.threads[t]? with
      | none =>
        rw [found] at next
        exact ⟨_, next, related, threads'⟩
      | some thread =>
        rw [found] at next
        obtain ⟨related', same, kept⟩ := moves choice _ _ thread related (threads' thread (List.mem_of_getElem? found))
        dsimp only at next ⊢
        rw [← same] at next
        refine ⟨_, next, related', fun other member => ?_⟩
        rcases List.mem_or_eq_of_mem_set member with old | new
        · exact threads' other old
        · rw [new]
          exact kept

end Interleaving
