import Mathlib.Logic.Relation
import Mathlib.Data.List.Basic

/-!
# Running step functions

Two ways a step function is executed. A *call* is a frame that is stepped until it
returns a result (`drive`); a loop of a program is such a frame, and `drive_rule` is its
loop rule: an invariant, a rank and one symbolic step give termination and the
postcondition at once. A *run* is a finite sequence of labelled steps of a whole system
(`Trace`), each of which meets a side condition on the state it starts from;
`Trace.invariant` is its induction rule. What every run comes to that goes on as long as it
can is `Inevitable`; `Inevitable.of_rank` is the rule for it.
-/

namespace Execution
set_option autoImplicit false

variable {σ φ ρ ι : Type*}

/-- Steps the frame until it returns; the index counts the steps taken, so that a step
can consult a schedule. `none` when the fuel is used up. -/
def drive (step : Nat → σ → φ → σ × (φ ⊕ ρ)) : Nat → Nat → σ → φ → Option (σ × ρ)
  | 0, _, _, _ => none
  | fuel + 1, i, s, f =>
    match step i s f with
    | (s', .inl f') => drive step fuel (i + 1) s' f'
    | (s', .inr r) => some (s', r)

/-- **The loop rule**, for an invariant that may depend on the number of steps taken. A step that keeps
the invariant and lowers the rank, and returns only with the postcondition, returns within any fuel
above the rank. -/
theorem drive_rule_indexed {step : Nat → σ → φ → σ × (φ ⊕ ρ)} (Inv : Nat → σ → φ → Prop)
    (Post : σ → ρ → Prop) (μ : φ → Nat)
    (continues : ∀ i s f s' f', Inv i s f → step i s f = (s', .inl f') → Inv (i + 1) s' f' ∧ μ f' < μ f)
    (returns : ∀ i s f s' r, Inv i s f → step i s f = (s', .inr r) → Post s' r) :
    ∀ fuel i s f, μ f < fuel → Inv i s f → ∃ s' r, drive step fuel i s f = some (s', r) ∧ Post s' r := by
  intro fuel
  induction fuel with
  | zero => intro i s f enough; omega
  | succ fuel ih =>
    intro i s f enough inv
    rcases taken : step i s f with ⟨s', next | r⟩
    · obtain ⟨inv', less⟩ := continues i s f s' next inv taken
      obtain ⟨t, r, run, post⟩ := ih (i + 1) s' next (by omega) inv'
      exact ⟨t, r, by simp only [drive, taken]; exact run, post⟩
    · exact ⟨s', r, by simp only [drive, taken], returns i s f s' r inv taken⟩

/-- The loop rule for an invariant that does not. -/
theorem drive_rule {step : Nat → σ → φ → σ × (φ ⊕ ρ)} (Inv : σ → φ → Prop)
    (Post : σ → ρ → Prop) (μ : φ → Nat)
    (continues : ∀ i s f s' f', Inv s f → step i s f = (s', .inl f') → Inv s' f' ∧ μ f' < μ f)
    (returns : ∀ i s f s' r, Inv s f → step i s f = (s', .inr r) → Post s' r) :
    ∀ fuel i s f, μ f < fuel → Inv s f → ∃ s' r, drive step fuel i s f = some (s', r) ∧ Post s' r :=
  drive_rule_indexed (fun _ => Inv) Post μ continues returns

/-- The state after a list of steps. -/
def after (step : ι → σ → σ) (acts : List ι) (s : σ) : σ := acts.foldl (fun t a => step a t) s

theorem after_append (step : ι → σ → σ) (acts more : List ι) (s : σ) :
    after step (acts ++ more) s = after step more (after step acts s) := List.foldl_append

/-- The runs of a system: every step taken meets `ok` in the state it starts from. -/
inductive Trace (step : ι → σ → σ) (ok : σ → ι → Prop) : σ → σ → Prop where
  | refl (s : σ) : Trace step ok s s
  | tail {s t : σ} (a : ι) : Trace step ok s t → ok t a → Trace step ok s (step a t)

namespace Trace

variable {step : ι → σ → σ} {ok ok' : σ → ι → Prop}

/-- **The invariant rule.** What every admitted step preserves holds along every run. -/
theorem invariant {I : σ → Prop} (preserved : ∀ t a, I t → ok t a → I (step a t)) {s t : σ}
    (run : Trace step ok s t) (start : I s) : I t := by
  induction run with
  | refl => exact start
  | tail a _ admitted ih => exact preserved _ a ih admitted

/-- A run that meets a condition meets every weaker one. -/
theorem weaken (weaker : ∀ s a, ok s a → ok' s a) {s t : σ} (run : Trace step ok s t) : Trace step ok' s t := by
  induction run with
  | refl => exact .refl _
  | tail a _ admitted ih => exact .tail a ih (weaker _ a admitted)

theorem trans {s t u : σ} (first : Trace step ok s t) (second : Trace step ok t u) : Trace step ok s u := by
  induction second with
  | refl => exact first
  | tail a _ admitted ih => exact .tail a ih admitted

/-- A list of steps is a run when each is admitted in the state it starts from. -/
theorem of_list (acts : List ι) (s : σ)
    (admitted : ∀ k : Fin acts.length, ok (after step (acts.take k) s) (acts.get k)) :
    Trace step ok s (after step acts s) := by
  induction acts generalizing s with
  | nil => exact .refl s
  | cons a acts ih =>
    apply ((Trace.refl s).tail a (admitted ⟨0, by simp⟩)).trans
    apply ih
    intro k
    exact admitted k.succ

/-- The same, where each step is given with what the list has before it and after it. -/
theorem of_splits (acts : List ι) (s : σ)
    (admitted : ∀ earlier a later, acts = earlier ++ a :: later → ok (after step earlier s) a) :
    Trace step ok s (after step acts s) := by
  refine of_list acts s fun k => admitted _ _ (acts.drop (k + 1)) ?_
  rw [List.get_eq_getElem, List.getElem_cons_drop, List.take_append_drop]

end Trace

/-- Every run that goes on as long as it can comes to a state with `Q`. Steps that change
nothing do not count. -/
inductive Inevitable (step : ι → σ → σ) (ok : σ → ι → Prop) (Q : σ → Prop) : σ → Prop where
  | now {s : σ} (here : Q s) : Inevitable step ok Q s
  | later {s : σ} (goes_on : ∃ a, ok s a ∧ step a s ≠ s)
      (next : ∀ a, ok s a → step a s ≠ s → Inevitable step ok Q (step a s)) : Inevitable step ok Q s

namespace Inevitable

variable {step : ι → σ → σ} {ok : σ → ι → Prop} {Q Q' : σ → Prop}

/-- **The rule of ranks.** Every step that changes something lowers the rank, and as long as `Q`
does not hold there is such a step. -/
theorem of_rank {I : σ → Prop} (μ : σ → Nat) (preserved : ∀ t a, I t → ok t a → I (step a t))
    (lowers : ∀ t a, I t → ok t a → step a t = t ∨ μ (step a t) < μ t)
    (progress : ∀ t, I t → ¬ Q t → ∃ a, ok t a ∧ μ (step a t) < μ t) {s : σ} (start : I s) :
    Inevitable step ok Q s := by
  induction rank : μ s using Nat.strongRecOn generalizing s with
  | ind n ih =>
    by_cases here : Q s
    · exact .now here
    · obtain ⟨a, admitted, lower⟩ := progress s start here
      refine .later ⟨a, admitted, fun same => ?_⟩ fun a admitted changes => ?_
      · rw [same] at lower
        exact absurd lower (Nat.lt_irrefl _)
      · have lower := (lowers s a start admitted).resolve_left changes
        exact ih _ (by omega) (preserved s a start admitted) rfl

theorem exists_run {s : σ} (h : Inevitable step ok Q s) : ∃ t, Trace step ok s t ∧ Q t := by
  induction h with
  | now here => exact ⟨_, .refl _, here⟩
  | later goes_on _ ih =>
    obtain ⟨a, admitted, changes⟩ := goes_on
    obtain ⟨t, run, there⟩ := ih a admitted changes
    exact ⟨t, ((Trace.refl _).tail a admitted).trans run, there⟩

/-- What holds of every state a run reaches can be used of the state it comes to. -/
theorem imp {s : σ} (h : Inevitable step ok Q s) (implied : ∀ t, Trace step ok s t → Q t → Q' t) :
    Inevitable step ok Q' s := by
  induction h with
  | now here => exact .now (implied _ (.refl _) here)
  | later goes_on _ ih =>
    refine .later goes_on fun a admitted changes => ih a admitted changes fun t run => ?_
    exact implied t (((Trace.refl _).tail a admitted).trans run)

end Inevitable

end Execution
