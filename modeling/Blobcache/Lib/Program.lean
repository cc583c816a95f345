import Mathlib.Logic.Basic

/-!
# Programs that call a service

A program computes with the answers of a service that keeps a state. It is kept as a tree,
so that it can be run as a whole (`run`), or one call at a time between the calls of other
programs (`advance`). A service can in turn be implemented by programs that call another
one. `run_related` is the rule of refinement: two services whose single calls agree under
a relation of their states agree on whole programs.
-/

namespace Service
set_option autoImplicit false

/-- A call in `C β` is answered by a value of type `β`. -/
inductive Program (C : Type → Type) (α : Type) : Type 1 where
  | ret (result : α)
  | call {β : Type} (c : C β) (next : β → Program C α)

/-- A call that was made, with its answer. -/
structure Answered (C : Type → Type) : Type 1 where
  {β : Type}
  call : C β
  answer : β

/-- How a service answers its calls. -/
abbrev Server (C : Type → Type) (σ : Type) : Type 1 := (β : Type) → C β → σ → β × σ

namespace Program

variable {C : Type → Type} {α β σ τ : Type}

def bind : Program C α → (α → Program C β) → Program C β
  | .ret result, rest => rest result
  | .call c next, rest => .call c fun answer => (next answer).bind rest

instance : Monad (Program C) where
  pure := .ret
  bind := .bind

/-- The program that makes one call. -/
def perform (c : C α) : Program C α := .call c .ret

/-- Makes all calls, without anyone else's in between. -/
def run (serve : Server C σ) : Program C α → σ → α × σ
  | .ret result, s => (result, s)
  | .call c next, s => (next (serve _ c s).1).run serve (serve _ c s).2

/-- The calls that `run` makes, in their order. -/
def history (serve : Server C σ) : Program C α → σ → List (Answered C)
  | .ret _, _ => []
  | .call c next, s => ⟨c, (serve _ c s).1⟩ :: (next (serve _ c s).1).history serve (serve _ c s).2

/-- Makes the next call. -/
def advance (serve : Server C σ) : Program C α → σ → σ × Program C α
  | .ret result, s => (s, .ret result)
  | .call c next, s => ((serve _ c s).2, next (serve _ c s).1)

/-- Every call the program can make meets the condition. -/
inductive Calls (P : (β : Type) → C β → Prop) : Program C α → Prop where
  | ret (result : α) : Calls P (.ret result)
  | call {β : Type} {c : C β} {next : β → Program C α} (meets : P β c) (later : ∀ answer, Calls P (next answer)) :
    Calls P (.call c next)

theorem bind_assoc {γ : Type} (first : Program C α) (middle : α → Program C β) (last : β → Program C γ) :
    first >>= middle >>= last = first >>= fun answer => middle answer >>= last := by
  show (first.bind middle).bind last = first.bind _
  induction first with
  | ret result => rfl
  | call c next ih => exact congrArg (Program.call c) (funext ih)

@[simp]
theorem run_pure (serve : Server C σ) (result : α) (s : σ) :
    (pure result : Program C α).run serve s = (result, s) := rfl

@[simp]
theorem run_perform (serve : Server C σ) (c : C α) (s : σ) : (perform c).run serve s = serve _ c s := rfl

@[simp]
theorem run_bind (serve : Server C σ) (first : Program C α) (rest : α → Program C β) (s : σ) :
    (first >>= rest).run serve s = (rest (first.run serve s).1).run serve (first.run serve s).2 := by
  show (first.bind rest).run serve s = _
  induction first generalizing s with
  | ret result => rfl
  | call c next ih => exact ih _ _

@[simp]
theorem history_pure (serve : Server C σ) (result : α) (s : σ) : (pure result : Program C α).history serve s = [] := rfl

@[simp]
theorem history_perform_bind (serve : Server C σ) (c : C β) (rest : β → Program C α) (s : σ) :
    (perform c >>= rest).history serve s = ⟨c, (serve _ c s).1⟩ :: (rest (serve _ c s).1).history serve (serve _ c s).2 :=
  rfl

theorem calls_bind {P : (β : Type) → C β → Prop} {first : Program C α} {rest : α → Program C β}
    (here : first.Calls P) (later : ∀ result, (rest result).Calls P) : (first >>= rest).Calls P := by
  show (first.bind rest).Calls P
  induction here with
  | ret result => exact later result
  | call meets _ ih => exact .call meets ih

theorem calls_perform {P : (β : Type) → C β → Prop} {c : C α} (meets : P α c) : (perform c).Calls P :=
  .call meets .ret

/-- **The rule of refinement.** -/
theorem run_related {serve : Server C σ} {serve' : Server C τ} {P : (β : Type) → C β → Prop} {R : σ → τ → Prop}
    (related : ∀ β c s t, P β c → R s t → (serve β c s).1 = (serve' β c t).1 ∧ R (serve β c s).2 (serve' β c t).2)
    {program : Program C α} (calls : program.Calls P) {s : σ} {t : τ} (start : R s t) :
    (program.run serve s).1 = (program.run serve' t).1 ∧ R (program.run serve s).2 (program.run serve' t).2 := by
  induction calls generalizing s t with
  | ret result => exact ⟨rfl, start⟩
  | @call _ c next meets _ ih =>
    obtain ⟨same, after⟩ := related _ c s t meets start
    simp only [run]
    rw [same]
    exact ih _ after

@[simp]
theorem advance_bind (serve : Server C σ) (c : C β) (rest : β → Program C α) (s : σ) :
    (perform c >>= rest).advance serve s = ((serve _ c s).2, rest (serve _ c s).1) := rfl

theorem perform_bind_bind {γ : Type} (c : C β) (rest : β → Program C α) (last : α → Program C γ) :
    perform c >>= rest >>= last = perform c >>= fun answer => rest answer >>= last := rfl

/-- What is left to run after a call has the outcome of the whole. -/
theorem run_advance (serve : Server C σ) (program : Program C α) (s : σ) :
    (program.advance serve s).2.run serve (program.advance serve s).1 = program.run serve s := by
  cases program <;> rfl

/-- The rule of refinement, for one call. -/
theorem advance_related {serve : Server C σ} {serve' : Server C τ} {P : (β : Type) → C β → Prop} {R : σ → τ → Prop}
    (related : ∀ β c s t, P β c → R s t → (serve β c s).1 = (serve' β c t).1 ∧ R (serve β c s).2 (serve' β c t).2)
    {program : Program C α} (calls : program.Calls P) {s : σ} {t : τ} (start : R s t) :
    R (program.advance serve s).1 (program.advance serve' t).1 ∧
      (program.advance serve s).2 = (program.advance serve' t).2 ∧ (program.advance serve s).2.Calls P := by
  cases calls with
  | ret result => exact ⟨start, rfl, .ret result⟩
  | @call _ c next meets later =>
    obtain ⟨same, after⟩ := related _ c s t meets start
    exact ⟨after, congrArg next same, later _⟩

end Program

end Service
