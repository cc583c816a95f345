import Blobcache.Lib.Interleaving
import Blobcache.Lib.Program

/-!
# Programs among others

Several programs call one service, and between two calls of one of them the others may make
any calls that are permitted. `Rely s s'` says that such calls lead from `s` to `s'`. A
program is `Safe` in a state if, with any such calls around its own, it makes permitted calls
only, and has the postcondition in whatever state it returns and ever after.

Safe programs are composed by `Safe.bind`. What is safe stays safe when others call
(`Safe.rely`), and so does what is left of it after its own next call (`Safe.advance`): so
safety is a local property in the sense of `Pool.invariant_indexed`. A program that is written
for one service can be run on another that implements its calls (`translate`).
-/

namespace Service
set_option autoImplicit false
open Execution

variable {C D : Type → Type} {α β σ : Type}

/-- Each call is made by the program that implements it. -/
def Program.translate (implement : (β : Type) → C β → Program D β) : Program C α → Program D α
  | .ret result => .ret result
  | .call c next => (implement _ c).bind fun answer => (next answer).translate implement

theorem Program.translate_bind (implement : (β : Type) → C β → Program D β) (first : Program C α)
    (rest : α → Program C β) :
    (first >>= rest).translate implement =
      first.translate implement >>= fun result => (rest result).translate implement := by
  show (first.bind rest).translate implement = (first.translate implement).bind _
  induction first with
  | ret result => rfl
  | call c next ih =>
    simp only [Program.bind, Program.translate, ih]
    exact (Program.bind_assoc (implement _ c) _ _).symm

section

variable (serve : Server C σ) (permitted : (β : Type) → C β → Prop)

/-- Permitted calls lead from the one state to the other. -/
abbrev Rely : σ → σ → Prop :=
  Trace (fun (c : (β : Type) × C β) s => (serve c.1 c.2 s).2) (fun _ c => permitted c.1 c.2)

/-- Whatever others do, the program makes permitted calls only and returns with `Q`. -/
inductive Safe (Q : α → σ → Prop) : σ → Program C α → Prop where
  | ret {s : σ} {result : α} (holds : ∀ s', Rely serve permitted s s' → Q result s') : Safe Q s (.ret result)
  | call {s : σ} {β : Type} {c : C β} {next : β → Program C α} (allowed : permitted β c)
      (later : ∀ s', Rely serve permitted s s' → Safe Q (serve β c s').2 (next (serve β c s').1)) :
      Safe Q s (.call c next)

end

variable {serve : Server C σ} {permitted : (β : Type) → C β → Prop} {Q : α → σ → Prop} {R : β → σ → Prop} {s s' : σ}

theorem Rely.step (c : C β) (allowed : permitted β c) (s : σ) : Rely serve permitted s (serve β c s).2 :=
  .tail (⟨β, c⟩ : (β : Type) × C β) (.refl s) allowed

namespace Safe

/-- Calls of others do no harm. -/
theorem rely {program : Program C α} (safe : Safe serve permitted Q s program) (others : Rely serve permitted s s') :
    Safe serve permitted Q s' program := by
  cases safe with
  | ret holds => exact .ret fun t later => holds t (others.trans later)
  | call allowed later => exact .call allowed fun t more => later t (others.trans more)

/-- The program's own next call is one that the others rely on. -/
theorem advance {program : Program C α} (safe : Safe serve permitted Q s program) :
    Rely serve permitted s (program.advance serve s).1 ∧
      Safe serve permitted Q (program.advance serve s).1 (program.advance serve s).2 := by
  cases safe with
  | ret holds => exact ⟨.refl _, .ret holds⟩
  | call allowed later => exact ⟨.step _ allowed s, later s (.refl s)⟩

theorem of_ret {result : α} (safe : Safe serve permitted Q s (.ret result)) : Q result s := by
  cases safe with
  | ret holds => exact holds s (.refl s)

/-- **The rule of composition.** The state in which the first program returns is one that
permitted calls lead to, and its postcondition holds from then on. -/
theorem bind_stable {first : Program C α} {rest : α → Program C β} (safe : Safe serve permitted Q s first)
    (continues : ∀ result t, Rely serve permitted s t → (∀ u, Rely serve permitted t u → Q result u) →
      Safe serve permitted R t (rest result)) :
    Safe serve permitted R s (first >>= rest) := by
  show Safe serve permitted R s (first.bind rest)
  induction safe with
  | ret holds => exact continues _ _ (.refl _) holds
  | call allowed _ ih =>
    refine .call allowed fun t others => ih t others fun result u more holds => ?_
    exact continues result u (others.trans ((Rely.step _ allowed t).trans more)) holds

theorem bind {first : Program C α} {rest : α → Program C β} (safe : Safe serve permitted Q s first)
    (continues : ∀ result t, Rely serve permitted s t → Q result t → Safe serve permitted R t (rest result)) :
    Safe serve permitted R s (first >>= rest) :=
  safe.bind_stable fun result t others holds => continues result t others (holds t (.refl t))

/-- A call that is implemented by a safe program, and what comes after it. -/
theorem implemented {implement : (β : Type) → D β → Program C β} {c : D α} {rest : α → Program D β}
    (safe : Safe serve permitted Q s (implement α c))
    (continues : ∀ result t, Rely serve permitted s t → (∀ u, Rely serve permitted t u → Q result u) →
      Safe serve permitted R t ((rest result).translate implement)) :
    Safe serve permitted R s ((Program.perform c >>= rest).translate implement) :=
  safe.bind_stable continues

/-- **The rule of consequence.** -/
theorem mono {Q' : α → σ → Prop} {program : Program C α} (safe : Safe serve permitted Q s program)
    (weaker : ∀ result t, Rely serve permitted s t → Q result t → Q' result t) :
    Safe serve permitted Q' s program := by
  induction safe with
  | ret holds => exact .ret fun t others => weaker _ t others (holds t others)
  | call allowed _ ih =>
    refine .call allowed fun t others => ih t others fun result u more => ?_
    exact weaker result u (others.trans ((Rely.step _ allowed t).trans more))

/-- The result is converted. -/
theorem map {program : Program C α} (safe : Safe serve permitted Q s program) (convert : α → β)
    (holds : ∀ result t, Q result t → R (convert result) t) :
    Safe serve permitted R s (program >>= fun result => pure (convert result)) :=
  safe.bind_stable fun result _ _ returned => .ret fun u more => holds result u (returned u more)

/-- A single call, with those of others around it. -/
theorem perform {c : C α} (allowed : permitted α c)
    (answered : ∀ t u, Rely serve permitted s t → Rely serve permitted (serve α c t).2 u → Q (serve α c t).1 u) :
    Safe serve permitted Q s (.perform c) :=
  .call allowed fun t before => .ret fun u after => answered t u before after

end Safe

end Service
