import Mathlib.Logic.Function.Basic

/-!
# Tokens with a time to live

A key-value store in which an entry is a token that lasts until a deadline, and in which an
entry is put only where there is none, and extended or deleted only by its token: what a
lock over a shared store is built from. Time is a counter that only advances.
-/

namespace Lease
set_option autoImplicit false

structure Entry (T : Type*) where
  token : T
  deadline : Nat
  deriving DecidableEq, Repr

structure Store (K T : Type*) where
  entries : K → Option (Entry T)
  now : Nat

namespace Store

variable {K T : Type*}

def empty : Store K T := ⟨fun _ => none, 0⟩

/-- The entry under a key; it is gone from its deadline on. -/
def get (s : Store K T) (k : K) : Option (Entry T) :=
  match s.entries k with
  | some e => if s.now < e.deadline then some e else none
  | none => none

def advance (s : Store K T) (time : Nat) : Store K T := { s with now := s.now + time }

theorem get_eq_some {s : Store K T} {k : K} {e : Entry T} :
    s.get k = some e ↔ s.entries k = some e ∧ s.now < e.deadline := by
  unfold get
  cases held : s.entries k with
  | none => simp
  | some e' =>
    simp only [Option.ite_none_right_eq_some, Option.some.injEq]
    constructor
    · rintro ⟨before, rfl⟩
      exact ⟨rfl, before⟩
    · rintro ⟨rfl, before⟩
      exact ⟨before, rfl⟩

variable [DecidableEq K]

def set (s : Store K T) (k : K) (e : Option (Entry T)) : Store K T :=
  { s with entries := Function.update s.entries k e }

@[simp] theorem set_self (s : Store K T) (k : K) (e : Option (Entry T)) : (s.set k e).entries k = e := by
  simp [set]

theorem set_other (s : Store K T) {k k' : K} (e : Option (Entry T)) (other : k' ≠ k) :
    (s.set k e).entries k' = s.entries k' := by
  simp [set, Function.update_of_ne other]

@[simp] theorem set_now (s : Store K T) (k : K) (e : Option (Entry T)) : (s.set k e).now = s.now := rfl

def setIfAbsent (s : Store K T) (k : K) (token : T) (ttl : Nat) : Store K T × Bool :=
  match s.get k with
  | some _ => (s, false)
  | none => (s.set k (some ⟨token, s.now + ttl⟩), true)

variable [DecidableEq T]

def deleteIfMatch (s : Store K T) (k : K) (token : T) : Store K T × Bool :=
  match s.get k with
  | some e => if e.token = token then (s.set k none, true) else (s, false)
  | none => (s, false)

def extendIfMatch (s : Store K T) (k : K) (token : T) (ttl : Nat) : Store K T × Bool :=
  match s.get k with
  | some e => if e.token = token then (s.set k (some ⟨token, s.now + ttl⟩), true) else (s, false)
  | none => (s, false)

/-- What a deletion can do. -/
theorem deleteIfMatch_cases (s : Store K T) (k : K) (token : T) :
    (s.deleteIfMatch k token).1 = s ∨ (s.deleteIfMatch k token).1 = s.set k none := by
  unfold deleteIfMatch
  split
  · split
    · exact .inr rfl
    · exact .inl rfl
  · exact .inl rfl

/-- What an extension can do. -/
theorem extendIfMatch_cases (s : Store K T) (k : K) (token : T) (ttl : Nat) :
    (s.extendIfMatch k token ttl).1 = s ∨
      ∃ e, s.get k = some e ∧ (s.extendIfMatch k token ttl).1 = s.set k (some ⟨e.token, s.now + ttl⟩) := by
  unfold extendIfMatch
  split
  · rename_i e seen
    split
    · rename_i same
      exact .inr ⟨e, seen, by rw [same]⟩
    · exact .inl rfl
  · exact .inl rfl

end Store

end Lease
