import Mathlib.Logic.Function.Basic
import Mathlib.Data.Option.Basic

/-!
# A cache with asynchronous admission, eviction and expiry

The observable behaviour of an admission-controlled in-memory cache: for a key it returns
either nothing or the last value put under it. A put of a key the cache does not store is
only an offer. It may be refused on the spot (the buffer of pending offers is full); an
accepted offer stays invisible until the policy admits it or silently drops it. A put of
a stored key updates it in place. A stored entry may be evicted at any time, and one put
with a time to live may expire: it is then invisible, but still stored until it is
evicted or put again.

Everything the policy does by itself only hides, reveals or removes entries. `Sub` says
so once, and `All`, the rule for invariants on the values held, follows it.
-/

namespace AdmissionCache
set_option autoImplicit false

inductive Phase where
  | pending
  | live
  | expired
  deriving DecidableEq, Repr

structure Entry (V : Type*) where
  value : V
  phase : Phase
  /-- Put with a time to live. -/
  expires : Bool
  deriving DecidableEq, Repr

structure Cache (K V : Type*) where
  entries : K → Option (Entry V)

namespace Cache

variable {K V : Type*}

def empty : Cache K V := ⟨fun _ => none⟩

/-- The value a reader sees. -/
def get (c : Cache K V) (k : K) : Option V :=
  match c.entries k with
  | some ⟨v, .live, _⟩ => some v
  | _ => none

/-- The value an eviction of the key removes and hands to the eviction callback. -/
def victim (c : Cache K V) (k : K) : Option V :=
  match c.entries k with
  | some ⟨v, .live, _⟩ | some ⟨v, .expired, _⟩ => some v
  | _ => none

@[simp] theorem empty_entries (k : K) : (empty : Cache K V).entries k = none := rfl

theorem get_eq_some {c : Cache K V} {k : K} {v : V} (seen : c.get k = some v) :
    ∃ x, c.entries k = some ⟨v, .live, x⟩ := by
  unfold get at seen
  split at seen
  · rename_i w x held
    exact ⟨x, by rw [held, Option.some.inj seen]⟩
  · cases seen

theorem victim_eq_some {c : Cache K V} {k : K} {v : V} (stored : c.victim k = some v) :
    ∃ e, c.entries k = some e ∧ e.value = v := by
  unfold victim at stored
  split at stored
  · rename_i held
    exact ⟨_, held, Option.some.inj stored⟩
  · rename_i held
    exact ⟨_, held, Option.some.inj stored⟩
  · cases stored

/-- Every entry of the first cache stands in the second with the same value. -/
def Sub (c' c : Cache K V) : Prop :=
  ∀ k e', c'.entries k = some e' → ∃ e, c.entries k = some e ∧ e.value = e'.value

theorem Sub.refl (c : Cache K V) : Sub c c := fun _ e' held => ⟨e', held, rfl⟩

theorem Sub.trans {a b c : Cache K V} (first : Sub a b) (second : Sub b c) : Sub a c := by
  intro k e held
  obtain ⟨e₁, held₁, same₁⟩ := first k e held
  obtain ⟨e₂, held₂, same₂⟩ := second k e₁ held₁
  exact ⟨e₂, held₂, same₂.trans same₁⟩

/-- Where the larger cache holds nothing, the smaller one does not either. -/
theorem Sub.vacant {c' c : Cache K V} (within : Sub c' c) {k : K} (vacant : c.entries k = none) :
    c'.entries k = none := by
  cases held : c'.entries k with
  | none => rfl
  | some e' =>
    obtain ⟨e, held', -⟩ := within k e' held
    rw [vacant] at held'
    cases held'

theorem get_vacant {c : Cache K V} {k : K} (vacant : c.entries k = none) : c.get k = none := by
  simp only [get, vacant]

/-- Every value held, visible or not, satisfies `p` together with its key. -/
def All (p : K → V → Prop) (c : Cache K V) : Prop :=
  ∀ k e, c.entries k = some e → p k e.value

section

variable {p : K → V → Prop} {c : Cache K V}

theorem All.empty : All p (Cache.empty : Cache K V) := fun k e held => by simp at held

theorem All.sub {c' : Cache K V} (h : All p c) (within : Sub c' c) : All p c' := by
  intro k e' held
  obtain ⟨e, held', same⟩ := within k e' held
  rw [← same]
  exact h k e held'

theorem All.get (h : All p c) {k : K} {v : V} (seen : c.get k = some v) : p k v := by
  obtain ⟨x, held⟩ := get_eq_some seen
  exact h k _ held

end

variable [DecidableEq K]

/-- Replaces what is held under one key. -/
def modify (c : Cache K V) (k : K) (e : Option (Entry V)) : Cache K V :=
  ⟨Function.update c.entries k e⟩

/-- Puts a value; the Boolean is false when the offer was refused. -/
def put (c : Cache K V) (refused expires : Bool) (k : K) (v : V) : Cache K V × Bool :=
  match c.entries k with
  | some ⟨_, .live, _⟩ | some ⟨_, .expired, _⟩ => (c.modify k (some ⟨v, .live, expires⟩), true)
  | _ => if refused then (c, false) else (c.modify k (some ⟨v, .pending, expires⟩), true)

def erase (c : Cache K V) (k : K) : Cache K V := c.modify k none

def eraseAll (c : Cache K V) (ks : List K) : Cache K V := ks.foldl erase c

/-- The policy accepts a pending offer. -/
def accept (c : Cache K V) (k : K) : Cache K V :=
  match c.entries k with
  | some ⟨v, .pending, x⟩ => c.modify k (some ⟨v, .live, x⟩)
  | _ => c

/-- The policy drops a pending offer without telling anyone. -/
def reject (c : Cache K V) (k : K) : Cache K V :=
  match c.entries k with
  | some ⟨_, .pending, _⟩ => c.erase k
  | _ => c

/-- The time to live of an entry runs out. -/
def expire (c : Cache K V) (k : K) : Cache K V :=
  match c.entries k with
  | some ⟨v, .live, true⟩ => c.modify k (some ⟨v, .expired, true⟩)
  | _ => c

@[simp] theorem modify_self (c : Cache K V) (k : K) (e : Option (Entry V)) :
    (c.modify k e).entries k = e := by
  simp [modify]

@[simp] theorem modify_other (c : Cache K V) {k k' : K} (e : Option (Entry V)) (other : k' ≠ k) :
    (c.modify k e).entries k' = c.entries k' := by
  simp [modify, Function.update_of_ne other]

/-- What a put leaves under its key: the new value, or what was there. -/
theorem put_self (c : Cache K V) (refused expires : Bool) (k : K) (v : V) {e : Entry V}
    (held : (c.put refused expires k v).1.entries k = some e) : e.value = v ∨ c.entries k = some e := by
  unfold put at held
  split at held
  · left; simp at held; rw [← held]
  · left; simp at held; rw [← held]
  · split at held
    · exact .inr held
    · left; simp at held; rw [← held]

theorem put_other (c : Cache K V) (refused expires : Bool) {k k' : K} (v : V) (other : k' ≠ k) :
    (c.put refused expires k v).1.entries k' = c.entries k' := by
  unfold put
  split
  · exact modify_other c _ other
  · exact modify_other c _ other
  · split
    · rfl
    · exact modify_other c _ other

theorem get_put_other (c : Cache K V) (refused expires : Bool) {k k' : K} (v : V) (other : k' ≠ k) :
    (c.put refused expires k v).1.get k' = c.get k' := by
  simp only [get, put_other c refused expires v other]

/-- A put of a key that was not visible shows the new value at most. -/
theorem get_put_hidden {c : Cache K V} {k : K} (hidden : c.get k = none) (refused expires : Bool) (v : V) :
    (c.put refused expires k v).1.get k = none ∨ (c.put refused expires k v).1.get k = some v := by
  unfold put
  split
  · rename_i held
    simp [get, held] at hidden
  · right; simp [get]
  · split
    · exact .inl hidden
    · left; simp [get]

/-- A put answers false only when its offer was refused. -/
theorem refused_of_put {c c' : Cache K V} {refused expires : Bool} {k : K} {v : V}
    (answer : c.put refused expires k v = (c', false)) : refused = true := by
  unfold put at answer
  split at answer
  · cases answer
  · cases answer
  · split at answer
    · assumption
    · cases answer

/-- An offer for a key that is not held is not taken when it is refused. -/
theorem put_refused {c : Cache K V} {k : K} (vacant : c.entries k = none) (expires : Bool) (v : V) :
    c.put true expires k v = (c, false) := by
  simp only [put, vacant, if_true]

theorem Sub.modify {c : Cache K V} {k : K} {e : Option (Entry V)}
    (known : ∀ e', e = some e' → ∃ e₀, c.entries k = some e₀ ∧ e₀.value = e'.value) : Sub (c.modify k e) c := by
  intro k' e' held
  by_cases same : k' = k
  · subst same
    exact known e' (by simpa using held)
  · exact ⟨e', by rwa [modify_other c e same] at held, rfl⟩

theorem entries_erase (c : Cache K V) (k k' : K) :
    (c.erase k).entries k' = if k' = k then none else c.entries k' := by
  simp only [erase, modify, Function.update_apply]

/-- The keys that are erased hold nothing, and the others what they held. -/
theorem entries_eraseAll (c : Cache K V) (ks : List K) (k : K) :
    (c.eraseAll ks).entries k = if k ∈ ks then none else c.entries k := by
  induction ks generalizing c with
  | nil => rfl
  | cons k' ks ih =>
    refine (ih (c.erase k')).trans ?_
    rw [entries_erase]
    by_cases rest : k ∈ ks
    · simp [rest]
    · simp [rest]

theorem erase_sub (c : Cache K V) (k : K) : Sub (c.erase k) c :=
  Sub.modify fun _ held => by cases held

theorem eraseAll_sub (c : Cache K V) (ks : List K) : Sub (c.eraseAll ks) c := by
  induction ks generalizing c with
  | nil => exact Sub.refl c
  | cons k ks ih => exact (ih (c.erase k)).trans (erase_sub c k)

theorem accept_sub (c : Cache K V) (k : K) : Sub (c.accept k) c := by
  unfold accept
  split
  · rename_i held
    exact Sub.modify fun e' new => ⟨_, held, by cases new; rfl⟩
  · exact Sub.refl c

theorem reject_sub (c : Cache K V) (k : K) : Sub (c.reject k) c := by
  unfold reject
  split
  · exact erase_sub c k
  · exact Sub.refl c

theorem expire_sub (c : Cache K V) (k : K) : Sub (c.expire k) c := by
  unfold expire
  split
  · rename_i held
    exact Sub.modify fun e' new => ⟨_, held, by cases new; rfl⟩
  · exact Sub.refl c

theorem All.put {p : K → V → Prop} {c : Cache K V} (h : All p c) (refused expires : Bool) {k : K} {v : V} (new : p k v) :
    All p (c.put refused expires k v).1 := by
  intro k' e held
  by_cases same : k' = k
  · subst same
    rcases put_self c refused expires k' v held with value | old
    · rw [value]; exact new
    · exact h k' e old
  · rw [put_other c refused expires v same] at held
    exact h k' e held

end Cache

end AdmissionCache
