import Blobcache.Coordinator.StoreLock
import Mathlib.Data.Fintype.Basic
import Mathlib.Tactic.FinCases

/-!
# Mutual exclusion of the store-from-source lock

While a server's lease lasts, Redis has its entry, with its token and deadline; so nobody
else obtains the key, and the server is the only one that holds it. Every step keeps this
but one: a `Release` by a server whose own lease has expired deletes the entry of whoever
holds the lock by then, because the coordinator looks the token up in its table
(`late_release`). The invariant therefore needs that no `Release` arrives while another
server holds the lock.
-/

namespace Blobcache.Coordinator
set_option autoImplicit false
open Execution Lease

variable {Server : Type}

/-- Redis has the entry of every lease that lasts, and one server holds a key at most. -/
structure Backed (s : Servers Server) : Prop where
  entry : ∀ x key e, s.claims x key = some e → s.lock.redis.now < e.deadline → s.lock.redis.entries key = some e
  unique : ∀ x y key, s.Holds x key → s.Holds y key → x = y

theorem Backed.start : Backed (Servers.start : Servers Server) :=
  ⟨fun _ _ _ claimed => (by cases claimed), fun _ _ _ held => by obtain ⟨_, claimed, _⟩ := held; cases claimed⟩

/-- A key that is held is seen in Redis, and cannot be obtained. -/
theorem Backed.excludes {s : Servers Server} (h : Backed s) : Excludes s := by
  intro x y key ttl _ held
  obtain ⟨e, claimed, lasts⟩ := held
  have seen : s.lock.redis.get key = some e := Store.get_eq_some.mpr ⟨h.entry x key e claimed lasts, lasts⟩
  simp [RedisLock.acquire, Store.setIfAbsent, seen]

/-- Nobody holds a key that Redis does not have. -/
theorem Backed.free {s : Servers Server} (h : Backed s) {key : String} (absent : s.lock.redis.get key = none)
    (x : Server) : ¬ s.Holds x key := by
  rintro ⟨e, claimed, lasts⟩
  rw [Store.get_eq_some.mpr ⟨h.entry x key e claimed lasts, lasts⟩] at absent
  cases absent

/-- **The rule of a step that grants nothing**: it is enough that every lease that lasts
after the step was held before it, and is what Redis has. -/
theorem Backed.of_held {s s' : Servers Server} (h : Backed s)
    (held : ∀ y key e, s'.claims y key = some e → s'.lock.redis.now < e.deadline →
      s.Holds y key ∧ s'.lock.redis.entries key = some e) : Backed s' := by
  constructor
  · intro y key e claimed lasts
    exact (held y key e claimed lasts).2
  · rintro y z key ⟨e, claimed, lasts⟩ ⟨e', claimed', lasts'⟩
    exact h.unique y z key (held y key e claimed lasts).1 (held z key e' claimed' lasts').1

/-- Only an `Acquire` that finds no entry succeeds. -/
theorem acquire_cases (l : RedisLock) (key : String) (ttl : Nat) :
    (l.acquire key ttl = (l, .error .notObtained)) ∨
      l.redis.get key = none ∧
        l.acquire key ttl =
          (⟨l.redis.set key (some ⟨l.nextToken, l.redis.now + ttl⟩),
            Function.update l.locks key (some l.nextToken), l.nextToken + 1⟩, .ok ()) := by
  simp only [RedisLock.acquire, Store.setIfAbsent]
  cases seen : l.redis.get key with
  | some e => exact .inl rfl
  | none => exact .inr ⟨rfl, rfl⟩

theorem release_redis (l : RedisLock) (key : String) :
    (l.release key).1.redis = l.redis ∨ (l.release key).1.redis = l.redis.set key none := by
  unfold RedisLock.release
  split
  · exact Store.deleteIfMatch_cases _ _ _
  · exact .inl rfl

theorem refresh_redis (l : RedisLock) (key : String) (ttl : Nat) :
    (l.refresh key ttl).1.redis = l.redis ∨
      ∃ e, l.redis.get key = some e ∧
        (l.refresh key ttl).1.redis = l.redis.set key (some ⟨e.token, l.redis.now + ttl⟩) := by
  unfold RedisLock.refresh
  split
  · exact .inl rfl
  · rename_i token _
    have cases := l.redis.extendIfMatch_cases key token ttl
    split <;> simp_all

section

variable [DecidableEq Server] {s : Servers Server}

theorem setClaim_self (s : Servers Server) (x : Server) (key : String) (e : Option (Entry Token)) :
    s.setClaim x key e x key = e := by
  simp [Servers.setClaim]

theorem setClaim_other (s : Servers Server) {x x' : Server} {key key' : String} (e : Option (Entry Token))
    (other : (x', key') ≠ (x, key)) : s.setClaim x key e x' key' = s.claims x' key' := by
  by_cases same : x' = x
  · subst same
    have : key' ≠ key := fun k => other (by rw [k])
    simp [Servers.setClaim, Function.update_of_ne this]
  · simp [Servers.setClaim, Function.update_of_ne same]

theorem Backed.tick (h : Backed s) (seconds : Nat) : Backed (s.step (.tick seconds)) := by
  apply h.of_held
  intro y key e claimed lasts
  have earlier : s.lock.redis.now < e.deadline := by
    simp only [Servers.step, Store.advance] at lasts
    omega
  exact ⟨⟨e, claimed, earlier⟩, h.entry y key e claimed earlier⟩

theorem Backed.acquire (h : Backed s) (x : Server) (key : String) (ttl : Nat) :
    Backed (s.step (.acquire x key ttl)) := by
  rcases acquire_cases s.lock key ttl with refused | ⟨absent, granted⟩
  · simp only [Servers.step, refused]
    exact h
  · have free := h.free absent
    simp only [Servers.step, granted, Store.set_self]
    -- a claim other than the new one is an old one, on another key
    have old {y : Server} {key' : String} {e : Entry Token} (other : (y, key') ≠ (x, key))
        (claimed : s.setClaim x key (some ⟨s.lock.nextToken, s.lock.redis.now + ttl⟩) y key' = some e)
        (lasts : s.lock.redis.now < e.deadline) : s.Holds y key' ∧ s.claims y key' = some e ∧ key' ≠ key := by
      rw [setClaim_other s _ other] at claimed
      refine ⟨⟨e, claimed, lasts⟩, claimed, ?_⟩
      rintro rfl
      exact free y ⟨e, claimed, lasts⟩
    constructor
    · intro y key' e claimed lasts
      by_cases new : (y, key') = (x, key)
      · cases new
        show (s.lock.redis.set key _).entries key = some e
        rw [Store.set_self]
        exact (setClaim_self s x key _).symm.trans claimed
      · obtain ⟨-, claimed', different⟩ := old new claimed lasts
        rw [Store.set_other _ _ different]
        exact h.entry y key' e claimed' lasts
    · rintro y z key' ⟨e, claimed, lasts⟩ ⟨e', claimed', lasts'⟩
      by_cases first : (y, key') = (x, key)
      · by_cases second : (z, key') = (x, key)
        · exact (Prod.mk.inj first).1.trans (Prod.mk.inj second).1.symm
        · exact absurd (Prod.mk.inj first).2 (old second claimed' lasts').2.2
      · obtain ⟨held, -, different⟩ := old first claimed lasts
        have second : (z, key') ≠ (x, key) := fun same => different (Prod.mk.inj same).2
        exact h.unique y z key' held (old second claimed' lasts').1

theorem Backed.release (h : Backed s) {x : Server} {key : String} (own : ∀ y, y ≠ x → ¬ s.Holds y key) :
    Backed (s.step (.release x key)) := by
  apply h.of_held
  intro y key' e claimed lasts
  have other : (y, key') ≠ (x, key) := by
    intro same
    cases same
    exact absurd ((setClaim_self s x key none).symm.trans claimed) (by simp)
  have before : s.claims y key' = some e := (setClaim_other s none other).symm.trans claimed
  have now : (s.lock.release key).1.redis.now = s.lock.redis.now := by
    rcases release_redis s.lock key with same | deleted
    · rw [same]
    · rw [deleted, Store.set_now]
  simp only [Servers.step, now] at lasts
  have held : s.Holds y key' := ⟨e, before, lasts⟩
  -- nobody else holds the key that is given back, so this is another key
  have different : key' ≠ key := by
    rintro rfl
    exact own y (fun same => other (by rw [same])) held
  refine ⟨held, ?_⟩
  show (s.lock.release key).1.redis.entries key' = some e
  rcases release_redis s.lock key with same | deleted
  · rw [same]
    exact h.entry y key' e before lasts
  · rw [deleted, Store.set_other _ _ different]
    exact h.entry y key' e before lasts

/-- An extension reaches only leases that last. -/
theorem extended_lasts {redis : Store String Token} {key : String} {e : Entry Token}
    (lasts : redis.now < (Servers.extended redis key e).deadline) : redis.now < e.deadline := by
  by_contra expired
  apply expired
  simp only [Servers.extended] at lasts
  split at lasts
  · rwa [if_neg (fun both => expired both.2)] at lasts
  · exact lasts

theorem Backed.refresh (h : Backed s) (x : Server) (key : String) (ttl : Nat) :
    Backed (s.step (.refresh x key ttl)) := by
  apply h.of_held
  intro y key' e claimed lasts
  have now : (s.lock.refresh key ttl).1.redis.now = s.lock.redis.now := by
    rcases refresh_redis s.lock key ttl with same | ⟨e, -, extended⟩
    · rw [same]
    · rw [extended, Store.set_now]
  obtain ⟨e₀, claimed₀, rfl⟩ := Option.map_eq_some_iff.mp claimed
  have lasts₀ : s.lock.redis.now < e₀.deadline := now ▸ extended_lasts lasts
  have entry := h.entry y key' e₀ claimed₀ lasts₀
  refine ⟨⟨e₀, claimed₀, lasts₀⟩, ?_⟩
  show (s.lock.refresh key ttl).1.redis.entries key' =
    some (Servers.extended (s.lock.refresh key ttl).1.redis key' e₀)
  rcases refresh_redis s.lock key ttl with same | ⟨e, seen, extended⟩
  · rw [same]
    simp only [Servers.extended, entry, ite_self]
  · by_cases here : key' = key
    · -- the entry that was extended is the one that was claimed
      subst here
      obtain ⟨held, -⟩ := Store.get_eq_some.mp seen
      cases entry.symm.trans held
      simp only [extended, Servers.extended, Store.set_self, Store.set_now]
      rw [if_pos ⟨trivial, lasts₀⟩]
    · have kept : (s.lock.refresh key ttl).1.redis.entries key' = some e₀ := by
        rw [extended, Store.set_other _ _ here]
        exact entry
      simp only [Servers.extended, kept, ite_self]

theorem Backed.step {a : LockAct Server} (h : Backed s) (own : OwnReleases s a) : Backed (s.step a) := by
  cases a with
  | tick seconds => exact h.tick seconds
  | acquire x key ttl => exact h.acquire x key ttl
  | refresh x key ttl => exact h.refresh x key ttl
  | release x key => exact h.release own

/-- **Mutual exclusion.** In every run in which no `Release` arrives while another server
holds the lock, no `Acquire` succeeds while another server holds it, and at most one server
holds it. -/
theorem lock_excludes (run : Trace Servers.step OwnReleases Servers.start s) :
    Excludes s ∧ ∀ x y key, s.Holds x key → s.Holds y key → x = y := by
  have backed : Backed s := run.invariant (I := Backed) (fun _ _ h own => h.step own) Backed.start
  exact ⟨backed.excludes, backed.unique⟩

end

/-- Server 0 renews its lease in time and gives the lock back; then server 1 takes it. -/
def handover : List (LockAct Nat) :=
  [.acquire 0 "k" 5, .tick 4, .refresh 0 "k" 5, .tick 4, .release 0 "k", .acquire 1 "k" 5]

theorem lock_excludes_handover :
    let s := after Servers.step handover Servers.start
    s.Holds 1 "k" ∧ Excludes s := by
  refine ⟨⟨⟨1, 13⟩, by decide, by decide⟩, (lock_excludes (Trace.of_list handover _ ?_)).1⟩
  intro k
  fin_cases k
  case «4» =>
    -- server 0 holds the lock at this point, so no other server does
    intro other different held
    have backed : Backed (after Servers.step (handover.take 4) Servers.start) :=
      (((Backed.start.acquire 0 "k" 5).tick 4).refresh 0 "k" 5).tick 4
    exact different (backed.unique other 0 "k" held ⟨⟨0, 9⟩, by decide, by decide⟩)
  all_goals exact trivial

/-- The lease of server 0 runs out and server 1 takes the lock; then server 0 gives it back. -/
def lateRelease : List (LockAct Nat) :=
  [.acquire 0 "k" 5, .tick 5, .acquire 1 "k" 5, .release 0 "k"]

/-- Server 1 holds the lock, and any other server can take it. -/
theorem late_release :
    ∃ s, Trace Servers.step (fun _ _ => True) Servers.start s ∧
      s = after Servers.step lateRelease Servers.start ∧ s.Holds 1 "k" ∧ ¬ Excludes s := by
  refine ⟨_, Trace.of_list lateRelease Servers.start fun _ => trivial, rfl, ⟨⟨1, 10⟩, by decide, by decide⟩, ?_⟩
  intro excludes
  exact excludes 1 2 "k" 5 (by decide) ⟨⟨1, 10⟩, by decide, by decide⟩ (by decide)

end Blobcache.Coordinator
