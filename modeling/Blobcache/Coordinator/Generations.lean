import Blobcache.Lib.Interleaving
import Blobcache.Coordinator.FsNodes

/-!
# Inode generations

`SetFsNode` reads the node, adds one to its generation and writes it back, in two Redis
commands; `RemoveFsNode` deletes it. Any number of clients make such calls on one node, and
their commands come in any order. A call in progress is the rest of its program, and we
keep which generation it has read and which generations have been stored.

The generations stored are 0, 1, 2 and so on as long as every call has read the one that
was stored last when it writes; the first call that has not stores a generation again.
-/

namespace Blobcache.Coordinator
set_option autoImplicit false
open Execution Service Interleaving
open Redis (Keyspace Fields Command)
open BlobCacheMetadata

/-- A call in progress, and the generation it has read. -/
structure Caller where
  program : Program Command (Except CoordinatorError Unit)
  read : Option UInt64 := none

/-- Redis, and the generations that calls of `SetFsNode` have stored, the first one first. -/
structure Versions where
  redis : Keyspace
  stored : List UInt64 := []

/-- The generation that a command stores. -/
def storedBy {β : Type} : Command β → β → List UInt64
  | .hset _ fields, .ok () => [(BlobFsMetadata.ofFields fields).gen]
  | _, _ => []

/-- The generation that a caller has read after a command. -/
def readBy {β : Type} : Command β → β → Option UInt64 → Option UInt64
  | .hgetall _, .ok res, _ => if res = [] then none else some (BlobFsMetadata.ofFields res).gen
  | _, _, before => before

/-- The next command of a call. -/
def Caller.move (_ : Unit) (s : Versions) (caller : Caller) : Versions × Caller :=
  match caller.program with
  | .ret _ => (s, caller)
  | .call command next =>
    let answer := Keyspace.serve _ command s.redis
    (⟨answer.2, s.stored ++ storedBy command answer.1⟩, ⟨next answer.1, readBy command answer.1 caller.read⟩)

abbrev Callers := Pool Versions Caller

abbrev Callers.step : Action Caller Empty Unit → Callers → Callers := Pool.step Empty.elim Caller.move

/-- The calls that start are on the node, and the metadata they set has generation 0. -/
def OnNode (id : String) (_ : Callers) : Action Caller Empty Unit → Prop
  | .spawn caller => (∃ m : BlobFsMetadata, m.gen = 0 ∧ caller = ⟨setFsNode id m, none⟩) ∨
      caller = ⟨removeFsNode id, none⟩
  | _ => True

/-- The next command writes the node. -/
def Caller.Writes (caller : Caller) : Prop :=
  match caller.program with
  | .call (.hset _ _) _ => True
  | _ => False

/-- A call that writes has read the generation that was stored last. -/
def UpToDate (p : Callers) : Action Caller Empty Unit → Prop
  | .move t _ => ∀ caller, p.threads[t]? = some caller → caller.Writes → caller.read = p.shared.stored.getLast?
  | _ => True

/-! ## Where a call can be -/

/-- What a call can be at, `stored` being the generations stored so far. -/
inductive At (id : String) (stored : List UInt64) : Caller → Prop
  | set (m : BlobFsMetadata) : m.gen = 0 → At id stored ⟨setFsNode id m, none⟩
  | remove : At id stored ⟨removeFsNode id, none⟩
  | first (m : BlobFsMetadata) : m.gen = 0 → At id stored ⟨writeFsNode id m, none⟩
  | next (m : BlobFsMetadata) (gen : UInt64) : gen ∈ stored → m.gen = gen + 1 → At id stored ⟨writeFsNode id m, some gen⟩
  | done (result : Except CoordinatorError Unit) (read : Option UInt64) : At id stored ⟨.ret result, read⟩

/-- The node, if there is one, has a generation that has been stored. -/
def Stored (id : String) (s : Versions) : Prop :=
  ∃ node, Holds s.redis id node ∧ ∀ m, node = some m → m.gen ∈ s.stored

theorem At.mono {id : String} {stored more : List UInt64} (grows : ∀ gen ∈ stored, gen ∈ more) {caller : Caller}
    (here : At id stored caller) : At id more caller := by
  cases here with
  | set m zero => exact .set m zero
  | remove => exact .remove
  | first m zero => exact .first m zero
  | next m gen member succ => exact .next m gen (grows gen member) succ
  | done result read => exact .done result read

theorem Caller.move_bind {β : Type} (s : Versions) (command : Command β)
    (next : β → Program Command (Except CoordinatorError Unit)) (read : Option UInt64) :
    Caller.move () s ⟨Program.perform command >>= next, read⟩ =
      let answer := Keyspace.serve _ command s.redis
      (⟨answer.2, s.stored ++ storedBy command answer.1⟩, ⟨next answer.1, readBy command answer.1 read⟩) := rfl

section

variable {s : Versions} {id : String} {node : Option BlobFsMetadata}

theorem moved_set (holds : Holds s.redis id node) (m : BlobFsMetadata) (read : Option UInt64) :
    Caller.move () s ⟨setFsNode id m, read⟩ = (s, ⟨writeFsNode id (nextVersion m node), node.map (·.gen)⟩) := by
  obtain ⟨res, answer, fields⟩ := holds.hgetall
  have gen : (if res = [] then none else some (BlobFsMetadata.ofFields res).gen) = node.map (·.gen) := by
    cases node with
    | none => exact if_pos fields
    | some old => rw [if_neg fields.some_field, fields.ofFields, Option.map_some]
  simp only [setFsNode, Caller.move_bind, Keyspace.serve, storedBy, List.append_nil, answer, readBy, gen,
    fields.incremented]

theorem moved_write (holds : Holds s.redis id node) (m : BlobFsMetadata) (read : Option UInt64) :
    ∃ ks, Caller.move () s ⟨writeFsNode id m, read⟩ = (⟨ks, s.stored ++ [m.gen]⟩, ⟨.ret (.ok ()), read⟩) ∧
      Holds ks id (some m) := by
  obtain ⟨res, answer, -⟩ := holds.hgetall
  have gen : BlobFsMetadata.ofFields m.toSlice = m := (Written.toSlice m).ofFields
  refine ⟨s.redis.put (metadataFsNode id) (some (.hash (res.setAll m.toSlice))), ?_, .of_put (Written.setAll res m)⟩
  simp only [writeFsNode, Caller.move_bind, Keyspace.serve, Keyspace.hset, if_neg (toSlice_ne_nil m), answer,
    storedBy, gen, readBy]
  rfl

theorem moved_remove (s : Versions) (id : String) (read : Option UInt64) :
    Caller.move () s ⟨removeFsNode id, read⟩ =
      (⟨s.redis.put (metadataFsNode id) none, s.stored⟩, ⟨.ret (.ok ()), read⟩) := by
  simp only [removeFsNode, Caller.move_bind, Keyspace.serve, storedBy, List.append_nil, readBy]
  rfl

/-- What one command of a call on the node can do: the caller moves on and stores nothing, or
it stores the next generation. -/
inductive Moved (id : String) (s : Versions) (caller : Caller) : Versions × Caller → Prop
  | on {ks : Keyspace} {caller' : Caller} : ¬ caller.Writes → Stored id ⟨ks, s.stored⟩ → At id s.stored caller' →
      Moved id s caller (⟨ks, s.stored⟩, caller')
  | store {ks : Keyspace} (m : BlobFsMetadata) : caller.Writes → Holds ks id (some m) →
      (caller.read = none ∧ m.gen = 0 ∨ ∃ gen ∈ s.stored, caller.read = some gen ∧ m.gen = gen + 1) →
      Moved id s caller (⟨ks, s.stored ++ [m.gen]⟩, ⟨.ret (.ok ()), caller.read⟩)

theorem At.moved {caller : Caller} (here : At id s.stored caller) (stored : Stored id s) :
    Moved id s caller (caller.move () s) := by
  obtain ⟨node, holds, known⟩ := stored
  cases here with
  | set m zero =>
    rw [moved_set holds]
    refine .on (fun writes => writes) ⟨node, holds, known⟩ ?_
    cases node with
    | none => exact .first m zero
    | some old => exact .next _ old.gen (known old rfl) rfl
  | remove =>
    rw [moved_remove]
    refine .on (fun writes => writes) ⟨none, Keyspace.put_self .., fun m some => by cases some⟩ (.done _ _)
  | first m zero =>
    obtain ⟨ks, taken, held⟩ := moved_write holds m none
    rw [taken]
    exact .store m trivial held (.inl ⟨rfl, zero⟩)
  | next m gen member succ =>
    obtain ⟨ks, taken, held⟩ := moved_write holds m (some gen)
    rw [taken]
    exact .store m trivial held (.inr ⟨gen, member, rfl, succ⟩)
  | done result read => exact .on (fun writes => writes) ⟨node, holds, known⟩ (.done result read)

end

/-! ## The generations stored -/

/-- The generations stored are 0, 1, 2 and so on. -/
def Numbered (stored : List UInt64) : Prop := stored = (List.range stored.length).map UInt64.ofNat

theorem Numbered.nodup {stored : List UInt64} (numbered : Numbered stored) (few : stored.length ≤ 2 ^ 64) :
    stored.Nodup := by
  rw [numbered]
  refine List.Nodup.map_on ?_ List.nodup_range
  intro i inI j inJ same
  have values := congrArg UInt64.toNat same
  rw [UInt64.toNat_ofNat', UInt64.toNat_ofNat'] at values
  rw [List.mem_range] at inI inJ
  rwa [Nat.mod_eq_of_lt (by omega), Nat.mod_eq_of_lt (by omega)] at values

theorem Numbered.append {stored : List UInt64} (numbered : Numbered stored) {gen : UInt64}
    (next : gen = UInt64.ofNat stored.length) : Numbered (stored ++ [gen]) := by
  unfold Numbered
  rw [List.length_append, List.length_singleton, List.range_succ, List.map_append, ← numbered, next]
  rfl

theorem Numbered.mem {stored : List UInt64} (numbered : Numbered stored) {gen : UInt64} :
    gen ∈ stored ↔ ∃ i < stored.length, gen = UInt64.ofNat i := by
  nth_rewrite 1 [numbered]
  simp only [List.mem_map, List.mem_range, eq_comm]

theorem Numbered.last {stored : List UInt64} (numbered : Numbered stored) :
    stored.getLast? = if stored.length = 0 then none else some (UInt64.ofNat (stored.length - 1)) := by
  nth_rewrite 1 [numbered]
  rw [List.getLast?_map, List.getLast?_range]
  split <;> rfl

/-- A call that has read the generation stored last stores the next one. -/
theorem Numbered.store {s : Versions} {caller : Caller} {gen : UInt64} (numbered : Numbered s.stored)
    (read : caller.read = none ∧ gen = 0 ∨ ∃ old ∈ s.stored, caller.read = some old ∧ gen = old + 1)
    (last : caller.read = s.stored.getLast?) : gen = UInt64.ofNat s.stored.length := by
  rw [numbered.last] at last
  rcases read with ⟨none, rfl⟩ | ⟨old, member, some, rfl⟩
  · rw [none] at last
    split at last
    · rename_i empty
      rw [empty]
      rfl
    · cases last
  · rw [some] at last
    split at last
    · cases last
    · rename_i nonempty
      cases last
      rw [← UInt64.ofNat_one, ← UInt64.ofNat_add, Nat.sub_add_cancel (Nat.pos_of_ne_zero nonempty)]

/-- A call that has read another generation, or none, stores one again. -/
theorem Numbered.stale {s : Versions} {caller : Caller} {gen : UInt64} (numbered : Numbered s.stored)
    (read : caller.read = none ∧ gen = 0 ∨ ∃ old ∈ s.stored, caller.read = some old ∧ gen = old + 1)
    (stale : caller.read ≠ s.stored.getLast?) : gen ∈ s.stored := by
  rw [numbered.last] at stale
  rw [numbered.mem]
  rcases read with ⟨none, rfl⟩ | ⟨old, member, some, rfl⟩
  · rw [none] at stale
    split at stale
    · exact absurd rfl stale
    · exact ⟨0, by omega, rfl⟩
  · obtain ⟨i, below, rfl⟩ := numbered.mem.mp member
    rw [some, if_neg (by omega)] at stale
    have before : i ≠ s.stored.length - 1 := by
      rintro rfl
      exact stale rfl
    exact ⟨i + 1, by omega, by rw [← UInt64.ofNat_one, ← UInt64.ofNat_add]⟩

/-- No call is in progress, and there is no node. -/
def Callers.start (ks : Keyspace) : Callers := ⟨⟨ks, []⟩, []⟩

section

variable {ks₀ : Keyspace} {id : String} {p : Callers}

theorem moved_callers (absent : ks₀ (metadataFsNode id) = none)
    (run : Trace Callers.step (fun p a => OnNode id p a ∧ UpToDate p a) (Callers.start ks₀) p) :
    (Stored id p.shared ∧ Numbered p.shared.stored) ∧ ∀ caller ∈ p.threads, At id p.shared.stored caller := by
  refine Pool.invariant_stable (I := fun s => Stored id s ∧ Numbered s.stored) (L := fun s => At id s.stored)
    (fun _ e => e.elim) ?_ ?_ run ⟨⟨none, absent, fun m some => by cases some⟩, rfl⟩ (fun _ member => by cases member)
  · intro q caller admitted _
    rcases admitted.1 with ⟨m, zero, rfl⟩ | rfl
    · exact .set m zero
    · exact .remove
  · rintro q t ⟨⟩ caller admitted found ⟨stored, numbered⟩ here
    have moved := here.moved stored
    generalize caller.move () q.shared = after at moved
    cases moved with
    | on quiet stored' here' => exact ⟨⟨stored', numbered⟩, here', fun _ other => other⟩
    | store m writes held read =>
      have last := admitted.2 caller found writes
      refine ⟨⟨⟨some m, held, ?_⟩, numbered.append (numbered.store read last)⟩, .done _ _, fun other there => ?_⟩
      · rintro _ ⟨⟩
        simp
      · exact there.mono fun gen member => List.mem_append_left _ member

/-- **Inode generations.** As long as every call that wrote had read the generation stored
last, the generations stored are all different; the next command keeps them so exactly when
it, too, does not write, or its call has read the generation stored last. -/
theorem generations_distinct_iff (absent : ks₀ (metadataFsNode id) = none)
    (run : Trace Callers.step (fun p a => OnNode id p a ∧ UpToDate p a) (Callers.start ks₀) p)
    (few : p.shared.stored.length < 2 ^ 64) :
    p.shared.stored.Nodup ∧
      ∀ t, (Callers.step (.move t ()) p).shared.stored.Nodup ↔ UpToDate p (.move t ()) := by
  obtain ⟨⟨stored, numbered⟩, callers⟩ := moved_callers absent run
  have distinct := numbered.nodup (Nat.le_of_lt few)
  refine ⟨distinct, fun t => ?_⟩
  simp only [Callers.step, Pool.step, UpToDate]
  cases found : p.threads[t]? with
  | none => simpa using distinct
  | some caller =>
    have moved := (callers caller (List.mem_of_getElem? found)).moved stored
    simp only [Option.some.injEq, forall_eq']
    generalize caller.move () p.shared = after at moved
    cases moved with
    | on quiet _ _ => exact ⟨fun _ writes => absurd writes quiet, fun _ => distinct⟩
    | store m writes held read =>
      constructor
      · intro distinct' _
        by_contra stale
        have again := numbered.stale read stale
        exact (List.nodup_append.mp distinct').2.2 _ again _ (List.mem_singleton_self _) rfl
      · intro upToDate
        apply (numbered.append (numbered.store read (upToDate writes))).nodup
        rw [List.length_append, List.length_singleton]
        exact few

end

/-- A call that sets the node, from the start to its end. -/
def setsNode (t : Nat) : List (Action Caller Empty Unit) := [.spawn ⟨setFsNode "x" {}, none⟩, .move t (), .move t ()]

/-- Two such calls, one after the other. -/
def setsInTurn : Callers := after Callers.step (setsNode 0 ++ setsNode 1) (Callers.start .empty)

theorem generations_distinct_in_turn :
    setsInTurn.shared.stored = [0, 1] ∧
      setsInTurn.shared.stored.Nodup := by
  have run : Trace Callers.step (fun p a => OnNode "x" p a ∧ UpToDate p a) (Callers.start .empty)
      setsInTurn := by
    apply Trace.of_list
    have moves {p : Callers} {t : Nat} {caller : Caller} (found : p.threads[t]? = some caller)
        (read : caller.Writes → caller.read = p.shared.stored.getLast?) :
        OnNode "x" p (.move t ()) ∧ UpToDate p (.move t ()) := by
      refine ⟨trivial, fun other there writes => ?_⟩
      cases found.symm.trans there
      exact read writes
    rintro ⟨_ | _ | _ | _ | _ | _ | k, below⟩
    · exact ⟨.inl ⟨{}, rfl, rfl⟩, trivial⟩
    · exact moves rfl fun writes => by cases writes
    · exact moves rfl fun _ => rfl
    · exact ⟨.inl ⟨{}, rfl, rfl⟩, trivial⟩
    · exact moves rfl fun writes => by cases writes
    · exact moves rfl fun _ => rfl
    · exact absurd below (by simp [setsNode])
  exact ⟨by decide, (generations_distinct_iff rfl run (by decide)).1⟩

/-- Two calls that read before either writes store the same generation; and so do two calls
one after the other, if the node is removed in between. -/
theorem generation_stored_twice :
    (after Callers.step [.spawn ⟨setFsNode "x" {}, none⟩, .spawn ⟨setFsNode "x" {}, none⟩, .move 0 (), .move 1 (),
      .move 0 (), .move 1 ()] (Callers.start .empty)).shared.stored = [0, 0] ∧
    (after Callers.step (setsNode 0 ++ [.spawn ⟨removeFsNode "x", none⟩, .move 1 ()] ++ setsNode 2)
      (Callers.start .empty)).shared.stored = [0, 0] := by
  refine ⟨by decide, by decide⟩

end Blobcache.Coordinator
