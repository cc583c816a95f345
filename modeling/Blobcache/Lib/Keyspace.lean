import Blobcache.Lib.Program
import Mathlib.Data.List.Nodup

/-!
# The keyspace of a Redis server

Keys hold hashes or sets of strings, and a command on a key that holds the other kind of
value fails. `HSET` sets the given fields and keeps the others; `SREM` of the last member
removes the key. The commands are the calls of a `Service`.

A program that keeps each key to one kind of value meets no such failure. `TypedKeyspace` is
what it sees of its sets and of its plain strings.
-/

namespace Redis
set_option autoImplicit false
open Service

/-- The fields of a hash, each name once. -/
abbrev Fields := List (String × String)

def Fields.set (fields : Fields) (field : String × String) : Fields :=
  field :: fields.filter fun other => other.1 ≠ field.1

def Fields.setAll (fields new : Fields) : Fields := new.foldl Fields.set fields

/-- The members of a set, each once. -/
abbrev Members := List String

def Members.add (members : Members) (member : String) : Members :=
  if member ∈ members then members else members ++ [member]

def Members.remove (members : Members) (member : String) : Members := members.filter (· ≠ member)

inductive Value where
  | hash (fields : Fields)
  | set (members : Members)
  deriving DecidableEq

inductive Error where
  | wrongType
  | wrongNumberOfArguments
  deriving DecidableEq

def Error.text : Error → String
  | .wrongType => "WRONGTYPE Operation against a key holding the wrong kind of value"
  | .wrongNumberOfArguments => "ERR wrong number of arguments"

abbrev Keyspace := String → Option Value

inductive Command : Type → Type where
  | hgetall (key : String) : Command (Except Error Fields)
  | hset (key : String) (fields : Fields) : Command (Except Error Unit)
  | del (key : String) : Command (Except Error Unit)
  | sadd (key member : String) : Command (Except Error Unit)
  | srem (key member : String) : Command (Except Error Unit)
  | smembers (key : String) : Command (Except Error (List String))

namespace Keyspace

def hgetall (ks : Keyspace) (key : String) : Except Error Fields :=
  match ks key with
  | none => .ok []
  | some (.hash fields) => .ok fields
  | some (.set _) => .error .wrongType

def smembers (ks : Keyspace) (key : String) : Except Error (List String) :=
  match ks key with
  | none => .ok []
  | some (.set members) => .ok members
  | some (.hash _) => .error .wrongType

def put (ks : Keyspace) (key : String) (value : Option Value) : Keyspace := Function.update ks key value

def hset (ks : Keyspace) (key : String) (new : Fields) : Except Error Unit × Keyspace :=
  if new = [] then (.error .wrongNumberOfArguments, ks)
  else match ks.hgetall key with
    | .error e => (.error e, ks)
    | .ok fields => (.ok (), ks.put key (some (.hash (fields.setAll new))))

def sadd (ks : Keyspace) (key member : String) : Except Error Unit × Keyspace :=
  match ks.smembers key with
  | .error e => (.error e, ks)
  | .ok members => (.ok (), ks.put key (some (.set (Members.add members member))))

/-- A set without members is not kept. -/
def srem (ks : Keyspace) (key member : String) : Except Error Unit × Keyspace :=
  match ks.smembers key with
  | .error e => (.error e, ks)
  | .ok members =>
    let rest := Members.remove members member
    (.ok (), ks.put key (if rest = [] then none else some (.set rest)))

def serve : Server Command Keyspace
  | _, .hgetall key, ks => (ks.hgetall key, ks)
  | _, .hset key fields, ks => ks.hset key fields
  | _, .del key, ks => (.ok (), ks.put key none)
  | _, .sadd key member, ks => ks.sadd key member
  | _, .srem key member, ks => ks.srem key member
  | _, .smembers key, ks => (ks.smembers key, ks)

def empty : Keyspace := fun _ => none

@[simp]
theorem put_self (ks : Keyspace) (key : String) (value : Option Value) : ks.put key value key = value :=
  Function.update_self ..

@[simp]
theorem put_other (ks : Keyspace) {key other : String} (value : Option Value) (different : other ≠ key) :
    ks.put key value other = ks other :=
  Function.update_of_ne different ..

theorem hgetall_put_self (ks : Keyspace) (key : String) (fields : Fields) :
    (ks.put key (some (.hash fields))).hgetall key = .ok fields := by
  rw [hgetall, put_self]

theorem smembers_put_self (ks : Keyspace) (key : String) (members : List String) :
    (ks.put key (some (.set members))).smembers key = .ok members := by
  rw [smembers, put_self]

end Keyspace

namespace Members

theorem mem_add_iff {members : Members} {member other : String} :
    other ∈ add members member ↔ other ∈ members ∨ other = member := by
  unfold add
  split
  · rename_i present
    exact ⟨.inl, fun either => either.elim id fun same => same ▸ present⟩
  · rw [List.mem_append, List.mem_singleton]

theorem nodup_add {members : Members} (nodup : members.Nodup) (member : String) : (add members member).Nodup := by
  unfold add
  split
  · exact nodup
  · rename_i new
    exact nodup.append (List.nodup_singleton member) (by simpa using new)

theorem mem_remove_iff {members : Members} {member other : String} :
    other ∈ remove members member ↔ other ∈ members ∧ other ≠ member := by
  rw [remove, List.mem_filter, decide_eq_true_iff]

theorem nodup_remove {members : Members} (nodup : members.Nodup) (member : String) : (remove members member).Nodup :=
  nodup.filter _

end Members

namespace Fields

theorem lookup_set_self (fields : Fields) (field : String × String) :
    (fields.set field).lookup field.1 = some field.2 := by
  rw [set, List.lookup_cons, beq_self_eq_true]

theorem lookup_filter_ne (fields : Fields) {name other : String} (different : name ≠ other) :
    (fields.filter fun field => field.1 ≠ other).lookup name = fields.lookup name := by
  induction fields with
  | nil => rfl
  | cons field fields ih =>
    by_cases kept : field.1 = other
    · -- the field dropped is not the one looked up
      have skipped : (name == field.1) = false := by rw [kept]; exact beq_false_of_ne different
      rw [List.filter_cons_of_neg (by simp [kept]), List.lookup_cons, skipped]
      exact ih
    · rw [List.filter_cons_of_pos (by simp [kept]), List.lookup_cons, List.lookup_cons, ih]

theorem lookup_set_other (fields : Fields) {field : String × String} {name : String} (different : name ≠ field.1) :
    (fields.set field).lookup name = fields.lookup name := by
  rw [set, List.lookup_cons, beq_false_of_ne different]
  exact lookup_filter_ne fields different

/-- A field is as it was set, when all that set it agree. -/
theorem lookup_setAll {fields new : Fields} {name value : String}
    (agree : ∀ field ∈ new, field.1 = name → field.2 = value)
    (set : fields.lookup name = some value ∨ ∃ field ∈ new, field.1 = name) :
    (fields.setAll new).lookup name = some value := by
  induction new generalizing fields with
  | nil =>
    rcases set with old | ⟨field, member, -⟩
    · exact old
    · cases member
  | cons field new ih =>
    have later := fun other member => agree other (List.mem_cons_of_mem _ member)
    apply ih later
    by_cases here : field.1 = name
    · left
      rw [← agree field List.mem_cons_self here, ← here]
      exact lookup_set_self fields field
    · rcases set with old | ⟨other, member, there⟩
      · left
        rw [lookup_set_other fields (Ne.symm here)]
        exact old
      · rcases List.mem_cons.mp member with rfl | member
        · exact absurd there here
        · exact .inr ⟨other, member, there⟩

/-- A field is looked up in a list, when all of its name agree. -/
theorem lookup_of_mem {fields : Fields} {field : String × String} (member : field ∈ fields)
    (agree : ∀ other ∈ fields, other.1 = field.1 → other.2 = field.2) : fields.lookup field.1 = some field.2 := by
  induction fields with
  | nil => cases member
  | cons first rest ih =>
    rw [List.lookup_cons]
    by_cases here : first.1 = field.1
    · rw [here, beq_self_eq_true, agree first List.mem_cons_self here]
    · rw [beq_false_of_ne (Ne.symm here)]
      rcases List.mem_cons.mp member with rfl | member
      · exact absurd rfl here
      · exact ih member fun other later => agree other (List.mem_cons_of_mem _ later)

theorem setAll_ne_nil {fields new : Fields} (some_field : fields ≠ [] ∨ new ≠ []) : fields.setAll new ≠ [] := by
  induction new generalizing fields with
  | nil => exact some_field.resolve_right (· rfl)
  | cons field new ih => exact ih (.inl (List.cons_ne_nil _ _))

end Fields

/-- The sets and the strings of a program that keeps each key to one kind of value. `S` is what the strings say. -/
structure TypedKeyspace (S : Type) where
  sets : String → Members
  strings : String → Option S

namespace TypedKeyspace

variable {S : Type}

def empty : TypedKeyspace S := ⟨fun _ => [], fun _ => none⟩

def sadd (ks : TypedKeyspace S) (key member : String) : TypedKeyspace S :=
  { ks with sets := Function.update ks.sets key (Members.add (ks.sets key) member) }

def srem (ks : TypedKeyspace S) (key member : String) : TypedKeyspace S :=
  { ks with sets := Function.update ks.sets key (Members.remove (ks.sets key) member) }

/-- `SET` of a value, or its expiry. -/
def set (ks : TypedKeyspace S) (key : String) (value : Option S) : TypedKeyspace S :=
  { ks with strings := Function.update ks.strings key value }

theorem set_self (ks : TypedKeyspace S) (key : String) (value : Option S) : (ks.set key value).strings key = value :=
  Function.update_self ..

theorem set_other (ks : TypedKeyspace S) {key other : String} (value : Option S) (different : other ≠ key) :
    (ks.set key value).strings other = ks.strings other :=
  Function.update_of_ne different ..

theorem mem_sadd_iff {ks : TypedKeyspace S} {key key' member other : String} :
    other ∈ (ks.sadd key member).sets key' ↔ other ∈ ks.sets key' ∨ key' = key ∧ other = member := by
  unfold sadd
  by_cases same : key' = key
  · subst same
    simp only [Function.update_self, Members.mem_add_iff, true_and]
  · simp only [Function.update_of_ne same, same, false_and, or_false]

theorem mem_srem_iff {ks : TypedKeyspace S} {key key' member other : String} :
    other ∈ (ks.srem key member).sets key' ↔ other ∈ ks.sets key' ∧ ¬ (key' = key ∧ other = member) := by
  unfold srem
  by_cases same : key' = key
  · subst same
    simp only [Function.update_self, Members.mem_remove_iff, true_and, ne_eq]
  · simp only [Function.update_of_ne same, same, false_and, not_false_eq_true, and_true]

end TypedKeyspace

end Redis
