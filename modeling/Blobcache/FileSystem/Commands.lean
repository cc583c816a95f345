import Blobcache.Lib.RelyGuarantee
import Blobcache.FileSystem.Tree
import Mathlib.Data.Set.Function

/-!
# Redis commands of many clients

A call to the coordinator is several Redis commands, and between any two of them the commands
of other clients may come. Of all these commands only this is assumed: a node is written at
the key of its path, with the id, the name and the parent of the path, and a child is added to
a directory only if it is the id of a path one name longer (`Scope.Permitted`).

Then Redis has nodes and sets of children at their keys and nothing else, at every moment
(`Scope.Typed`); and a path that nobody removes stays stored and linked. So every call on the
coordinator can be given a postcondition that holds whatever the other clients do: no call
fails, a node that is returned is that of its path, and the children of a directory are nodes
of paths directly below it, no two of them the same.
-/

namespace Blobcache.FileSystem
set_option autoImplicit false
open Service Execution FilePath
open Coordinator
open Redis (Keyspace Fields Command)
open BlobCacheMetadata

/-- The paths of a run: those at which nodes are made, all that are named, and some that nobody
removes. Different paths that are named have different ids. -/
structure Scope (sha256 : List UInt8 → List UInt8) where
  made : Set (List Component)
  named : Set (List Component)
  kept : Set (List Component)
  isPath : ∀ p ∈ named, IsPath p
  made_named : made ⊆ named
  kept_named : kept ⊆ named
  distinct : Set.InjOn (idOf sha256) named

/-- A node of the path is in Redis. -/
def Stored (sha256 : List UInt8 → List UInt8) (p : List Component) (ks : Keyspace) : Prop :=
  ks (metadataFsNode (idOf sha256 p)) ≠ none

/-- The path is among the children of its directory. -/
def Linked (sha256 : List UInt8 → List UInt8) (q : List Component) (c : Component) (ks : Keyspace) : Prop :=
  ∃ ids, ks.smembers (metadataFsNodeChildren (idOf sha256 q)) = .ok ids ∧ idOf sha256 (q ++ [c]) ∈ ids

namespace Scope

variable {sha256 : List UInt8 → List UInt8} (scope : Scope sha256)

/-- The commands that the clients may make. -/
def Permitted : (β : Type) → Command β → Prop
  | _, .hgetall key => ∃ p ∈ scope.named, key = metadataFsNode (idOf sha256 p)
  | _, .hset key fields => ∃ p ∈ scope.made, ∃ m : BlobFsMetadata,
      key = metadataFsNode (idOf sha256 p) ∧ fields = m.toSlice ∧ IsNode sha256 m p
  | _, .del key => ∃ p ∈ scope.named, p ∉ scope.kept ∧ key = metadataFsNode (idOf sha256 p)
  | _, .sadd key member => ∃ q c, q ∈ scope.named ∧ q ++ [c] ∈ scope.made ∧
      key = metadataFsNodeChildren (idOf sha256 q) ∧ member = idOf sha256 (q ++ [c])
  | _, .srem key member => ∃ q c, q ∈ scope.named ∧ q ++ [c] ∈ scope.named ∧ q ++ [c] ∉ scope.kept ∧
      key = metadataFsNodeChildren (idOf sha256 q) ∧ member = idOf sha256 (q ++ [c])
  | _, .smembers key => ∃ q ∈ scope.named, key = metadataFsNodeChildren (idOf sha256 q)

/-- The id is that of a path directly below the directory. -/
def Below (q : List Component) (id : String) : Prop := ∃ c, q ++ [c] ∈ scope.made ∧ id = idOf sha256 (q ++ [c])

/-- All that is in Redis are nodes of paths, and children of directories. -/
structure Typed (ks : Keyspace) : Prop where
  node : ∀ key fields, ks key = some (.hash fields) →
    ∃ p ∈ scope.made, ∃ m, key = metadataFsNode (idOf sha256 p) ∧ Written fields m ∧ IsNode sha256 m p
  children : ∀ key members, ks key = some (.set members) → members.Nodup ∧
    ∃ q ∈ scope.named, key = metadataFsNodeChildren (idOf sha256 q) ∧ ∀ id ∈ members, scope.Below q id

/-- What other clients can do. -/
abbrev Others : Keyspace → Keyspace → Prop := Rely Keyspace.serve scope.Permitted

/-- The program is safe among the other clients. -/
abbrev Safe {α : Type} (Q : α → Keyspace → Prop) : Keyspace → Program Command α → Prop :=
  Service.Safe Keyspace.serve scope.Permitted Q

end Scope

section

variable {sha256 : List UInt8 → List UInt8} {scope : Scope sha256} {ks ks' : Keyspace} {p q : List Component} {c : Component}

theorem node_ne_children (p q : List Component) :
    metadataFsNode (idOf sha256 p) ≠ metadataFsNodeChildren (idOf sha256 q) :=
  (children_ne_node (plain_generateFsID sha256 _) _).symm

namespace Scope.Typed

theorem empty : scope.Typed .empty where
  node key fields held := by cases held
  children key members held := by cases held

/-! ## What is read -/

/-- A node of the path is read, or none. -/
theorem hgetall (typed : scope.Typed ks) (p : List Component) (named : p ∈ scope.named) :
    ∃ res, ks.hgetall (metadataFsNode (idOf sha256 p)) = .ok res ∧
      (res = [] ∧ ¬ Stored sha256 p ks ∨ p ∈ scope.made ∧ ∃ m, Written res m ∧ IsNode sha256 m p) := by
  unfold Keyspace.hgetall Stored
  cases held : ks (metadataFsNode (idOf sha256 p)) with
  | none => exact ⟨[], rfl, .inl ⟨rfl, fun stored => stored rfl⟩⟩
  | some value =>
    cases value with
    | hash fields =>
      obtain ⟨p', made, m, key, written, isNode⟩ := typed.node _ fields held
      cases scope.distinct named (scope.made_named made) (metadataFsNode_injective key)
      exact ⟨fields, rfl, .inr ⟨made, m, written, isNode⟩⟩
    | set members =>
      obtain ⟨-, q, -, key, -⟩ := typed.children _ members held
      exact absurd key (node_ne_children p q)

/-- The children of a directory are read. -/
theorem smembers (typed : scope.Typed ks) (q : List Component) (named : q ∈ scope.named) :
    ∃ ids, ks.smembers (metadataFsNodeChildren (idOf sha256 q)) = .ok ids ∧ ids.Nodup ∧ ∀ id ∈ ids, scope.Below q id := by
  unfold Keyspace.smembers
  cases held : ks (metadataFsNodeChildren (idOf sha256 q)) with
  | none => exact ⟨[], rfl, List.nodup_nil, fun id member => by cases member⟩
  | some value =>
    cases value with
    | hash fields =>
      obtain ⟨p, -, m, key, -⟩ := typed.node _ fields held
      exact absurd key.symm (node_ne_children p q)
    | set members =>
      obtain ⟨nodup, q', named', key, below⟩ := typed.children _ members held
      cases scope.distinct named named' (metadataFsNodeChildren_injective key)
      exact ⟨members, rfl, nodup, below⟩

/-! ## What is written -/

theorem put_none (typed : scope.Typed ks) (key : String) : scope.Typed (ks.put key none) where
  node other fields held := by
    by_cases same : other = key
    · rw [same, Keyspace.put_self] at held
      cases held
    · rw [Keyspace.put_other _ _ same] at held
      exact typed.node other fields held
  children other members held := by
    by_cases same : other = key
    · rw [same, Keyspace.put_self] at held
      cases held
    · rw [Keyspace.put_other _ _ same] at held
      exact typed.children other members held

theorem put_node (typed : scope.Typed ks) (made : p ∈ scope.made) {fields : Fields} {m : BlobFsMetadata}
    (written : Written fields m) (isNode : IsNode sha256 m p) :
    scope.Typed (ks.put (metadataFsNode (idOf sha256 p)) (some (.hash fields))) where
  node other fields' held := by
    by_cases same : other = metadataFsNode (idOf sha256 p)
    · rw [same, Keyspace.put_self] at held
      cases held
      exact ⟨p, made, m, same, written, isNode⟩
    · rw [Keyspace.put_other _ _ same] at held
      exact typed.node other fields' held
  children other members held := by
    by_cases same : other = metadataFsNode (idOf sha256 p)
    · rw [same, Keyspace.put_self] at held
      cases held
    · rw [Keyspace.put_other _ _ same] at held
      exact typed.children other members held

theorem put_children (typed : scope.Typed ks) (named : q ∈ scope.named) {members : List String} (nodup : members.Nodup)
    (below : ∀ id ∈ members, scope.Below q id) :
    scope.Typed (ks.put (metadataFsNodeChildren (idOf sha256 q)) (some (.set members))) where
  node other fields held := by
    by_cases same : other = metadataFsNodeChildren (idOf sha256 q)
    · rw [same, Keyspace.put_self] at held
      cases held
    · rw [Keyspace.put_other _ _ same] at held
      exact typed.node other fields held
  children other members' held := by
    by_cases same : other = metadataFsNodeChildren (idOf sha256 q)
    · rw [same, Keyspace.put_self] at held
      cases held
      exact ⟨nodup, q, named, same, below⟩
    · rw [Keyspace.put_other _ _ same] at held
      exact typed.children other members' held

/-- **Every permitted command keeps it.** -/
theorem step (typed : scope.Typed ks) {β : Type} {command : Command β} (permitted : scope.Permitted β command) :
    scope.Typed (Keyspace.serve β command ks).2 := by
  cases command with
  | hgetall key => exact typed
  | smembers key => exact typed
  | del key => exact typed.put_none key
  | hset key fields =>
    obtain ⟨p, made, m, rfl, rfl, isNode⟩ := permitted
    obtain ⟨res, answer, -⟩ := typed.hgetall p (scope.made_named made)
    simp only [Keyspace.serve, Keyspace.hset, answer, if_neg (toSlice_ne_nil m)]
    exact typed.put_node made (Written.setAll res m) isNode
  | sadd key member =>
    obtain ⟨q, c, named, made, rfl, rfl⟩ := permitted
    obtain ⟨ids, answer, nodup, below⟩ := typed.smembers q named
    simp only [Keyspace.serve, Keyspace.sadd, answer]
    refine typed.put_children named (Redis.Members.nodup_add nodup _) fun id member => ?_
    rcases Redis.Members.mem_add_iff.mp member with old | added
    · exact below id old
    · exact ⟨c, made, added⟩
  | srem key member =>
    obtain ⟨q, c, named, -, -, rfl, rfl⟩ := permitted
    obtain ⟨ids, answer, nodup, below⟩ := typed.smembers q named
    simp only [Keyspace.serve, Keyspace.srem, answer]
    split
    · exact typed.put_none _
    · exact typed.put_children named (Redis.Members.nodup_remove nodup _) fun id member =>
        below id (Redis.Members.mem_remove_iff.mp member).1

theorem others (typed : scope.Typed ks) (run : scope.Others ks ks') : scope.Typed ks' :=
  Trace.invariant (fun _ _ typed permitted => typed.step permitted) run typed

end Scope.Typed

/-! ## What stays -/

/-- A node that nobody removes stays. -/
theorem Stored.step (stored : Stored sha256 p ks) (typed : scope.Typed ks) (kept : p ∈ scope.kept) {β : Type}
    {command : Command β} (permitted : scope.Permitted β command) :
    Stored sha256 p (Keyspace.serve β command ks).2 := by
  unfold Stored at stored ⊢
  cases command with
  | hgetall key => exact stored
  | smembers key => exact stored
  | del key =>
    obtain ⟨p', named, removed, rfl⟩ := permitted
    have different : p ≠ p' := by
      rintro rfl
      exact removed kept
    have otherId := scope.distinct.ne (scope.kept_named kept) named different
    simp only [Keyspace.serve]
    rwa [Keyspace.put_other _ _ (metadataFsNode_injective.ne otherId)]
  | hset key fields =>
    obtain ⟨p', made, m, rfl, rfl, -⟩ := permitted
    obtain ⟨res, answer, -⟩ := typed.hgetall p' (scope.made_named made)
    simp only [Keyspace.serve, Keyspace.hset, answer, if_neg (toSlice_ne_nil m)]
    by_cases same : metadataFsNode (idOf sha256 p) = metadataFsNode (idOf sha256 p')
    · rw [same, Keyspace.put_self]
      exact Option.some_ne_none _
    · rwa [Keyspace.put_other _ _ same]
  | sadd key member =>
    obtain ⟨q, c, named, made, rfl, rfl⟩ := permitted
    obtain ⟨ids, answer, -⟩ := typed.smembers q named
    simp only [Keyspace.serve, Keyspace.sadd, answer]
    rwa [Keyspace.put_other _ _ (node_ne_children p q)]
  | srem key member =>
    obtain ⟨q, c, named, -, -, rfl, rfl⟩ := permitted
    obtain ⟨ids, answer, -⟩ := typed.smembers q named
    simp only [Keyspace.serve, Keyspace.srem, answer]
    rwa [Keyspace.put_other _ _ (node_ne_children p q)]

/-- A child that nobody removes stays. -/
theorem Linked.step (linked : Linked sha256 q c ks) (typed : scope.Typed ks) (kept : q ++ [c] ∈ scope.kept)
    (named : q ∈ scope.named) {β : Type} {command : Command β} (permitted : scope.Permitted β command) :
    Linked sha256 q c (Keyspace.serve β command ks).2 := by
  obtain ⟨ids, answer, member⟩ := linked
  -- a command on another key leaves the children as they are
  have untouched (key : String) (value : Option Redis.Value) (other : metadataFsNodeChildren (idOf sha256 q) ≠ key) :
      Linked sha256 q c (ks.put key value) :=
    ⟨ids, by rw [Keyspace.smembers, Keyspace.put_other _ _ other]; exact answer, member⟩
  cases command with
  | hgetall key => exact ⟨ids, answer, member⟩
  | smembers key => exact ⟨ids, answer, member⟩
  | del key =>
    obtain ⟨p, -, -, rfl⟩ := permitted
    exact untouched _ _ (node_ne_children p q).symm
  | hset key fields =>
    obtain ⟨p, made, m, rfl, rfl, -⟩ := permitted
    obtain ⟨res, found, -⟩ := typed.hgetall p (scope.made_named made)
    simp only [Keyspace.serve, Keyspace.hset, found, if_neg (toSlice_ne_nil m)]
    exact untouched _ _ (node_ne_children p q).symm
  | sadd key added =>
    obtain ⟨q', c', named', -, rfl, rfl⟩ := permitted
    by_cases same : q = q'
    · subst same
      simp only [Keyspace.serve, Keyspace.sadd, answer]
      exact ⟨_, Keyspace.smembers_put_self .., Redis.Members.mem_add_iff.mpr (.inl member)⟩
    · obtain ⟨ids', found, -⟩ := typed.smembers q' named'
      simp only [Keyspace.serve, Keyspace.sadd, found]
      exact untouched _ _ (metadataFsNodeChildren_injective.ne (scope.distinct.ne named named' same))
  | srem key removed =>
    obtain ⟨q', c', named', path, notKept, rfl, rfl⟩ := permitted
    by_cases same : q = q'
    · subst same
      have different : q ++ [c] ≠ q ++ [c'] := by
        intro equal
        rw [← equal] at notKept
        exact notKept kept
      have remains : idOf sha256 (q ++ [c]) ∈ Redis.Members.remove ids (idOf sha256 (q ++ [c'])) :=
        Redis.Members.mem_remove_iff.mpr ⟨member, scope.distinct.ne (scope.kept_named kept) path different⟩
      simp only [Keyspace.serve, Keyspace.srem, answer, if_neg (List.ne_nil_of_mem remains)]
      exact ⟨_, Keyspace.smembers_put_self .., remains⟩
    · obtain ⟨ids', found, -⟩ := typed.smembers q' named'
      simp only [Keyspace.serve, Keyspace.srem, found]
      exact untouched _ _ (metadataFsNodeChildren_injective.ne (scope.distinct.ne named named' same))

theorem Stored.others (stored : Stored sha256 p ks) (typed : scope.Typed ks) (kept : p ∈ scope.kept)
    (run : scope.Others ks ks') : Stored sha256 p ks' :=
  (Trace.invariant (I := fun t => scope.Typed t ∧ Stored sha256 p t)
    (fun _ _ before permitted => ⟨before.1.step permitted, before.2.step before.1 kept permitted⟩) run ⟨typed, stored⟩).2

theorem Linked.others (linked : Linked sha256 q c ks) (typed : scope.Typed ks) (kept : q ++ [c] ∈ scope.kept)
    (named : q ∈ scope.named) (run : scope.Others ks ks') : Linked sha256 q c ks' :=
  (Trace.invariant (I := fun t => scope.Typed t ∧ Linked sha256 q c t)
    (fun _ _ before permitted => ⟨before.1.step permitted, before.2.step before.1 kept named permitted⟩) run
    ⟨typed, linked⟩).2

/-! ## The calls of the coordinator's own client -/

/-- A command, with those of others around it. -/
theorem Scope.Typed.perform (typed : scope.Typed ks) {β : Type} {command : Command β} {Q : β → Keyspace → Prop}
    (permitted : scope.Permitted β command)
    (answered : ∀ t u, scope.Typed t → scope.Others ks t → scope.Typed (Keyspace.serve β command t).2 →
      scope.Others (Keyspace.serve β command t).2 u → Q (Keyspace.serve β command t).1 u) :
    scope.Safe Q ks (.perform command) := by
  refine Safe.perform permitted fun t u before after => ?_
  have typed' := typed.others before
  exact answered t u typed' before (typed'.step permitted) after

theorem IsNode.incremented {m : BlobFsMetadata} (isNode : IsNode sha256 m p) (res : Fields) :
    IsNode sha256 (incremented res m) p := by
  unfold BlobCacheMetadata.incremented
  split <;> exact ⟨isNode.path, isNode.id, isNode.name, isNode.pid⟩

theorem safe_setFsNode (typed : scope.Typed ks) (made : p ∈ scope.made) {m : BlobFsMetadata} (isNode : IsNode sha256 m p) :
    scope.Safe (fun answer t => answer = .ok () ∧ (p ∈ scope.kept → Stored sha256 p t)) ks
      (setFsNode (idOf sha256 p) m) := by
  have named := scope.made_named made
  refine Safe.bind (Q := fun answer _ => ∃ res, answer = .ok res) (typed.perform ⟨p, named, rfl⟩ ?_) ?_
  · intro t u typed _ _ _
    obtain ⟨res, answer, -⟩ := typed.hgetall p named
    exact ⟨res, answer⟩
  rintro answer t others ⟨res, rfl⟩
  have typed := typed.others others
  refine Safe.bind (Q := fun answer u => answer = .ok () ∧ scope.Typed u ∧ (p ∈ scope.kept → Stored sha256 p u))
    (typed.perform ⟨p, made, incremented res m, rfl, rfl, isNode.incremented res⟩ ?_) ?_
  · intro t u typed _ typed' after
    obtain ⟨res', answer, -⟩ := typed.hgetall p named
    have written := toSlice_ne_nil (incremented res m)
    simp only [Keyspace.serve, Keyspace.hset, answer, if_neg written] at typed' after ⊢
    refine ⟨trivial, typed'.others after, fun kept => Stored.others ?_ typed' kept after⟩
    rw [Stored, Keyspace.put_self]
    exact Option.some_ne_none _
  · rintro answer t - ⟨rfl, typed, stored⟩
    exact .ret fun u others => ⟨rfl, fun kept => (stored kept).others typed kept others⟩

theorem safe_getFsNode (typed : scope.Typed ks) (named : p ∈ scope.named) :
    scope.Safe (fun answer _ => (∀ m, answer = .ok m → p ∈ scope.made ∧ IsNode sha256 m p) ∧
      (p ∈ scope.kept → Stored sha256 p ks → ∃ m, answer = .ok m)) ks (getFsNode (idOf sha256 p)) := by
  refine Safe.bind (Q := fun answer _ => ∃ res, answer = .ok res ∧
    (res = [] ∧ (p ∈ scope.kept → ¬ Stored sha256 p ks) ∨ p ∈ scope.made ∧ ∃ m, Written res m ∧ IsNode sha256 m p))
    (typed.perform ⟨p, named, rfl⟩ ?_) ?_
  · intro t u typed' before _ _
    obtain ⟨res, answer, read⟩ := typed'.hgetall p named
    exact ⟨res, answer, read.imp_left fun none => ⟨none.1, fun kept stored => none.2 (stored.others typed kept before)⟩⟩
  · rintro answer t - ⟨res, rfl, ⟨rfl, absent⟩ | ⟨made, m, written, isNode⟩⟩
    · exact .ret fun u _ => ⟨fun m ok => (by cases ok), fun kept stored => absurd stored (absent kept)⟩
    · dsimp only
      rw [if_neg written.some_field, written.ofFields]
      refine .ret fun u _ => ⟨fun m' ok => ?_, fun _ _ => ⟨m, rfl⟩⟩
      cases ok
      exact ⟨made, isNode⟩

/-- The nodes read of a directory's children. -/
structure Scope.Children (scope : Scope sha256) (q : List Component) (ks : Keyspace) (ids : List String)
    (nodes : List BlobFsMetadata) : Prop where
  isNode : ∀ m ∈ nodes, ∃ c, q ++ [c] ∈ scope.made ∧ IsNode sha256 m (q ++ [c])
  sublist : (nodes.map BlobFsMetadata.id).Sublist ids
  kept : ∀ c, q ++ [c] ∈ scope.kept → idOf sha256 (q ++ [c]) ∈ ids → Stored sha256 (q ++ [c]) ks →
    ∃ m ∈ nodes, IsNode sha256 m (q ++ [c])

theorem safe_getFsNodes (typed : scope.Typed ks) {ids : List String} (below : ∀ id ∈ ids, scope.Below q id) :
    scope.Safe (fun nodes _ => scope.Children q ks ids nodes) ks (getFsNodes ids) := by
  induction ids generalizing ks with
  | nil =>
    refine .ret fun u _ => ⟨fun m member => ?_, List.Sublist.slnil, fun c _ member => ?_⟩
    · cases member
    · cases member
  | cons id ids ih =>
    obtain ⟨c, made, rfl⟩ := below id List.mem_cons_self
    refine Safe.bind (safe_getFsNode typed (scope.made_named made)) fun node t others read => ?_
    refine Safe.bind (ih (typed.others others) fun id member => below id (List.mem_cons_of_mem _ member))
      fun nodes u _ children => ?_
    have old (c' : Component) (kept : q ++ [c'] ∈ scope.kept) (member : idOf sha256 (q ++ [c']) ∈ ids)
        (stored : Stored sha256 (q ++ [c']) ks) : ∃ m ∈ nodes, IsNode sha256 m (q ++ [c']) :=
      children.kept c' kept member (stored.others typed kept others)
    cases node with
    | error e =>
      refine .ret fun _ _ => ⟨children.isNode, children.sublist.cons _, fun c' kept member stored => ?_⟩
      rcases List.mem_cons.mp member with same | later
      · obtain ⟨m, ok⟩ := read.2 (scope.distinct (scope.kept_named kept) (scope.made_named made) same ▸ kept)
          (scope.distinct (scope.kept_named kept) (scope.made_named made) same ▸ stored)
        cases ok
      · exact old c' kept later stored
    | ok m =>
      obtain ⟨-, isNode⟩ := read.1 m rfl
      refine .ret fun _ _ => ⟨?_, ?_, fun c' kept member stored => ?_⟩
      · intro m' member
        rcases List.mem_cons.mp member with rfl | later
        · exact ⟨c, made, isNode⟩
        · exact children.isNode m' later
      · rw [List.map_cons, isNode.id]
        exact children.sublist.cons_cons _
      · rcases List.mem_cons.mp member with same | later
        · have here := scope.distinct (scope.kept_named kept) (scope.made_named made) same
          exact ⟨m, List.mem_cons_self, here ▸ isNode⟩
        · obtain ⟨m', member', isNode'⟩ := old c' kept later stored
          exact ⟨m', List.mem_cons_of_mem _ member', isNode'⟩

/-- What `GetFsNodeChildren` answers: some nodes directly below the directory, no two with the
same id, among them those that stay. -/
structure Scope.Lists (scope : Scope sha256) (q : List Component) (ks : Keyspace) (nodes : List BlobFsMetadata) : Prop where
  isNode : ∀ m ∈ nodes, ∃ c, q ++ [c] ∈ scope.made ∧ IsNode sha256 m (q ++ [c])
  nodup : (nodes.map BlobFsMetadata.id).Nodup
  kept : ∀ c, q ++ [c] ∈ scope.kept → Linked sha256 q c ks → Stored sha256 (q ++ [c]) ks →
    ∃ m ∈ nodes, IsNode sha256 m (q ++ [c])

theorem safe_getFsNodeChildren (typed : scope.Typed ks) (named : q ∈ scope.named) :
    scope.Safe (fun answer _ => ∃ nodes, answer = .ok nodes ∧ scope.Lists q ks nodes) ks
      (getFsNodeChildren (idOf sha256 q)) := by
  refine Safe.bind (Q := fun answer _ => ∃ ids, answer = .ok ids ∧ ids.Nodup ∧ (∀ id ∈ ids, scope.Below q id) ∧
    ∀ c, q ++ [c] ∈ scope.kept → Linked sha256 q c ks → idOf sha256 (q ++ [c]) ∈ ids)
    (typed.perform ⟨q, named, rfl⟩ ?_) ?_
  · intro t u typed' before _ _
    obtain ⟨ids, answer, nodup, below⟩ := typed'.smembers q named
    refine ⟨ids, answer, nodup, below, fun c kept linked => ?_⟩
    obtain ⟨ids', answer', member⟩ := linked.others typed kept named before
    rw [answer] at answer'
    cases answer'
    exact member
  · rintro answer t others ⟨ids, rfl, nodup, below, kept⟩
    refine Safe.bind (safe_getFsNodes (typed.others others) below) fun nodes u _ children => .ret fun _ _ => ?_
    refine ⟨nodes, rfl, children.isNode, children.sublist.nodup nodup, fun c stays linked stored => ?_⟩
    exact children.kept c stays (kept c stays linked) (stored.others typed stays others)

theorem safe_removeFsNode (typed : scope.Typed ks) (named : p ∈ scope.named) (removed : p ∉ scope.kept) :
    scope.Safe (fun answer _ => answer = .ok ()) ks (removeFsNode (idOf sha256 p)) :=
  Safe.bind (Q := fun answer _ => answer = .ok ()) (typed.perform ⟨p, named, removed, rfl⟩ fun _ _ _ _ _ _ => rfl)
    fun _ _ _ ok => .ret fun _ _ => by rw [ok]; rfl

theorem safe_removeFsNodeChild (typed : scope.Typed ks) (directory : q ∈ scope.named) (named : q ++ [c] ∈ scope.named)
    (removed : q ++ [c] ∉ scope.kept) :
    scope.Safe (fun answer _ => answer = .ok ()) ks (removeFsNodeChild (idOf sha256 q) (idOf sha256 (q ++ [c]))) := by
  refine Safe.bind (Q := fun answer _ => answer = .ok ())
    (typed.perform ⟨q, c, directory, named, removed, rfl, rfl⟩ fun t u typed _ _ _ => ?_)
    fun _ _ _ ok => .ret fun _ _ => by rw [ok]; rfl
  obtain ⟨ids, answer, -⟩ := typed.smembers q directory
  simp only [Keyspace.serve, Keyspace.srem, answer]

theorem safe_addFsNodeChild (typed : scope.Typed ks) (directory : q ∈ scope.named) (made : q ++ [c] ∈ scope.made) :
    scope.Safe (fun answer t => answer = .ok () ∧ (q ++ [c] ∈ scope.kept → Linked sha256 q c t)) ks
      (addFsNodeChild (idOf sha256 q) (idOf sha256 (q ++ [c]))) := by
  refine Safe.bind (Q := fun answer t => answer = .ok () ∧ scope.Typed t ∧ (q ++ [c] ∈ scope.kept → Linked sha256 q c t))
    (typed.perform ⟨q, c, directory, made, rfl, rfl⟩ fun t u typed _ typed' after => ?_) ?_
  · obtain ⟨ids, answer, -⟩ := typed.smembers q directory
    simp only [Keyspace.serve, Keyspace.sadd, answer] at typed' after ⊢
    refine ⟨trivial, typed'.others after, fun kept => Linked.others ?_ typed' kept directory after⟩
    exact ⟨_, Keyspace.smembers_put_self .., Redis.Members.mem_add_iff.mpr (.inr rfl)⟩
  · rintro answer t - ⟨rfl, typed, linked⟩
    exact .ret fun u others => ⟨rfl, fun kept => (linked kept).others typed kept directory others⟩

/-! ## The calls of every client -/

/-- The remote client has its server make the call. -/
theorem remote_eq {β : Type} (call : FsCall β) :
    coordinatorClientRemote coordinatorClientLocal β call =
      coordinatorClientLocal β call.sent >>= fun answer => pure (call.received answer) := by
  cases call with
  | setFsNode id m =>
    simp only [coordinatorClientRemote, CacheService.setFsNode, Program.bind_assoc]
    rfl
  | getFsNode id =>
    simp only [coordinatorClientRemote, CacheService.getFsNode, Program.bind_assoc]
    exact congrArg (Program.bind _) (funext fun answer => by cases answer <;> rfl)
  | removeFsNode id =>
    simp only [coordinatorClientRemote, CacheService.removeFsNode, Program.bind_assoc]
    rfl
  | removeFsNodeChild pid id =>
    simp only [coordinatorClientRemote, CacheService.removeFsNodeChild, Program.bind_assoc]
    rfl
  | getFsNodeChildren id =>
    simp only [coordinatorClientRemote, CacheService.getFsNodeChildren, Program.bind_assoc]
    refine congrArg (Program.bind _) (funext fun answer => ?_)
    cases answer with
    | error e => rfl
    | ok children =>
      show Program.ret (Except.ok ((children.map BlobFsMetadata.toProto).map BlobFsMetadata.ofProto)) = _
      rw [List.map_map]
      rfl
  | addFsNodeChild pid id =>
    simp only [coordinatorClientRemote, CacheService.addFsNodeChild, Program.bind_assoc]
    rfl

/-- What the coordinator's own client does safely, every client does, if the answer may lose its
inode numbers and the texts of its errors. -/
theorem safe_client (via : Connection) {β : Type} {call : FsCall β} {Q : β → Keyspace → Prop}
    (here : scope.Safe Q ks (coordinatorClientLocal β call)) (there : scope.Safe Q ks (coordinatorClientLocal β call.sent))
    (received : ∀ answer t, Q answer t → Q (call.received answer) t) : scope.Safe Q ks (via.client β call) := by
  cases via with
  | direct => exact here
  | remote =>
    rw [Connection.client, remote_eq]
    exact Safe.map there _ received

theorem IsNode.withoutIno {m : BlobFsMetadata} (isNode : IsNode sha256 m p) : IsNode sha256 m.withoutIno p :=
  ⟨isNode.path, isNode.id, isNode.name, isNode.pid⟩

section

variable (via : Connection)

theorem calls_setFsNode (typed : scope.Typed ks) (made : p ∈ scope.made) {m : BlobFsMetadata} (isNode : IsNode sha256 m p) :
    scope.Safe (fun answer t => answer = .ok () ∧ (p ∈ scope.kept → Stored sha256 p t)) ks
      (via.client _ (.setFsNode (idOf sha256 p) m)) := by
  refine safe_client via (safe_setFsNode typed made isNode) (safe_setFsNode typed made isNode.withoutIno) ?_
  rintro answer t ⟨rfl, stored⟩
  exact ⟨rfl, stored⟩

theorem calls_getFsNode (typed : scope.Typed ks) (named : p ∈ scope.named) :
    scope.Safe (fun answer _ => (∀ m, answer = .ok m → p ∈ scope.made ∧ IsNode sha256 m p) ∧
      (p ∈ scope.kept → Stored sha256 p ks → ∃ m, answer = .ok m)) ks
      (via.client _ (.getFsNode (idOf sha256 p))) := by
  refine safe_client via (safe_getFsNode typed named) (safe_getFsNode typed named) ?_
  rintro answer t ⟨isNode, kept⟩
  cases answer with
  | error e =>
    refine ⟨fun m ok => (by cases ok), fun stays stored => ?_⟩
    obtain ⟨m, ok⟩ := kept stays stored
    cases ok
  | ok m =>
    refine ⟨fun m' ok => ?_, fun _ _ => ⟨m.withoutIno, rfl⟩⟩
    cases ok
    exact (isNode m rfl).imp_right IsNode.withoutIno

theorem calls_getFsNodeChildren (typed : scope.Typed ks) (named : q ∈ scope.named) :
    scope.Safe (fun answer _ => ∃ nodes, answer = .ok nodes ∧ scope.Lists q ks nodes) ks
      (via.client _ (.getFsNodeChildren (idOf sha256 q))) := by
  refine safe_client via (safe_getFsNodeChildren typed named) (safe_getFsNodeChildren typed named) ?_
  rintro answer t ⟨nodes, rfl, lists⟩
  refine ⟨nodes.map BlobFsMetadata.withoutIno, rfl, fun m member => ?_, ?_, fun c kept linked stored => ?_⟩
  · obtain ⟨m, inside, rfl⟩ := List.mem_map.mp member
    obtain ⟨c, made, isNode⟩ := lists.isNode m inside
    exact ⟨c, made, isNode.withoutIno⟩
  · rw [List.map_map]
    exact lists.nodup
  · obtain ⟨m, member, isNode⟩ := lists.kept c kept linked stored
    exact ⟨_, List.mem_map_of_mem member, isNode.withoutIno⟩

theorem calls_removeFsNode (typed : scope.Typed ks) (named : p ∈ scope.named) (removed : p ∉ scope.kept) :
    scope.Safe (fun answer _ => answer = .ok ()) ks (via.client _ (.removeFsNode (idOf sha256 p))) :=
  safe_client via (safe_removeFsNode typed named removed) (safe_removeFsNode typed named removed)
    fun _ _ ok => by rw [ok]; rfl

theorem calls_removeFsNodeChild (typed : scope.Typed ks) (directory : q ∈ scope.named) (named : q ++ [c] ∈ scope.named)
    (removed : q ++ [c] ∉ scope.kept) :
    scope.Safe (fun answer _ => answer = .ok ()) ks
      (via.client _ (.removeFsNodeChild (idOf sha256 q) (idOf sha256 (q ++ [c])))) :=
  safe_client via (safe_removeFsNodeChild typed directory named removed)
    (safe_removeFsNodeChild typed directory named removed) fun _ _ ok => by rw [ok]; rfl

theorem calls_addFsNodeChild (typed : scope.Typed ks) (directory : q ∈ scope.named) (made : q ++ [c] ∈ scope.made) :
    scope.Safe (fun answer t => answer = .ok () ∧ (q ++ [c] ∈ scope.kept → Linked sha256 q c t)) ks
      (via.client _ (.addFsNodeChild (idOf sha256 q) (idOf sha256 (q ++ [c])))) := by
  refine safe_client via (safe_addFsNodeChild typed directory made) (safe_addFsNodeChild typed directory made) ?_
  rintro answer t ⟨rfl, linked⟩
  exact ⟨rfl, linked⟩

end

end

end Blobcache.FileSystem
