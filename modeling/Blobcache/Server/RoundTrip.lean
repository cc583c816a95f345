import Blobcache.Server.Content
import Blobcache.Storage.EndOfObject

/-!
# A stored content is read back

A server serves requests to store and to read, its prefetch workers read, and around and
during all of that the memory cache and the usage monitor act. On such a server, as long
as no disk access fails, a content that was stored while the disk was not switched off is
read back from then on, range by range. The contents of the run are assumed to have
different digests.
-/

namespace Blobcache.Server
set_option autoImplicit false
open Execution Int64Arith Paging Storage

/-- What happens on a server, with what happens during it. -/
inductive Event where
  | env (e : EnvStep)
  | storeContent (stream : List Recv) (sendError : Option Status) (sched : Nat → Around StoreChoice)
  | getContent (req : GetContentRequest) (sched : Nat → Around Bool)
  | prefetch (task : GetCall) (sched : Nat → Around Bool)

/-- The storage after an event. A request that is still being received changes nothing. -/
def Event.step (sha256 : Bytes → Digest) (maxAlloc : Nat) (cfg : Config) (event : Event) (s : Cas) : Cas :=
  match event with
  | .env e => s.env e
  | .storeContent stream sendError sched =>
    ((Server.storeContent sha256 maxAlloc cfg sched s stream sendError).map Prod.fst).getD s
  | .getContent req sched => ((Server.getContent maxAlloc cfg sched s req).map Prod.fst).getD s
  | .prefetch task sched => (Server.prefetch cfg sched s task).getD s

/-- An event during which no disk access fails; what it stores is one of `contents`. -/
def FaultFreeEvent (maxAlloc : Nat) (contents : Set Bytes) (_ : Cas) : Event → Prop
  | .storeContent stream _ sched => (∀ n, (sched n).choice.disk = .ok) ∧
      ∀ buffer, receive maxAlloc stream [] = some (.returned (.ok buffer)) → buffer ∈ contents
  | _ => True

/-- The content of a hash, among contents with different digests. -/
noncomputable def contentOf (sha256 : Bytes → Digest) (contents : Set Bytes) (hash : String) : Bytes :=
  open Classical in
  if known : ∃ c ∈ contents, contentHash sha256 c = hash then known.choose else []

variable {sha256 : Bytes → Digest} {maxAlloc : Nat} {cfg : Config} {contents : Set Bytes} {s t : Cas}

theorem contentOf_hash (noCollisions : Set.InjOn sha256 contents) {c : Bytes} (member : c ∈ contents) :
    contentOf sha256 contents (contentHash sha256 c) = c := by
  have known : ∃ c' ∈ contents, contentHash sha256 c' = contentHash sha256 c := ⟨c, member, rfl⟩
  rw [contentOf, dif_pos known]
  obtain ⟨member', same⟩ := known.choose_spec
  exact noCollisions member' member (contentHash_inj same)

/-- `store` is `Add` under the digest. -/
theorem store_state (sched : Nat → Around StoreChoice) (s : Cas) (buffer : Bytes) :
    (store sha256 cfg sched s buffer).map Prod.fst =
      (s.add cfg sched (contentHash sha256 buffer) buffer).map Prod.fst := by
  simp only [store]
  split <;> simp_all

/-- An event is an operation on the storage, or changes nothing. -/
theorem Event.operation (noCollisions : Set.InjOn sha256 contents) {event : Event}
    (faultFree : FaultFreeEvent maxAlloc contents s event) :
    event.step sha256 maxAlloc cfg s = s ∨
      ∃ op, FaultFree (contentOf sha256 contents) s op ∧ event.step sha256 maxAlloc cfg s = op.step cfg s := by
  cases event with
  | env e => exact .inr ⟨.env e, trivial, rfl⟩
  | storeContent stream sendError sched =>
    obtain ⟨faultless, known⟩ := faultFree
    simp only [Event.step, Server.storeContent]
    rcases received : receive maxAlloc stream [] with _ | ((status | buffer) | _)
    · exact .inl rfl
    · exact .inl rfl
    · right
      refine ⟨.add (contentHash sha256 buffer) buffer sched,
        ⟨contentHash_plain _ _, (contentOf_hash noCollisions (known buffer received)).symm, faultless⟩, ?_⟩
      rw [Op.step, ← store_state]
      dsimp only
      rcases store sha256 cfg sched s buffer with _ | ⟨s', _ | hash⟩
      · rfl
      · rfl
      · cases sendError <;> rfl
    · exact .inl rfl
  | getContent req sched =>
    simp only [Event.step, Server.getContent]
    split
    · exact .inl rfl
    · right
      refine ⟨.get ⟨req.hash, req.offset, req.length, List.replicate req.length.toNat 0, req.offset_inRange,
        req.length_inRange⟩ sched, trivial, ?_⟩
      simp only [Op.step]
      rcases s.get cfg sched req.hash req.offset req.length (List.replicate req.length.toNat 0) with
        _ | ⟨s', f, _ | _ | _⟩ <;> rfl
  | prefetch task sched =>
    simp only [Event.step, Server.prefetch]
    split
    · exact .inr ⟨.get task sched, trivial, rfl⟩
    · exact .inl rfl

/-- No event without disk faults damages a chunk or takes an object from the disk. -/
theorem faultFreeEvent_run (noCollisions : Set.InjOn sha256 contents)
    (run : Trace (Event.step sha256 maxAlloc cfg) (FaultFreeEvent maxAlloc contents) s t)
    (clean : Clean cfg (contentOf sha256 contents) s) :
    Clean cfg (contentOf sha256 contents) t ∧
      ∀ hash, OnDisk cfg (contentOf sha256 contents) hash s → OnDisk cfg (contentOf sha256 contents) hash t := by
  apply run.invariant (I := fun t => Clean cfg (contentOf sha256 contents) t ∧ ∀ hash,
    OnDisk cfg (contentOf sha256 contents) hash s → OnDisk cfg (contentOf sha256 contents) hash t) _
    ⟨clean, fun _ disk => disk⟩
  rintro t event ⟨clean, disk⟩ faultFree
  rcases Event.operation noCollisions faultFree with same | ⟨op, opFaultFree, same⟩
  · rw [same]
    exact ⟨clean, disk⟩
  · rw [same]
    obtain ⟨clean', keeps⟩ := Op.keeps clean opFaultFree
    exact ⟨clean', fun hash start => keeps hash (disk hash start)⟩

/-- A range of a whole object is answered with its bytes. -/
theorem Complete.getContent {content : String → Bytes} {hash : String} (complete : Complete cfg content hash s)
    (small : (content hash).length < 2 ^ 63) (sched : Nat → Around Bool) {req : GetContentRequest}
    (object : req.hash = hash) {off len : Nat} (offset : req.offset = off) (length : req.length = len)
    (fits : off + len ≤ (content hash).length) (allocated : len ≤ maxAlloc) :
    ∃ s', Server.getContent maxAlloc cfg sched s req = some (s', .returned ⟨((content hash).drop off).take len, true⟩) := by
  have room : len ≤ (List.replicate len (0 : UInt8)).length := by simp
  obtain ⟨s', f, run, -, -, bytes⟩ := complete.get_inside small sched fits room
  refine ⟨s', ?_⟩
  simp only [Server.getContent, object, offset, length, Int.toNat_natCast]
  rw [if_neg (by omega), run]
  simp only [Int.toNat_natCast, bytes]

/-- A hash answered by `StoreContent` is that of the content sent, which is in the storage. -/
theorem storeContent_ok {sched : Nat → Around StoreChoice} {messages : List Bytes} {sendError : Option Status}
    {hash : String}
    (stored : storeContent sha256 maxAlloc cfg sched s (messages.map .message ++ [.eof]) sendError =
      some (t, .returned (.ok hash))) :
    hash = contentHash sha256 messages.flatten ∧ s.add cfg sched hash messages.flatten = some (t, .ok ()) ∧
      messages.flatten.length ≤ maxAlloc := by
  rw [storeContent, receive_messages messages (Nat.zero_le maxAlloc), List.nil_append] at stored
  by_cases fits : messages.flatten.length ≤ maxAlloc
  swap
  · rw [if_neg fits] at stored
    cases stored
  simp only [if_pos fits, store] at stored
  rcases added : s.add cfg sched (contentHash sha256 messages.flatten) messages.flatten with _ | ⟨s', _ | _⟩
  · simp [added] at stored
  · simp [added] at stored
  · cases sendError with
    | some status => simp [added] at stored
    | none =>
      simp only [added, Option.some.injEq, Prod.mk.injEq, Outcome.returned.injEq, Except.ok.injEq] at stored
      obtain ⟨rfl, rfl⟩ := stored
      exact ⟨rfl, added, fits⟩

/-- **Store, then read.** A content that `StoreContent` has stored, in any split into
messages and while the disk was not switched off, is answered by `GetContent` range by
range in every state the server reaches from then on, as long as no disk access fails. -/
theorem stored_content_is_read (noCollisions : Set.InjOn sha256 contents) {s₀ : Cas}
    (history : Trace (Event.step sha256 maxAlloc cfg) (FaultFreeEvent maxAlloc contents) Cas.fresh s₀) {c : Bytes}
    (member : c ∈ contents) (small : c.length < 2 ^ 63) {messages : List Bytes} (split : messages.flatten = c)
    {sched : Nat → Around StoreChoice} (faultless : ∀ n, (sched n).choice.disk = .ok)
    (enabled : s₀.diskCachedUsageExceeded = false) (throughout : Enabled sched) {sendError : Option Status}
    {hash : String}
    (stored : storeContent sha256 maxAlloc cfg sched s₀ (messages.map .message ++ [.eof]) sendError =
      some (s, .returned (.ok hash))) :
    hash = contentHash sha256 c ∧
      ∀ t, Trace (Event.step sha256 maxAlloc cfg) (FaultFreeEvent maxAlloc contents) s t →
        ∀ (around : Nat → Around Bool) (req : GetContentRequest) (off len : Nat), req.hash = hash →
          req.offset = off → req.length = len → off + len ≤ c.length →
          ∃ t', getContent maxAlloc cfg around t req = some (t', .returned ⟨(c.drop off).take len, true⟩) := by
  obtain ⟨rfl, added, allocated⟩ := storeContent_ok stored
  rw [split] at added allocated ⊢
  refine ⟨rfl, fun t later around req off len object offset length fits => ?_⟩
  have object_eq := contentOf_hash noCollisions member
  have plain := (contentHash_plain sha256 c).separators
  obtain ⟨clean₀, -⟩ := faultFreeEvent_run noCollisions history Tiers.fresh
  -- the storage right after the store: every chunk whole, and this object on disk
  obtain ⟨s', r, again, clean, -⟩ := add_keeps plain clean₀ faultless
  rw [object_eq, added] at again
  cases again
  have disk : OnDisk cfg (contentOf sha256 contents) (contentHash sha256 c) s :=
    add_on_disk plain enabled throughout (by rw [object_eq]; exact added)
  obtain ⟨clean', keeps⟩ := faultFreeEvent_run noCollisions later clean
  have complete := Clean.complete clean' (keeps _ disk)
  have answer := Complete.getContent complete (by rw [object_eq]; exact small) around object offset length
    (by rw [object_eq]; exact fits) (show len ≤ maxAlloc by omega)
  rwa [object_eq] at answer

/-- A digest for contents of at most 32 bytes that do not end in zero. -/
def padded (content : Bytes) : Digest := ⟨(content ++ List.replicate 32 0).take 32, by simp⟩

/-- Two bytes in three messages, one of them empty, in pages of one byte. -/
theorem stored_content_is_read_twoBytes :
    ∃ s hash, storeContent padded (2 ^ 48) oneBytePages quietStore Cas.fresh
        ([[7], [], [8]].map .message ++ [.eof]) none = some (s, .returned (.ok hash)) ∧
      hash = contentHash padded [7, 8] ∧
      ∃ t, getContent (2 ^ 48) oneBytePages quietRead s ⟨hash, 1, 1, by decide, by decide⟩ =
        some (t, .returned ⟨[8], true⟩) := by
  have stored : storeContent padded (2 ^ 48) oneBytePages quietStore Cas.fresh ([[7], [], [8]].map .message ++ [.eof])
      none = some ((Op.add (contentHash padded [7, 8]) [7, 8] quietStore).step oneBytePages Cas.fresh,
        .returned (.ok (contentHash padded [7, 8]))) := by
    have added : Cas.fresh.add oneBytePages quietStore (contentHash padded [7, 8]) [7, 8] = _ :=
      Op.add_returned (r := .ok ()) (by decide)
    rw [storeContent, receive_messages _ (Nat.zero_le _), if_pos (by decide)]
    simp only [List.nil_append, List.flatten_cons, List.flatten_nil, List.append_nil, List.cons_append, store, added]
  refine ⟨_, _, stored, ?_⟩
  obtain ⟨same, reads⟩ := @stored_content_is_read padded (2 ^ 48) oneBytePages {[7, 8]} _
    (Set.injOn_singleton _ _) _ (.refl _) _ rfl (by decide) [[7], [], [8]] rfl quietStore (fun _ => rfl) rfl
    (fun _ _ member => absurd member List.not_mem_nil) none _ stored
  exact ⟨same, reads _ (.refl _) quietRead ⟨_, 1, 1, by decide, by decide⟩ 1 1 rfl rfl rfl (by decide)⟩

end Blobcache.Server
