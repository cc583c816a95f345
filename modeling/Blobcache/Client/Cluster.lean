import Blobcache.Storage.SingleWriter
import Blobcache.Client.Stream

/-!
# Reads in a running cluster

Any number of clients read from any number of hosts. A client's call of `GetContent` or
`GetContentStream` moves one step at a time: it looks for the host of the hash, takes one from the
ranking and remembers it, sends its request, waits for the answer, and on a failure forgets the host
and tries again. A request becomes a call of `Get` of the host's storage, or one after the other for a
stream, and these run beside everything else that happens there: stores of the same and of other
objects, whose chunk files are seen half written, other reads, evictions. A connection may break at any
moment, and the clients learn of other hosts or lose them in between.

As long as no chunk file has two writers at a time, a client never takes wrong bytes for the content.
What `GetContent` returns is a prefix of the range that was asked for, and so is what each attempt of
`GetContentStream` puts on its channel (`cluster_reads_are_true`). That the attempts together do so is
another matter.
-/

namespace Blobcache.Client
set_option autoImplicit false
open Execution Interleaving Int64Arith Server Storage

/-! ## The cluster -/

/-- The storages of the hosts, each with its calls, and what the calls of a client share. -/
structure RunningCluster where
  hosts : String → System
  clients : Nat → BlobCacheClient

def RunningCluster.start (clients : Nat → BlobCacheClient) : RunningCluster := ⟨fun _ => System.start, clients⟩

def RunningCluster.setClient (s : RunningCluster) (k : Nat) (c : BlobCacheClient) : RunningCluster :=
  { s with clients := Function.update s.clients k c }

/-- Something happens in the storage of a host. -/
def RunningCluster.act (cfgs : String → Config) (s : RunningCluster) (hostId : String) (a : Storage.Act) :
    RunningCluster :=
  { s with hosts := Function.update s.hosts hostId (System.step (cfgs hostId) a (s.hosts hostId)) }

@[simp] theorem RunningCluster.act_self (cfgs : String → Config) (s : RunningCluster) (hostId : String)
    (a : Storage.Act) :
    (s.act cfgs hostId a).hosts hostId = System.step (cfgs hostId) a (s.hosts hostId) :=
  Function.update_self ..

theorem RunningCluster.act_other (cfgs : String → Config) (s : RunningCluster) {hostId other : String}
    (different : other ≠ hostId) (a : Storage.Act) : (s.act cfgs hostId a).hosts other = s.hosts other :=
  Function.update_of_ne different ..

/-- What a client is asked to read. -/
structure ReadRequest where
  client : Nat
  req : GetContentRequest
  routingKey : String

/-! ### The way to a host -/

/-- Where a call is in `getGRPCClient`, or at the head of the loop that calls it. -/
inductive RoutePc where
  | next
  /-- The hash has no host yet. -/
  | choose
  | dial (host : BlobCacheHost)

/-- One step of `getGRPCClient` for a retrieval, lock by lock: between the lookup of the hash and the choice of a host
other calls may choose one. It ends with the id of a host that has a gRPC client. -/
def BlobCacheClient.route (c : BlobCacheClient) (r : ReadRequest) (attempt : Nat) :
    RoutePc → BlobCacheClient × (RoutePc ⊕ Except ClientError String)
  | .next =>
    if attempt < c.maxAttempts r.req.length then
      match c.localHostCache r.req.hash with
      | some cachedHost => (c, .inl (.dial cachedHost))
      | none => (c, .inl .choose)
    else (c, .inr (.error .contentNotFound))
  | .choose =>
    match BlobCacheClient.nthHost (c.topHosts (BlobCacheClient.keyOf r.req r.routingKey)) attempt with
    | none => (c, .inr (.error .hostNotFound))
    | some host => (c.remember r.req.hash host, .inl (.dial host))
  | .dial host =>
    if host.hostId ∈ c.grpcClients then (c, .inr (.ok host.hostId))
    else (c.forget r.req.hash, .inr (.error .hostNotFound))

/-! ### `GetContent` -/

inductive ReadPc where
  | route (pc : RoutePc)
  | rpc (hostId : String)
  /-- The host serves the request with this call of `Get`. -/
  | waits (hostId : String) (get : Nat)
  | failed
  | returned (result : Except ClientError Bytes)

structure Read extends ReadRequest where
  attempt : Nat
  pc : ReadPc

/-- The call of `Get` that serves a request. -/
def Read.call (r : Read) : GetCall :=
  ⟨r.req.hash, r.req.offset, r.req.length, List.replicate r.req.length.toNat 0, r.req.offset_inRange,
    r.req.length_inRange⟩

/-- The next step of a call; `breaks` says that the connection breaks or the time is up. -/
def Read.move (cfgs : String → Config) (breaks : Bool) (s : RunningCluster) (r : Read) : RunningCluster × Read :=
  match r.pc with
  | .route pc =>
    match (s.clients r.client).route r.toReadRequest r.attempt pc with
    | (c, .inl pc) => (s.setClient r.client c, { r with pc := .route pc })
    | (c, .inr (.ok hostId)) => (s.setClient r.client c, { r with pc := .rpc hostId })
    | (c, .inr (.error e)) => (s.setClient r.client c, { r with pc := .returned (.error e) })
  | .rpc hostId =>
    if breaks then (s, { r with pc := .failed })
    else
      (s.act cfgs hostId (.spawn (.startGet r.call)), { r with pc := .waits hostId (s.hosts hostId).threads.length })
  | .waits hostId get =>
    if breaks then (s, { r with pc := .failed })
    else
      match (s.hosts hostId).threads[get]? with
      | some (.get _ f (some (.ok n))) => (s, { r with pc := .returned (.ok (f.dst.take n.toNat)) })
      -- a response that is not `Ok`, or none from a server that has panicked
      | some (.get _ _ (some _)) => (s, { r with pc := .failed })
      | _ => (s, r)
  | .failed =>
    (s.setClient r.client ((s.clients r.client).forget r.req.hash),
      { r with attempt := r.attempt + 1, pc := .route .next })
  | .returned _ => (s, r)

/-! ### `GetContentStream` -/

/-- Where the handler of the server is: at the head of its loop, in a call of `Get`, or at its end. -/
inductive HandlerPc where
  | loop
  | getting (get : Nat)
  | ended (how : StreamEnd)

/-- The handler of a stream, and how many of the pieces that it has sent the client has received. -/
structure Handler where
  hostId : String
  frame : StreamFrame
  pc : HandlerPc
  received : Nat

def Handler.chunkSize (h : Handler) : Int := min h.frame.remainingLength getContentStreamChunkSize

/-- The call of `Get` for the next piece. The numbers are 64-bit integers already. -/
def Handler.call (h : Handler) : GetCall :=
  ⟨h.frame.hash, wrap h.frame.offset, wrap h.chunkSize, h.frame.dst, inRange_wrap _, inRange_wrap _⟩

/-- The next step of the handler; `sendError` is the error of `Send`, should it fail. -/
def Handler.move (cfgs : String → Config) (sendError : Option String) (s : RunningCluster) (h : Handler) :
    RunningCluster × Handler :=
  match h.pc with
  | .loop =>
    if 0 < h.frame.remainingLength then
      (s.act cfgs h.hostId (.spawn (.startGet h.call)), { h with pc := .getting (s.hosts h.hostId).threads.length })
    else (s, { h with pc := .ended .ok })
  | .getting get =>
    match (s.hosts h.hostId).threads[get]? with
    | some (.get _ g (some (.ok n))) =>
      if n = 0 then (s, { h with pc := .ended .ok })
      else
        match sendError with
        | some cause => (s, { h with pc := .ended (.failed ⟨.internal, "Failed to send content chunk: " ++ cause⟩) })
        | none =>
          let sent := h.frame.sent ++ [g.dst.take n.toNat]
          -- the last chunk
          if n < h.chunkSize then (s, { h with frame := { h.frame with sent := sent }, pc := .ended .ok })
          else (s, { h with
            frame := { h.frame with
              offset := wrap (h.frame.offset + n), remainingLength := wrap (h.frame.remainingLength - n)
              dst := g.dst, sent := sent }
            pc := .loop })
    | some (.get _ _ (some (.err e))) =>
      (s, { h with pc := .ended (.failed ⟨.notFound, "Content not found: " ++ e.text⟩) })
    | some (.get _ _ (some .panic)) => (s, { h with pc := .ended .panicked })
    | _ => (s, h)
  | .ended _ => (s, h)

inductive StreamPc where
  | route (pc : RoutePc)
  | rpc (hostId : String)
  | streams (handler : Handler)
  | failed
  | closed

/-- A call of `GetContentStream`. The channel has carried `pushed`, each piece with the attempt it came from. -/
structure StreamRead extends ReadRequest where
  attempt : Nat
  pc : StreamPc
  pushed : List (Nat × Bytes)

/-- What moves next: the connection breaks, the handler of the server moves, or the client does. -/
inductive Turn where
  | breaks
  | handler (sendError : Option String)
  | client

def StreamRead.move (cfgs : String → Config) (turn : Turn) (s : RunningCluster) (r : StreamRead) :
    RunningCluster × StreamRead :=
  match r.pc with
  | .route pc =>
    match (s.clients r.client).route r.toReadRequest r.attempt pc with
    | (c, .inl pc) => (s.setClient r.client c, { r with pc := .route pc })
    | (c, .inr (.ok hostId)) => (s.setClient r.client c, { r with pc := .rpc hostId })
    | (c, .inr (.error _)) => (s.setClient r.client c, { r with pc := .closed })
  | .rpc hostId =>
    match turn with
    | .breaks => (s, { r with pc := .failed })
    | _ => (s, { r with pc := .streams ⟨hostId, StreamFrame.start r.req, .loop, 0⟩ })
  | .streams h =>
    match turn with
    | .breaks => (s, { r with pc := .failed })
    | .handler sendError => ((h.move cfgs sendError s).1, { r with pc := .streams (h.move cfgs sendError s).2 })
    | .client =>
      match h.frame.sent[h.received]? with
      | some piece =>
        (s, { r with
          pc := .streams { h with received := h.received + 1 }
          pushed := r.pushed ++ [(r.attempt, piece)] })
      | none =>
        match h.pc with
        | .ended .ok => (s, { r with pc := .closed })
        | .ended _ => (s, { r with pc := .failed })
        | _ => (s, r)
  | .failed =>
    (s.setClient r.client ((s.clients r.client).forget r.req.hash),
      { r with attempt := r.attempt + 1, pc := .route .next })
  | .closed => (s, r)

/-! ### Runs -/

inductive ReadCall where
  | read (r : Read)
  | stream (r : StreamRead)

def ReadCall.move (cfgs : String → Config) (turn : Turn) (s : RunningCluster) : ReadCall → RunningCluster × ReadCall
  | .read r =>
    let breaks := match turn with
      | .breaks => true
      | _ => false
    ((r.move cfgs breaks s).1, .read (r.move cfgs breaks s).2)
  | .stream r => ((r.move cfgs turn s).1, .stream (r.move cfgs turn s).2)

/-- What happens beside these calls: in the storages, and to what a client knows of the hosts. -/
inductive ReadEvent where
  | storage (hostId : String) (a : Storage.Act)
  | client (k : Nat) (hasher : RendezvousHasher) (grpcClients : Finset String)
      (localHostCache : String → Option BlobCacheHost)

def RunningCluster.event (cfgs : String → Config) : ReadEvent → RunningCluster → RunningCluster
  | .storage hostId a, s => s.act cfgs hostId a
  | .client k hasher grpcClients localHostCache, s =>
    s.setClient k { s.clients k with
      hasher := hasher, grpcClients := grpcClients, localHostCache := localHostCache }

abbrev ClusterReads := Pool RunningCluster ReadCall

abbrev ReadAct := Action ReadCall ReadEvent Turn

def ClusterReads.step (cfgs : String → Config) : ReadAct → ClusterReads → ClusterReads :=
  Pool.step (RunningCluster.event cfgs) (ReadCall.move cfgs)

/-- Calls begin with their first attempt. A length for which a server can allocate no buffer makes it panic. -/
inductive ReadCall.Starts (maxAlloc : Nat) : ReadCall → Prop where
  | read (r : ReadRequest) (asked : 0 ≤ r.req.length) (allocated : r.req.length ≤ maxAlloc) :
      ReadCall.Starts maxAlloc (.read ⟨r, 0, .route .next⟩)
  | stream (r : ReadRequest) (allocated : getContentStreamChunkSize ≤ maxAlloc) :
      ReadCall.Starts maxAlloc (.stream ⟨r, 0, .route .next, []⟩)

/-- The actions of a run. The stores on every host store `content hash` under `hash`, and none truncates a chunk file
that another one is in the middle of writing. -/
def ClusterReads.Runs (maxAlloc : Nat) (cfgs : String → Config) (content : String → Bytes) (p : ClusterReads) :
    ReadAct → Prop
  | .env (.storage hostId a) => SingleWriter (cfgs hostId) content (p.shared.hosts hostId) a
  | .env (.client _ _ _ _) => True
  | .spawn call => call.Starts maxAlloc
  | .move _ _ => True

/-- The steps of `getGRPCClient`, when nothing comes in between. -/
def BlobCacheClient.routeAlone (r : ReadRequest) (attempt : Nat) :
    Nat → RoutePc → BlobCacheClient → BlobCacheClient × Option (Except ClientError String)
  | 0, _, c => (c, none)
  | fuel + 1, pc, c =>
    match c.route r attempt pc with
    | (c, .inl pc) => BlobCacheClient.routeAlone r attempt fuel pc c
    | (c, .inr result) => (c, some result)

/-- Taken together the steps are `getGRPCClient`. -/
theorem routeAlone_eq {c : BlobCacheClient} {r : ReadRequest} {attempt : Nat}
    (more : attempt < c.maxAttempts r.req.length) :
    BlobCacheClient.routeAlone r attempt 3 .next c =
      ((c.getGRPCClient ⟨.retrieval, r.req.hash, BlobCacheClient.keyOf r.req r.routingKey, attempt⟩).1,
        some ((c.getGRPCClient ⟨.retrieval, r.req.hash, BlobCacheClient.keyOf r.req r.routingKey, attempt⟩).2.map
          BlobCacheHost.hostId)) := by
  simp only [BlobCacheClient.routeAlone, BlobCacheClient.route, if_pos more, BlobCacheClient.getGRPCClient,
    BlobCacheClient.chooseHost]
  cases c.localHostCache r.req.hash with
  | some host =>
    dsimp only
    by_cases connected : host.hostId ∈ c.grpcClients
    · rw [if_pos connected, if_pos connected]
      rfl
    · rw [if_neg connected, if_neg connected]
      rfl
  | none =>
    dsimp only
    cases BlobCacheClient.nthHost (c.topHosts (BlobCacheClient.keyOf r.req r.routingKey)) attempt with
    | none => rfl
    | some host =>
      dsimp only
      by_cases connected : host.hostId ∈ (c.remember r.req.hash host).grpcClients
      · rw [if_pos connected, if_pos connected]
        rfl
      · rw [if_neg connected, if_neg connected]
        rfl

/-! ## What a storage delivers -/

variable {cfgs : String → Config} {content : String → Bytes}

/-- The storages have made runs of their own. -/
def Stores (cfgs : String → Config) (content : String → Bytes) (s : RunningCluster) : Prop :=
  ∀ hostId, Trace (System.step (cfgs hostId)) (SingleWriter (cfgs hostId) content) System.start (s.hosts hostId)

/-- A call of `Get` serves a request. -/
def Serves (s : RunningCluster) (hostId : String) (get : Nat) (call : GetCall) : Prop :=
  ∃ f result, (s.hosts hostId).threads[get]? = some (.get call f result)

theorem Stores.act {s : RunningCluster} (h : Stores cfgs content s) {hostId : String} {a : Storage.Act}
    (admitted : SingleWriter (cfgs hostId) content (s.hosts hostId) a) : Stores cfgs content (s.act cfgs hostId a) := by
  intro other
  by_cases same : other = hostId
  · subst same
    rw [RunningCluster.act_self]
    exact (h other).tail a admitted
  · rw [RunningCluster.act_other cfgs s same]
    exact h other

theorem Stores.get {s : RunningCluster} (h : Stores cfgs content s) (hostId : String) (call : GetCall) :
    Stores cfgs content (s.act cfgs hostId (.spawn (.startGet call))) :=
  h.act ⟨.get call, fun _ _ _ move => by cases move⟩

theorem Serves.act {s : RunningCluster} {hostId : String} {get : Nat} {call : GetCall} (h : Serves s hostId get call)
    (other : String) (a : Storage.Act) : Serves (s.act cfgs other a) hostId get call := by
  obtain ⟨f, result, found⟩ := h
  unfold Serves
  by_cases same : hostId = other
  · subst same
    rw [RunningCluster.act_self]
    exact System.get_stays found a
  · rw [RunningCluster.act_other cfgs s same]
    exact ⟨f, result, found⟩

/-- A new call of `Get` on a host. -/
theorem serves_new (s : RunningCluster) (hostId : String) (call : GetCall) :
    Serves (s.act cfgs hostId (.spawn (.startGet call))) hostId (s.hosts hostId).threads.length call := by
  unfold Serves
  rw [RunningCluster.act_self]
  exact ⟨_, _, List.getElem?_concat_length ..⟩

/-- **A call that has returned** has delivered bytes of its object from its offset on. -/
theorem Stores.delivers {s : RunningCluster} (h : Stores cfgs content s)
    (small : ∀ hash, (content hash).length < 2 ^ 63) {hostId : String} {get off len : Nat} {call : GetCall}
    {f : GetFrame} {n : Int} (returned : (s.hosts hostId).threads[get]? = some (.get call f (some (.ok n))))
    (offset : call.offset = off) (length : call.length = len) (room : len ≤ call.dst.length) :
    ∃ d : Nat, n = d ∧ d ≤ len ∧ len ≤ f.dst.length ∧ f.dst.take d = ((content call.hash).drop off).take d := by
  have reads := (orderly_run small (h hostId)).calls _ (List.mem_of_getElem? returned)
  obtain ⟨d, delivered, result⟩ := reads off len offset length room
  exact ⟨d, result _ rfl n rfl, delivered.bound, delivered.room, delivered.bytes⟩

/-- What is being served goes on being served. -/
def Goes (s s' : RunningCluster) : Prop := ∀ hostId get call, Serves s hostId get call → Serves s' hostId get call

theorem Goes.act (s : RunningCluster) (hostId : String) (a : Storage.Act) : Goes s (s.act cfgs hostId a) :=
  fun _ _ _ serves => serves.act hostId a

/-! ## `GetContent` -/

/-- A call of `GetContent` that waits is being served, and one that has returned content has the right one. -/
structure ReadOk (content : String → Bytes) (s : RunningCluster) (r : Read) : Prop where
  asked : 0 ≤ r.req.length
  waits : ∀ hostId get, r.pc = .waits hostId get → Serves s hostId get r.call
  result : ∀ bytes, r.pc = .returned (.ok bytes) → 0 ≤ r.req.offset → bytes <+: rangeOf r.req (content r.req.hash)

theorem ReadOk.goes {s s' : RunningCluster} {r : Read} (h : ReadOk content s r) (goes : Goes s s') :
    ReadOk content s' r :=
  ⟨h.asked, fun hostId get pc => goes _ _ _ (h.waits hostId get pc), h.result⟩

theorem ReadOk.move {s : RunningCluster} {r : Read} (h : ReadOk content s r) (stores : Stores cfgs content s)
    (small : ∀ hash, (content hash).length < 2 ^ 63) (breaks : Bool) :
    Stores cfgs content (r.move cfgs breaks s).1 ∧ Goes s (r.move cfgs breaks s).1 ∧
      ReadOk content (r.move cfgs breaks s).1 (r.move cfgs breaks s).2 := by
  unfold Read.move
  split
  · split
    · exact ⟨stores, fun _ _ _ serves => serves, h.asked, nofun, nofun⟩
    · exact ⟨stores, fun _ _ _ serves => serves, h.asked, nofun, nofun⟩
    · exact ⟨stores, fun _ _ _ serves => serves, h.asked, nofun, nofun⟩
  · rename_i hostId _
    split
    · exact ⟨stores, fun _ _ _ serves => serves, h.asked, nofun, nofun⟩
    · refine ⟨stores.get _ _, Goes.act _ _ _, h.asked, ?_, nofun⟩
      rintro _ _ ⟨⟩
      exact serves_new s hostId r.call
  · rename_i hostId get pc
    split
    · exact ⟨stores, fun _ _ _ serves => serves, h.asked, nofun, nofun⟩
    · split
      · rename_i call f n returned
        refine ⟨stores, fun _ _ _ serves => serves, h.asked, nofun, ?_⟩
        rintro _ ⟨⟩ offset
        obtain ⟨f', result', serves⟩ := h.waits hostId get pc
        rw [returned] at serves
        cases serves
        have room : r.req.length.toNat ≤ r.call.dst.length := by rw [Read.call, List.length_replicate]
        obtain ⟨d, rfl, short, -, bytes⟩ := stores.delivers small returned (Int.toNat_of_nonneg offset).symm
          (Int.toNat_of_nonneg h.asked).symm room
        rw [Int.toNat_natCast, bytes]
        exact List.take_prefix_take_left short
      · exact ⟨stores, fun _ _ _ serves => serves, h.asked, nofun, nofun⟩
      · exact ⟨stores, fun _ _ _ serves => serves, h⟩
  · exact ⟨stores, fun _ _ _ serves => serves, h.asked, nofun, nofun⟩
  · exact ⟨stores, fun _ _ _ serves => serves, h⟩

/-! ## `GetContentStream` -/

/-- A piece after what was sent. -/
theorem prefix_piece {object sent piece : Bytes} {off : Nat} (before : sent <+: object.drop off)
    (next : piece <+: object.drop (off + sent.length)) : sent ++ piece <+: object.drop off := by
  obtain ⟨rest, split⟩ := before
  rw [← List.drop_drop, ← split, List.drop_left] at next
  rw [← split]
  exact (List.prefix_append_right_inj sent).mpr next

/-- The handler has sent the object from the offset on, and goes on where that ends. -/
structure HandlerOk (content : String → Bytes) (s : RunningCluster) (req : GetContentRequest) (h : Handler) :
    Prop where
  of_hash : h.frame.hash = req.hash
  sent : h.frame.sent.flatten <+: (content req.hash).drop req.offset.toNat
  within : h.frame.sent.flatten.length ≤ req.length.toNat
  offset : (∀ how, h.pc ≠ .ended how) → h.frame.offset = req.offset.toNat + h.frame.sent.flatten.length
  remaining : (∀ how, h.pc ≠ .ended how) → h.frame.remainingLength = req.length - h.frame.sent.flatten.length
  room : (∀ how, h.pc ≠ .ended how) → 0 < h.frame.remainingLength → getContentStreamChunkSize ≤ h.frame.dst.length
  getting : ∀ get, h.pc = .getting get → 0 < h.frame.remainingLength ∧ Serves s h.hostId get h.call

theorem HandlerOk.start {s : RunningCluster} {req : GetContentRequest} (offset : 0 ≤ req.offset) (hostId : String) :
    HandlerOk content s req ⟨hostId, StreamFrame.start req, .loop, 0⟩ := by
  refine ⟨rfl, List.nil_prefix, Nat.zero_le _, fun _ => ?_, fun _ => ?_, fun _ _ => ?_, nofun⟩
  · simp [StreamFrame.start, Int.toNat_of_nonneg offset]
  · simp [StreamFrame.start]
  · rw [StreamFrame.start, List.length_replicate]

theorem HandlerOk.goes {s s' : RunningCluster} {req : GetContentRequest} {h : Handler}
    (ok : HandlerOk content s req h) (goes : Goes s s') : HandlerOk content s' req h :=
  ⟨ok.of_hash, ok.sent, ok.within, ok.offset, ok.remaining, ok.room, fun get pc =>
    ⟨(ok.getting get pc).1, goes _ _ _ (ok.getting get pc).2⟩⟩

/-- A handler that has come to its end needs no more than what it has sent. -/
theorem HandlerOk.end {s : RunningCluster} {req : GetContentRequest} {h : Handler} (ok : HandlerOk content s req h)
    (how : StreamEnd) : HandlerOk content s req { h with pc := .ended how } :=
  ⟨ok.of_hash, ok.sent, ok.within, fun running => absurd rfl (running how), fun running => absurd rfl (running how),
    fun running => absurd rfl (running how), nofun⟩

/-- The numbers that a handler passes to `Get` are what they should be. -/
theorem HandlerOk.call {s : RunningCluster} {req : GetContentRequest} {h : Handler} (ok : HandlerOk content s req h)
    (small : (content req.hash).length < 2 ^ 63) (running : ∀ how, h.pc ≠ .ended how)
    (more : 0 < h.frame.remainingLength) (offset : 0 ≤ req.offset) :
    h.call.offset = (req.offset.toNat + h.frame.sent.flatten.length : Nat) ∧ h.call.length = h.chunkSize.toNat ∧
      h.call.length = h.chunkSize ∧ h.chunkSize.toNat ≤ h.call.dst.length := by
  have sent := ok.sent.length_le
  rw [List.length_drop] at sent
  have place := ok.offset running
  have room := ok.room running more
  have inRange := req.offset_inRange
  obtain ⟨low, high⟩ := inRange
  have chunk : 0 < h.chunkSize ∧ h.chunkSize ≤ getContentStreamChunkSize := by
    unfold Handler.chunkSize getContentStreamChunkSize
    omega
  have size : getContentStreamChunkSize = 4 * 1024 * 1024 := rfl
  have length : h.call.length = h.chunkSize := wrap_eq (by omega) (by omega)
  refine ⟨?_, ?_, length, ?_⟩
  · show wrap h.frame.offset = _
    rw [place, wrap_eq (by omega) (by omega)]
    rfl
  · rw [length]
    omega
  · show h.chunkSize.toNat ≤ h.frame.dst.length
    omega

/-- One more piece, which `Get` has put into the buffer. -/
theorem HandlerOk.piece {s : RunningCluster} {req : GetContentRequest} {h : Handler} {get : Nat} {call : GetCall}
    {g : GetFrame} {n : Int} (ok : HandlerOk content s req h) (stores : Stores cfgs content s)
    (small : ∀ hash, (content hash).length < 2 ^ 63) (offset : 0 ≤ req.offset) (pc : h.pc = .getting get)
    (returned : (s.hosts h.hostId).threads[get]? = some (.get call g (some (.ok n)))) :
    ∃ d : Nat, n = d ∧ n ≤ h.chunkSize ∧ h.chunkSize ≤ g.dst.length ∧ (g.dst.take d).length = d ∧
      (h.frame.sent ++ [g.dst.take d]).flatten <+: (content req.hash).drop req.offset.toNat := by
  obtain ⟨more, f', result', serves⟩ := ok.getting get pc
  rw [returned] at serves
  cases serves
  obtain ⟨place, length, exact, room⟩ := ok.call (small _) (by simp [pc]) more offset
  obtain ⟨d, rfl, short, long, bytes⟩ := stores.delivers small returned place length room
  have positive : 0 ≤ h.chunkSize := by
    unfold Handler.chunkSize getContentStreamChunkSize
    omega
  refine ⟨d, rfl, by omega, by omega, ?_, ?_⟩
  · rw [List.length_take]
    omega
  · rw [List.flatten_append, List.flatten_singleton, bytes]
    have hash : h.call.hash = req.hash := ok.of_hash
    rw [hash]
    exact prefix_piece ok.sent (List.take_prefix _ _)

/-- The handler has sent a whole chunk and goes on behind it. Nothing overflows: what was read lies in the object. -/
theorem HandlerOk.next {s : RunningCluster} {req : GetContentRequest} {h : Handler} {g : GetFrame} {d : Nat}
    (ok : HandlerOk content s req h) (running : ∀ how, h.pc ≠ .ended how)
    (small : (content req.hash).length < 2 ^ 63) (some_read : (d : Int) ≠ 0) (whole : ¬ (d : Int) < h.chunkSize)
    (left : (d : Int) ≤ h.frame.remainingLength) (long : h.chunkSize ≤ g.dst.length)
    (sent : (h.frame.sent ++ [g.dst.take d]).flatten <+: (content req.hash).drop req.offset.toNat)
    (total : (h.frame.sent ++ [g.dst.take d]).flatten.length = h.frame.sent.flatten.length + d) :
    HandlerOk content s req { h with
      frame := { h.frame with
        offset := wrap (h.frame.offset + d), remainingLength := wrap (h.frame.remainingLength - d)
        dst := g.dst, sent := h.frame.sent ++ [g.dst.take d] }
      pc := .loop } := by
  have inside := sent.length_le
  rw [List.length_drop, total] at inside
  have place := ok.offset running
  have before := ok.remaining running
  obtain ⟨-, high⟩ := req.length_inRange
  have rest : wrap (h.frame.remainingLength - d) = h.frame.remainingLength - d := wrap_eq (by omega) (by omega)
  refine ⟨ok.of_hash, sent, ?_, fun _ => ?_, fun _ => ?_, fun _ more => ?_, nofun⟩
  · show (h.frame.sent ++ [g.dst.take d]).flatten.length ≤ _
    omega
  · show wrap (h.frame.offset + d) = _
    rw [total, place, wrap_eq (by omega) (by omega)]
    omega
  · show wrap (h.frame.remainingLength - d) = _
    rw [rest, total, before]
    omega
  · replace more : 0 < wrap (h.frame.remainingLength - d) := more
    rw [rest] at more
    show getContentStreamChunkSize ≤ g.dst.length
    unfold Handler.chunkSize at whole long
    omega

theorem HandlerOk.move {s : RunningCluster} {req : GetContentRequest} {h : Handler} (ok : HandlerOk content s req h)
    (stores : Stores cfgs content s) (small : ∀ hash, (content hash).length < 2 ^ 63) (offset : 0 ≤ req.offset)
    (sendError : Option String) :
    HandlerOk content (h.move cfgs sendError s).1 req (h.move cfgs sendError s).2 ∧
      (h.move cfgs sendError s).2.received = h.received ∧
      h.frame.sent <+: (h.move cfgs sendError s).2.frame.sent := by
  unfold Handler.move
  split
  · rename_i pc
    have running : ∀ how, h.pc ≠ .ended how := by simp [pc]
    split
    · rename_i more
      refine ⟨⟨ok.of_hash, ok.sent, ok.within, fun _ => ok.offset running, fun _ => ok.remaining running,
        fun _ => ok.room running, ?_⟩, rfl, List.prefix_rfl⟩
      rintro _ ⟨⟩
      exact ⟨more, serves_new s h.hostId h.call⟩
    · exact ⟨ok.end _, rfl, List.prefix_rfl⟩
  · rename_i get pc
    have running : ∀ how, h.pc ≠ .ended how := by simp [pc]
    split
    · rename_i call g n returned
      obtain ⟨d, rfl, short, long, length, sent⟩ := ok.piece stores small offset pc returned
      have before := ok.remaining running
      have left : (d : Int) ≤ h.frame.remainingLength := short.trans (min_le_left _ _)
      have total : (h.frame.sent ++ [g.dst.take d]).flatten.length = h.frame.sent.flatten.length + d := by
        rw [List.flatten_append, List.flatten_singleton, List.length_append, length]
      split
      · exact ⟨ok.end _, rfl, List.prefix_rfl⟩
      · rename_i some_read
        split
        · exact ⟨ok.end _, rfl, List.prefix_rfl⟩
        · dsimp only
          rw [Int.toNat_natCast]
          split
          · refine ⟨⟨ok.of_hash, sent, ?_, fun running => absurd rfl (running .ok),
              fun running => absurd rfl (running .ok), fun running => absurd rfl (running .ok), nofun⟩, rfl,
              List.prefix_append _ _⟩
            show (h.frame.sent ++ [g.dst.take d]).flatten.length ≤ _
            omega
          · rename_i whole
            exact ⟨ok.next running (small _) some_read whole left long sent total, rfl, List.prefix_append _ _⟩
    · exact ⟨ok.end _, rfl, List.prefix_rfl⟩
    · exact ⟨ok.end _, rfl, List.prefix_rfl⟩
    · exact ⟨ok, rfl, List.prefix_rfl⟩
  · exact ⟨ok, rfl, List.prefix_rfl⟩

/-- What one attempt has put on the channel. -/
def StreamRead.piecesOf (r : StreamRead) (attempt : Nat) : List Bytes :=
  (r.pushed.filter fun piece => piece.1 = attempt).map Prod.snd

/-- Each attempt has put a prefix of the range on the channel, and the present one what it has received. -/
structure StreamOk (content : String → Bytes) (s : RunningCluster) (r : StreamRead) : Prop where
  prefixes : ∀ attempt, (r.piecesOf attempt).flatten <+: rangeOf r.req (content r.req.hash)
  later : ∀ attempt, r.attempt < attempt → r.piecesOf attempt = []
  route : ∀ pc, r.pc = .route pc → r.piecesOf r.attempt = []
  rpc : ∀ hostId, r.pc = .rpc hostId → r.piecesOf r.attempt = []
  streams : ∀ h, r.pc = .streams h → HandlerOk content s r.req h ∧ h.received ≤ h.frame.sent.length ∧
    r.piecesOf r.attempt = h.frame.sent.take h.received

theorem StreamOk.goes {s s' : RunningCluster} {r : StreamRead} (ok : StreamOk content s r) (goes : Goes s s') :
    StreamOk content s' r :=
  ⟨ok.prefixes, ok.later, ok.route, ok.rpc, fun h pc =>
    ⟨(ok.streams h pc).1.goes goes, (ok.streams h pc).2⟩⟩

/-- An attempt that is over needs no more than what is on the channel. -/
theorem StreamOk.leave {s s' : RunningCluster} {r : StreamRead} (ok : StreamOk content s r) {pc : StreamPc}
    (idle : pc = .failed ∨ pc = .closed) : StreamOk content s' { r with pc := pc } := by
  rcases idle with rfl | rfl
  · exact ⟨ok.prefixes, ok.later, nofun, nofun, nofun⟩
  · exact ⟨ok.prefixes, ok.later, nofun, nofun, nofun⟩

theorem piecesOf_push (r : StreamRead) (pc : StreamPc) (piece : Bytes) (attempt : Nat) :
    StreamRead.piecesOf { r with pc := pc, pushed := r.pushed ++ [(r.attempt, piece)] } attempt =
      r.piecesOf attempt ++ if r.attempt = attempt then [piece] else [] := by
  unfold StreamRead.piecesOf
  rw [List.filter_append, List.map_append]
  congr 1
  split <;> simp [*]

theorem StreamOk.push {s : RunningCluster} {r : StreamRead} {h : Handler} {piece : Bytes} (ok : StreamOk content s r)
    (pc : r.pc = .streams h) (next : h.frame.sent[h.received]? = some piece) :
    StreamOk content s { r with
      pc := .streams { h with received := h.received + 1 }, pushed := r.pushed ++ [(r.attempt, piece)] } := by
  obtain ⟨handler, received, pieces⟩ := ok.streams h pc
  obtain ⟨inside, found⟩ := List.getElem?_eq_some_iff.mp next
  have more : r.piecesOf r.attempt ++ [piece] = h.frame.sent.take (h.received + 1) := by
    rw [pieces, List.take_add_one, next, Option.toList_some]
  refine ⟨fun attempt => ?_, fun attempt after => ?_, nofun, nofun, ?_⟩
  · rw [piecesOf_push]
    split
    · rename_i same
      rw [← same, more]
      have part : (h.frame.sent.take (h.received + 1)).flatten <+: h.frame.sent.flatten :=
        (List.take_prefix _ _).flatten
      refine List.prefix_take_iff.mpr ⟨part.trans handler.sent, ?_⟩
      exact part.length_le.trans handler.within
    · rw [List.append_nil]
      exact ok.prefixes attempt
  · rw [piecesOf_push, if_neg (Nat.ne_of_lt after), List.append_nil]
    exact ok.later attempt after
  · rintro _ ⟨⟩
    refine ⟨⟨handler.of_hash, handler.sent, handler.within, handler.offset, handler.remaining, handler.room,
      handler.getting⟩, inside, ?_⟩
    rw [piecesOf_push, if_pos rfl, more]

theorem StreamOk.move {s : RunningCluster} {r : StreamRead} (ok : StreamOk content s r)
    (stores : Stores cfgs content s) (small : ∀ hash, (content hash).length < 2 ^ 63) (offset : 0 ≤ r.req.offset)
    (turn : Turn) :
    StreamOk content (r.move cfgs turn s).1 (r.move cfgs turn s).2 := by
  unfold StreamRead.move
  split
  · rename_i pc at_
    have none_yet := ok.route pc at_
    split
    · refine ⟨ok.prefixes, ok.later, fun _ _ => none_yet, nofun, nofun⟩
    · exact ⟨ok.prefixes, ok.later, nofun, fun _ _ => none_yet, nofun⟩
    · exact ok.leave (.inr rfl)
  · rename_i hostId at_
    split
    · exact ok.leave (.inl rfl)
    · refine ⟨ok.prefixes, ok.later, nofun, nofun, ?_⟩
      rintro _ ⟨⟩
      exact ⟨HandlerOk.start offset hostId, Nat.zero_le _, ok.rpc hostId at_⟩
  · rename_i h at_
    split
    · exact ok.leave (.inl rfl)
    · rename_i sendError
      obtain ⟨handler, received, pieces⟩ := ok.streams h at_
      obtain ⟨handler', same, more⟩ := handler.move stores small offset sendError
      refine ⟨ok.prefixes, ok.later, nofun, nofun, ?_⟩
      rintro _ ⟨⟩
      refine ⟨handler', ?_, ?_⟩
      · rw [same]
        exact received.trans more.length_le
      · rw [same]
        obtain ⟨rest, split⟩ := more
        rw [← split, List.take_append_of_le_length received]
        exact pieces
    · split
      · rename_i piece next
        exact ok.push at_ next
      · split
        · exact ok.leave (.inr rfl)
        · exact ok.leave (.inl rfl)
        · exact ok
  · refine ⟨ok.prefixes, fun attempt after => ok.later attempt (Nat.lt_of_succ_lt after), fun _ _ => ?_, nofun, nofun⟩
    exact ok.later (r.attempt + 1) (Nat.lt_succ_self _)
  · exact ok

theorem StreamRead.move_request (cfgs : String → Config) (turn : Turn) (s : RunningCluster) (r : StreamRead) :
    (r.move cfgs turn s).2.toReadRequest = r.toReadRequest := by
  unfold StreamRead.move
  split
  · split <;> rfl
  · split <;> rfl
  · split
    · rfl
    · rfl
    · split
      · rfl
      · split <;> rfl
  · rfl
  · rfl

/-- A handler does nothing to the storages but call `Get`. -/
theorem Handler.move_hosts {s : RunningCluster} (stores : Stores cfgs content s) (h : Handler)
    (sendError : Option String) :
    Stores cfgs content (h.move cfgs sendError s).1 ∧ Goes s (h.move cfgs sendError s).1 := by
  have still : Goes s s := fun _ _ _ serves => serves
  unfold Handler.move
  split
  · split
    · exact ⟨stores.get _ _, Goes.act _ _ _⟩
    · exact ⟨stores, still⟩
  · split
    · split
      · exact ⟨stores, still⟩
      · split
        · exact ⟨stores, still⟩
        · dsimp only
          split <;> exact ⟨stores, still⟩
    · exact ⟨stores, still⟩
    · exact ⟨stores, still⟩
    · exact ⟨stores, still⟩
  · exact ⟨stores, still⟩

theorem StreamRead.move_hosts {s : RunningCluster} (stores : Stores cfgs content s) (r : StreamRead) (turn : Turn) :
    Stores cfgs content (r.move cfgs turn s).1 ∧ Goes s (r.move cfgs turn s).1 := by
  have still : Goes s s := fun _ _ _ serves => serves
  unfold StreamRead.move
  split
  · split <;> exact ⟨stores, still⟩
  · split <;> exact ⟨stores, still⟩
  · split
    · exact ⟨stores, still⟩
    · exact Handler.move_hosts stores _ _
    · split
      · exact ⟨stores, still⟩
      · split <;> exact ⟨stores, still⟩
  · exact ⟨stores, still⟩
  · exact ⟨stores, still⟩

/-! ## Every run -/

/-- What holds of every call. -/
def CallOk (content : String → Bytes) (s : RunningCluster) : ReadCall → Prop
  | .read r => ReadOk content s r
  | .stream r => 0 ≤ r.req.offset → StreamOk content s r

theorem CallOk.goes {s s' : RunningCluster} {call : ReadCall} (ok : CallOk content s call) (goes : Goes s s') :
    CallOk content s' call := by
  cases call with
  | read r => exact ReadOk.goes ok goes
  | stream r => exact fun offset => (ok offset).goes goes

theorem CallOk.starts {maxAlloc : Nat} {call : ReadCall} (starts : call.Starts maxAlloc) (s : RunningCluster) :
    CallOk content s call := by
  cases starts with
  | read r asked => exact ⟨asked, nofun, nofun⟩
  | stream r => exact fun _ => ⟨fun _ => List.nil_prefix, fun _ _ => rfl, fun _ _ => rfl, fun _ _ => rfl, nofun⟩

theorem CallOk.move {s : RunningCluster} {call : ReadCall} (ok : CallOk content s call)
    (stores : Stores cfgs content s) (small : ∀ hash, (content hash).length < 2 ^ 63) (turn : Turn) :
    Stores cfgs content (call.move cfgs turn s).1 ∧ Goes s (call.move cfgs turn s).1 ∧
      CallOk content (call.move cfgs turn s).1 (call.move cfgs turn s).2 := by
  cases call with
  | read r => exact ReadOk.move ok stores small _
  | stream r =>
    obtain ⟨stores', goes⟩ := r.move_hosts stores turn
    refine ⟨stores', goes, fun offset => ?_⟩
    rw [r.move_request cfgs turn s] at offset
    exact (ok offset).move stores small offset turn

/-- **Reads in a cluster are true.** In every run, whatever happens to the connections and to what the clients know,
and on the hosts whatever happens but that a chunk file has two writers at a time: the content that `GetContent`
returns is a prefix of the range it was asked for, and so is what any one attempt of `GetContentStream` has put on
its channel. -/
theorem cluster_reads_are_true (small : ∀ hash, (content hash).length < 2 ^ 63) {maxAlloc : Nat}
    {clients : Nat → BlobCacheClient} {p : ClusterReads}
    (run : Trace (ClusterReads.step cfgs) (ClusterReads.Runs maxAlloc cfgs content) ⟨.start clients, []⟩ p) :
    (∀ r bytes, ReadCall.read r ∈ p.threads → r.pc = .returned (.ok bytes) → 0 ≤ r.req.offset →
      bytes <+: rangeOf r.req (content r.req.hash)) ∧
    ∀ r attempt, ReadCall.stream r ∈ p.threads → 0 ≤ r.req.offset →
      (r.piecesOf attempt).flatten <+: rangeOf r.req (content r.req.hash) := by
  have invariant : Stores cfgs content p.shared ∧ ∀ call ∈ p.threads, CallOk content p.shared call := by
    refine Pool.invariant_stable ?_ ?_ ?_ run (fun _ => .refl _) (fun _ none => by cases none)
    · rintro q (⟨hostId, a⟩ | ⟨k, hasher, grpcClients, localHostCache⟩) admitted stores
      · exact ⟨stores.act admitted, fun call ok => ok.goes (Goes.act _ _ _)⟩
      · exact ⟨stores, fun call ok => ok.goes fun _ _ _ serves => serves⟩
    · exact fun q call starts _ => CallOk.starts starts _
    · intro q t turn call _ _ stores ok
      obtain ⟨stores', goes, ok'⟩ := ok.move stores small turn
      exact ⟨stores', ok', fun other held => held.goes goes⟩
  refine ⟨fun r bytes member pc offset => ?_, fun r attempt member offset => ?_⟩
  · exact (invariant.2 _ member).result bytes pc offset
  · exact (invariant.2 _ member offset).prefixes attempt

/-- The offset that a call was asked for and the content that it has returned. -/
def ClusterReads.contentAt (p : ClusterReads) (t : Nat) : Option (Int × Bytes) :=
  match p.threads[t]? with
  | some (.read r) =>
    match r.pc with
    | .returned (.ok bytes) => some (r.req.offset, bytes)
    | _ => none
  | _ => none

theorem ClusterReads.contentAt_eq_some {p : ClusterReads} {t : Nat} {offset : Int} {bytes : Bytes}
    (found : p.contentAt t = some (offset, bytes)) :
    ∃ r, ReadCall.read r ∈ p.threads ∧ r.pc = .returned (.ok bytes) ∧ r.req.offset = offset := by
  unfold ClusterReads.contentAt at found
  split at found
  · rename_i r here
    split at found
    · rename_i bytes' pc
      cases found
      exact ⟨r, List.mem_of_getElem? here, pc, rfl⟩
    · cases found
  · cases found

/-- Two bytes of the object `h`. -/
def twoBytesOfH : ReadRequest := ⟨0, ⟨"h", 0, 2, readTwo.offset_inRange, readTwo.length_inRange⟩, ""⟩

/-- The storage of a host moves on with a call. -/
def hostMoves (hostId : String) (t : Nat) (c : AddChoice) : ReadAct := .env (.storage hostId (.move t c))

/-- The second host is in the middle of storing an object of two bytes. A client asks the first one in vain, forgets it
and asks the second, which has written one byte. -/
def secondAnswers : List ReadAct :=
  List.flatten
    [[.env (.storage "b" (.spawn (.startAdd "h" [7, 8])))], .replicate 3 (hostMoves "b" 0 ⟨.finish .ok, false, ""⟩),
      [hostMoves "b" 0 ⟨.part 1, false, ""⟩], [.spawn (.read ⟨twoBytesOfH, 0, .route .next⟩)],
      .replicate 4 (.move 0 .client), .replicate 2 (hostMoves "a" 0 ⟨.finish .ok, false, ""⟩),
      .replicate 6 (.move 0 .client), .replicate 4 (hostMoves "b" 1 ⟨.finish .ok, false, ""⟩), [.move 0 .client]]

/-- The cluster after a list of steps, in pages of two bytes, with a client that knows two hosts. -/
def ofTwoBytePages (acts : List ReadAct) : ClusterReads :=
  after (ClusterReads.step fun _ => twoBytePages) acts ⟨.start fun _ => BlobCacheClient.ofTwoHosts, []⟩

theorem secondAnswers_alone : ∀ k : Fin secondAnswers.length, ∀ hostId ∈ ["a", "b"],
    ∀ thread ∈ ((ofTwoBytePages (secondAnswers.take k)).shared.hosts hostId).threads,
    ∀ file ∈ thread.begins twoBytePages,
    ∀ other ∈ ((ofTwoBytePages (secondAnswers.take k)).shared.hosts hostId).threads,
      file ∉ other.writing twoBytePages := by
  decide +kernel

theorem cluster_reads_are_true_second_host :
    ∃ r, ReadCall.read r ∈ (ofTwoBytePages secondAnswers).threads ∧ r.pc = .returned (.ok [7]) ∧
      [7] <+: rangeOf r.req [7, 8] := by
  have run : Trace (ClusterReads.step fun _ => twoBytePages)
      (ClusterReads.Runs (2 ^ 48) (fun _ => twoBytePages) fun _ => [7, 8])
      ⟨.start fun _ => BlobCacheClient.ofTwoHosts, []⟩ (ofTwoBytePages secondAnswers) := by
    refine Trace.of_list secondAnswers _ fun k => ?_
    have alone := secondAnswers_alone k
    rw [ofTwoBytePages] at alone
    generalize after (ClusterReads.step fun _ => twoBytePages) (secondAnswers.take k) _ = p at alone ⊢
    have moves (hostId : String) (known : hostId ∈ ["a", "b"]) (t : Nat) (c : AddChoice) :
        ClusterReads.Runs (2 ^ 48) (fun _ => twoBytePages) (fun _ => [7, 8]) p (hostMoves hostId t c) :=
      ⟨trivial, fun _ _ thread _ found => alone hostId known thread (List.mem_of_getElem? found)⟩
    have member := List.get_mem secondAnswers k
    generalize secondAnswers.get k = a at member ⊢
    simp only [secondAnswers, List.flatten_cons, List.flatten_nil, List.append_nil, List.mem_append, List.mem_cons,
      List.mem_replicate, List.not_mem_nil, or_false] at member
    rcases member with rfl | ⟨-, rfl⟩ | rfl | rfl | ⟨-, rfl⟩ | ⟨-, rfl⟩ | ⟨-, rfl⟩ | ⟨-, rfl⟩ | rfl
    · exact ⟨Starts.add (by decide), fun _ _ _ move => by cases move⟩
    · exact moves "b" (by decide) _ _
    · exact moves "b" (by decide) _ _
    · exact .read twoBytesOfH (by decide) (by decide)
    · exact trivial
    · exact moves "a" (by decide) _ _
    · exact trivial
    · exact moves "b" (by decide) _ _
    · exact trivial
  generalize reached : ofTwoBytePages secondAnswers = p at run ⊢
  have content : p.contentAt 0 = some (0, [7]) := by
    rw [← reached]
    decide +kernel
  obtain ⟨r, member, pc, offset⟩ := ClusterReads.contentAt_eq_some content
  exact ⟨r, member, pc, (cluster_reads_are_true (fun _ => by decide) run).1 r [7] member pc offset.ge⟩

end Blobcache.Client
