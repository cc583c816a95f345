import Blobcache.Lib.Hex
import Blobcache.Storage.Objects

/-!
# The content handlers of `CacheService`

`server.go`: `GetContent`, `HasContent`, `GetContentStream` and `StoreContent`, each over
the storage, and the prefetch worker of `prefetcher.go`, whose reads go through the same
`Get`. A handler that makes several calls of `Get` takes a schedule for each of them.
SHA-256 is a parameter: the server needs of it only that it returns 32 bytes. So is
`maxAlloc`, the longest buffer that the runtime allocates (2^48 bytes on linux/amd64).

Logging and the manual garbage collection are left out.
-/

namespace Blobcache.Server
set_option autoImplicit false
open Execution Int64Arith Storage

/-- The gRPC codes the handlers answer with. -/
inductive Code where
  | unknown
  | notFound
  | internal
  deriving DecidableEq, Repr

/-- `status.Errorf(code, message)`. -/
structure Status where
  code : Code
  message : String
  deriving DecidableEq, Repr

/-- How a handler ends: a panic is not an answer. -/
inductive Outcome (α : Type) where
  | returned (answer : α)
  | panicked
  deriving DecidableEq, Repr

/-! ## Reading -/

structure GetContentRequest where
  hash : String
  offset : Int
  length : Int
  offset_inRange : InRange offset
  length_inRange : InRange length

structure GetContentResponse where
  content : Bytes
  ok : Bool
  deriving DecidableEq, Repr

/-- `GetContent`. `make` panics on a negative length and on one beyond what the runtime allocates. -/
def getContent (maxAlloc : Nat) (cfg : Config) (sched : Nat → Around Bool) (s : Cas) (req : GetContentRequest) :
    Option (Cas × Outcome GetContentResponse) :=
  if req.length < 0 ∨ (maxAlloc : Int) < req.length then some (s, .panicked)
  else
    match s.get cfg sched req.hash req.offset req.length (List.replicate req.length.toNat 0) with
    | none => none
    | some (s', f, .ok n) => some (s', .returned ⟨f.dst.take n.toNat, true⟩)
    | some (s', _, .err _) => some (s', .returned ⟨[], false⟩)
    | some (s', _, .panic) => some (s', .panicked)

structure HasContentResponse where
  found : Bool
  ok : Bool
  deriving DecidableEq, Repr

/-- `HasContent`. -/
def hasContent (s : Cas) (hash : String) : HasContentResponse := ⟨s.existsObject hash, true⟩

/-- 4 MiB. -/
def getContentStreamChunkSize : Nat := 4 * 1024 * 1024

/-- What surrounds one piece of a stream: its call of `Get`, and whether `Send` fails. -/
structure Piece where
  get : Nat → Around Bool
  sendError : Option String

/-- A call of `GetContentStream` under way. `sent` are the pieces given to `Send`. -/
structure StreamFrame where
  hash : String
  offset : Int
  remainingLength : Int
  dst : Bytes
  sent : List Bytes
  deriving DecidableEq, Repr

inductive StreamEnd where
  | ok
  | failed (status : Status)
  | panicked
  deriving DecidableEq, Repr

def StreamFrame.start (req : GetContentRequest) : StreamFrame :=
  ⟨req.hash, req.offset, req.length, List.replicate getContentStreamChunkSize 0, []⟩

/-- One iteration of the loop of `GetContentStream`. -/
def streamStep (cfg : Config) (piece : Piece) (s : Cas) (f : StreamFrame) :
    Cas × (StreamFrame ⊕ (List Bytes × StreamEnd)) :=
  if 0 < f.remainingLength then
    let currentChunkSize := min f.remainingLength getContentStreamChunkSize
    match s.get cfg piece.get f.hash f.offset currentChunkSize f.dst with
    | some (s', _, .err e) => (s', .inr (f.sent, .failed ⟨.notFound, "Content not found: " ++ e.text⟩))
    | some (s', g, .ok n) =>
      if n = 0 then (s', .inr (f.sent, .ok))
      else
        match piece.sendError with
        | some cause => (s', .inr (f.sent, .failed ⟨.internal, "Failed to send content chunk: " ++ cause⟩))
        | none =>
          let sent := f.sent ++ [g.dst.take n.toNat]
          -- the last chunk
          if n < currentChunkSize then (s', .inr (sent, .ok))
          else (s', .inl { f with
            offset := wrap (f.offset + n), remainingLength := wrap (f.remainingLength - n)
            dst := g.dst, sent := sent })
    | some (s', _, .panic) => (s', .inr (f.sent, .panicked))
    -- never: every call of `Get` returns (`get_keeps`)
    | none => (s, .inr (f.sent, .panicked))
  else (s, .inr (f.sent, .ok))

/-- `GetContentStream`: the pieces sent, and how the call ended. Its buffer is of a fixed length. -/
def getContentStream (maxAlloc : Nat) (cfg : Config) (pieces : Nat → Piece) (s : Cas) (req : GetContentRequest) :
    Option (Cas × (List Bytes × StreamEnd)) :=
  if maxAlloc < getContentStreamChunkSize then some (s, ([], .panicked))
  else drive (fun i s f => streamStep cfg (pieces i) s f) (req.length.toNat + 1) 0 s (StreamFrame.start req)

/-! ## Storing -/

/-- The result of `sha256.Sum256`. -/
abbrev Digest := { bytes : Bytes // bytes.length = 32 }

/-- `hex.EncodeToString(hashBytes[:])`. -/
def contentHash (sha256 : Bytes → Digest) (content : Bytes) : String := Hex.encodeToString (sha256 content).val

/-- `store`. -/
def store (sha256 : Bytes → Digest) (cfg : Config) (sched : Nat → Around StoreChoice) (s : Cas) (buffer : Bytes) :
    Option (Cas × Except Status String) :=
  let hash := contentHash sha256 buffer
  match s.add cfg sched hash buffer with
  | none => none
  | some (s', .ok ()) => some (s', .ok hash)
  | some (s', .error e) => some (s', .error ⟨.internal, "Failed to add content: " ++ e.text⟩)

/-- What `stream.Recv` answers. -/
inductive Recv where
  | message (content : Bytes)
  | eof
  | failed (cause : String)
  deriving DecidableEq, Repr

/-- The receive loop of `StoreContent`, over what the stream answers. A stream that has not
ended leaves the handler waiting. `bytes.Buffer` panics when it cannot be allocated; that it
may ask for more than it needs, and panic earlier, is left out. -/
def receive (maxAlloc : Nat) : List Recv → Bytes → Option (Outcome (Except Status Bytes))
  | [], _ => none
  | .eof :: _, buffer => some (.returned (.ok buffer))
  | .failed cause :: _, _ => some (.returned (.error ⟨.unknown, "Received an error: " ++ cause⟩))
  | .message content :: rest, buffer =>
    if maxAlloc < (buffer ++ content).length then some .panicked else receive maxAlloc rest (buffer ++ content)

/-- `StoreContent`. The answer is the hash sent to the client; `sendError` is the error of
`SendAndClose`, should it fail. -/
def storeContent (sha256 : Bytes → Digest) (maxAlloc : Nat) (cfg : Config) (sched : Nat → Around StoreChoice) (s : Cas)
    (stream : List Recv) (sendError : Option Status) : Option (Cas × Outcome (Except Status String)) :=
  match receive maxAlloc stream [] with
  | none => none
  | some .panicked => some (s, .panicked)
  | some (.returned (.error status)) => some (s, .returned (.error status))
  | some (.returned (.ok buffer)) =>
    match store sha256 cfg sched s buffer with
    | none => none
    | some (s', .error status) => some (s', .returned (.error status))
    | some (s', .ok hash) =>
      match sendError with
      | none => some (s', .returned (.ok hash))
      | some status => some (s', .returned (.error status))

/-! ## Prefetching -/

/-- A `prefetchTask`, which the worker serves only for an object that exists; `dst` is the
buffer taken from the pool. -/
def prefetch (cfg : Config) (sched : Nat → Around Bool) (s : Cas) (task : GetCall) : Option Cas :=
  if s.existsObject task.hash then
    (s.get cfg sched task.hash task.offset task.length task.dst).map Prod.fst
  else some s

/-! ## Small facts -/

theorem getContentStreamChunkSize_pos : 0 < getContentStreamChunkSize := by decide

/-- The messages of a stream are received as one content, however they are split, if it can be allocated. -/
theorem receive_messages {maxAlloc : Nat} (messages : List Bytes) {buffer : Bytes} (fits : buffer.length ≤ maxAlloc) :
    receive maxAlloc (messages.map .message ++ [.eof]) buffer =
      some (if (buffer ++ messages.flatten).length ≤ maxAlloc then .returned (.ok (buffer ++ messages.flatten))
        else .panicked) := by
  induction messages generalizing buffer with
  | nil => simp [receive, fits]
  | cons content rest ih =>
    rw [List.map_cons, List.cons_append, receive, List.flatten_cons, ← List.append_assoc]
    split
    · rename_i beyond
      rw [if_neg]
      rw [List.length_append]
      omega
    · exact ih (by omega)

theorem contentHash_plain (sha256 : Bytes → Digest) (content : Bytes) : PlainHash (contentHash sha256 content) := by
  have absent {c : Char} (other : c ∉ Hex.digits) : c ∉ (contentHash sha256 content).toList :=
    fun member => other (Hex.mem_encodeToString member)
  have dots {name : List Char} (dot : '.' ∈ name) : (contentHash sha256 content).toList ≠ name := by
    rintro rfl
    exact absent (by decide) dot
  refine ⟨⟨absent (by decide), absent (by decide)⟩,
    ⟨fun empty => ?_, dots (by decide), dots (by decide), absent (by decide)⟩⟩
  have length := congrArg List.length empty
  rw [contentHash, Hex.length_encodeToString, (sha256 content).property] at length
  cases length

theorem contentHash_inj {sha256 : Bytes → Digest} {a b : Bytes}
    (same : contentHash sha256 a = contentHash sha256 b) : sha256 a = sha256 b :=
  Subtype.ext (Hex.encodeToString_injective same)

end Blobcache.Server
