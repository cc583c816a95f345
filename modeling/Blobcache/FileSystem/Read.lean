import Blobcache.Client.GetContent
import Blobcache.Client.StoreFromSource
import Blobcache.FileSystem.Node

/-!
# Reading a file

`blobfs_node.go`: `Read`. The content is asked for with `GetContent`. If no host has it, it is stored again
from its source (`StoreContentFromFUSE`) and asked for once more. The calls of the client are those of any
service, and `Mounted.serve` is the service that the client of this development is.

What the second `GetContent` returns is assigned and never used: after the block for missing content
comes the `return` of the other errors.
-/

namespace Blobcache.FileSystem
set_option autoImplicit false
open Service Int64Arith
open Blobcache.Client (BlobCacheClient ClientError Responses StoreAnswers)
open Server (GetContentRequest)
open Storage (Bytes)

/-- The calls of the client that `Read` makes. -/
inductive ContentCall : Type → Type where
  | getContent (req : GetContentRequest) (routingKey : String) : ContentCall (Except ClientError Bytes)
  | storeContentFromFUSE (path routingKey : String) (lock : Bool) : ContentCall (Except ClientError String)

/-- The errors of `Read`. -/
inductive ReadErrno where
  | eagain
  | eio
  deriving DecidableEq, Repr

/-- The arguments of `Read`: an `int64`, and a slice, which is not longer than an `int`. -/
structure ReadArgs where
  dest : Bytes
  off : Int
  dest_fits : dest.length < 2 ^ 63
  off_inRange : InRange off

def ReadArgs.request (args : ReadArgs) (hash : String) : GetContentRequest :=
  ⟨hash, args.off, args.dest.length, args.off_inRange, inRange_natCast args.dest_fits⟩

/-- The call of `GetContent`; it is the same both times. -/
def FSNode.getContent (n : FSNode) (args : ReadArgs) : ContentCall (Except ClientError Bytes) :=
  .getContent (args.request n.bfsNode.hash) n.bfsNode.path

def FSNode.storeContent (n : FSNode) : ContentCall (Except ClientError String) :=
  .storeContentFromFUSE n.bfsNode.path n.bfsNode.path true

/-- `Read`: the data, or the error. -/
def FSNode.read (n : FSNode) (args : ReadArgs) : Program ContentCall (Except ReadErrno Bytes) := do
  if n.bfsNode.attr.size = 0 then return .ok (args.dest.take 0)
  match ← .perform (n.getContent args) with
  | .ok buffer => return .ok buffer
  | .error err =>
    if err = .contentNotFound then
      match ← .perform n.storeContent with
      | .error err => return .error (if err = .unableToAcquireLock then .eagain else .eio)
      | .ok _ =>
        match ← .perform (n.getContent args) with
        | .error _ => return .error .eio
        -- the buffer is there, and the block for missing content ends here
        | .ok _ => return .error .eio
    else return .error .eio

/-! ## The calls it makes -/

def contentAnswer : Answered ContentCall → Option (Except ClientError Bytes)
  | ⟨.getContent _ _, answer⟩ => some answer
  | ⟨.storeContentFromFUSE _ _ _, _⟩ => none

/-- What the last `GetContent` among the calls was answered. -/
def lastContent (calls : List (Answered ContentCall)) : Option (Except ClientError Bytes) :=
  (calls.filterMap contentAnswer).getLast?

section

variable {σ : Type} (serve : Server ContentCall σ) (n : FSNode) (args : ReadArgs) (s : σ)

/-- The ways a read goes, by the answers of the calls. -/
inductive ReadTaken : Except ReadErrno Bytes → List (Answered ContentCall) → Prop where
  | hit {buffer : Bytes} (first : (serve _ (n.getContent args) s).1 = .ok buffer) :
      ReadTaken (.ok buffer) [⟨n.getContent args, .ok buffer⟩]
  | failed {err : ClientError} (first : (serve _ (n.getContent args) s).1 = .error err)
      (other : err ≠ .contentNotFound) :
      ReadTaken (.error .eio) [⟨n.getContent args, .error err⟩]
  | notStored {t : σ} {err : ClientError} (first : serve _ (n.getContent args) s = (.error .contentNotFound, t))
      (store : (serve _ n.storeContent t).1 = .error err) :
      ReadTaken (.error (if err = .unableToAcquireLock then .eagain else .eio))
        [⟨n.getContent args, .error .contentNotFound⟩, ⟨n.storeContent, .error err⟩]
  | stored {t u : σ} {hash : String} {second : Except ClientError Bytes}
      (first : serve _ (n.getContent args) s = (.error .contentNotFound, t))
      (store : serve _ n.storeContent t = (.ok hash, u)) (again : (serve _ (n.getContent args) u).1 = second) :
      ReadTaken (.error .eio) [⟨n.getContent args, .error .contentNotFound⟩, ⟨n.storeContent, .ok hash⟩,
        ⟨n.getContent args, second⟩]

theorem read_taken (nonempty : n.bfsNode.attr.size ≠ 0) :
    ReadTaken serve n args s ((n.read args).run serve s).1 ((n.read args).history serve s) := by
  simp only [FSNode.read, if_neg nonempty, Program.run_bind, Program.run_perform, Program.history_perform_bind]
  rcases first : serve _ (n.getContent args) s with ⟨err | buffer, t⟩
  · by_cases miss : err = .contentNotFound
    · subst miss
      simp only [if_true, Program.run_bind, Program.run_perform, Program.history_perform_bind]
      rcases store : serve _ n.storeContent t with ⟨err | hash, u⟩
      · exact .notStored first (by rw [store])
      · simp only [Program.run_bind, Program.run_perform, Program.history_perform_bind]
        cases again : (serve _ (n.getContent args) u).1 with
        | error err => exact .stored first store again
        | ok buffer => exact .stored first store again
    · simp only [if_neg miss, Program.run_pure, Program.history_pure]
      exact .failed (by rw [first]) miss
  · exact .hit (by rw [first])

/-- The content is missing, is stored from its source, and is there afterwards. -/
def Repopulated : Prop :=
  ∃ t u hash buffer, serve _ (n.getContent args) s = (.error .contentNotFound, t) ∧
    serve _ n.storeContent t = (.ok hash, u) ∧ (serve _ (n.getContent args) u).1 = .ok buffer

/-- **A read returns what the last `GetContent` returned**, whatever the calls are answered, exactly if the
content was not missing at first and there after it was stored. -/
theorem read_last_content_iff (nonempty : n.bfsNode.attr.size ≠ 0) :
    (∀ data, ((n.read args).run serve s).1 = .ok data ↔
        lastContent ((n.read args).history serve s) = some (.ok data)) ↔
      ¬ Repopulated serve n args s := by
  have taken := read_taken serve n args s nonempty
  generalize ((n.read args).run serve s).1 = result, (n.read args).history serve s = calls at taken
  cases taken with
  | hit first =>
    refine iff_of_true (fun data => ?_) ?_
    · simp [lastContent, contentAnswer, FSNode.getContent]
    · rintro ⟨t, u, hash, buffer, miss, -⟩
      rw [miss] at first
      cases first
  | failed first other =>
    refine iff_of_true (fun data => ?_) ?_
    · simp [lastContent, contentAnswer, FSNode.getContent]
    · rintro ⟨t, u, hash, buffer, miss, -⟩
      rw [miss] at first
      exact other (Except.error.inj first).symm
  | @notStored t err first store =>
    have last : lastContent [⟨n.getContent args, .error .contentNotFound⟩, ⟨n.storeContent, .error err⟩] =
        some (.error .contentNotFound) := rfl
    rw [last]
    refine iff_of_true (fun data => by simp) ?_
    rintro ⟨t', u, hash, buffer, miss, stored, -⟩
    obtain ⟨-, rfl⟩ := Prod.mk.inj (first.symm.trans miss)
    rw [stored] at store
    cases store
  | @stored t u hash second first store again =>
    have last : lastContent [⟨n.getContent args, .error .contentNotFound⟩, ⟨n.storeContent, .ok hash⟩,
        ⟨n.getContent args, second⟩] = some second := rfl
    rw [last]
    cases second with
    | error err =>
      refine iff_of_true (fun data => by simp) ?_
      rintro ⟨t', u', hash', buffer, miss, stored, there⟩
      obtain ⟨-, rfl⟩ := Prod.mk.inj (first.symm.trans miss)
      obtain ⟨-, rfl⟩ := Prod.mk.inj (store.symm.trans stored)
      cases again.symm.trans there
    | ok buffer =>
      refine iff_of_false (fun same => ?_) fun never => never ⟨t, u, hash, buffer, first, store, again⟩
      cases (same buffer).mpr rfl

end

/-! ## The client -/

/-- The client of a mounted file system, and what the hosts answer during each of its calls. -/
structure Mounted where
  client : BlobCacheClient
  calls : Nat
  responses : Nat → Responses
  answers : Nat → StoreAnswers

/-- The client makes the calls. -/
def Mounted.serve : Server ContentCall Mounted
  | _, .getContent req routingKey, m =>
    let retrieval := m.client.getContent (m.responses m.calls) req routingKey
    (retrieval.result, { m with client := retrieval.client, calls := m.calls + 1 })
  | _, .storeContentFromFUSE path routingKey lock, m =>
    let (client, result) := m.client.storeContentFromFUSE (m.answers m.calls) path routingKey lock
    (result, { m with client := client, calls := m.calls + 1 })

/-- A file of two bytes, and a read of both. -/
def twoByteFile : FSNode := ⟨.direct, { path := "/f", id := "i", hash := "h", attr := { size := 2 } }⟩

theorem two_bytes_fit : ([0, 0] : Bytes).length < 2 ^ 63 := by decide

def readBoth : ReadArgs := ⟨[0, 0], 0, two_bytes_fit, inRange_zero⟩

/-- Two hosts; from some call on, one of them has the content. The source can be stored at any time. -/
def mountedOnTwo (present : Nat) : Mounted where
  client := BlobCacheClient.ofTwoHosts
  calls := 0
  responses call := if present ≤ call then BlobCacheClient.onSecond else BlobCacheClient.refusing
  answers _ := ⟨fun _ _ => .ok ⟨true, "h", ""⟩, fun _ _ => .ok ⟨"h", true, false, ""⟩⟩

theorem read_last_content_hit :
    ((twoByteFile.read readBoth).run Mounted.serve (mountedOnTwo 0)).1 = .ok [7, 8] :=
  ((read_last_content_iff Mounted.serve twoByteFile readBoth (mountedOnTwo 0) (by decide)).mpr (by
    rintro ⟨t, u, hash, buffer, miss, -⟩
    have first : (Mounted.serve _ (twoByteFile.getContent readBoth) (mountedOnTwo 0)).1 = .ok [7, 8] := by decide
    rw [miss] at first
    cases first) [7, 8]).mpr (by decide)

/-- The hosts have the content once it is stored, and `Read` gets it from them; it returns `EIO`. -/
theorem read_drops_content :
    ((twoByteFile.read readBoth).run Mounted.serve (mountedOnTwo 1)).1 = .error .eio ∧
      lastContent ((twoByteFile.read readBoth).history Mounted.serve (mountedOnTwo 1)) = some (.ok [7, 8]) := by
  decide

end Blobcache.FileSystem
