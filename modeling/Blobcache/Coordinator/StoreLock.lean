import Mathlib.Algebra.Order.Ring.Int
import Mathlib.Data.Set.Basic
import Mathlib.Data.List.Basic
import Blobcache.Lib.Execution
import Blobcache.Lib.Lease

/-!
# The lock of the store-from-source path

`redis.go` and `metadata.go`. The coordinator keeps one table from lock keys to redislock
locks for all cache servers; Redis keeps for each key the token of the lock and its time to
live. A request carries the key only, so `Release` and `Refresh` act on whatever lock the
table has, whoever asks. redislock is the library assumed here: it obtains a key that Redis
does not have, with a token nobody else has, and releases and refreshes by token.
-/

namespace Blobcache.Coordinator
set_option autoImplicit false
open Execution Lease

abbrev Token := Nat

/-- The errors of redislock. -/
inductive LockError where
  | notObtained
  | lockNotHeld
  deriving DecidableEq, Repr

def LockError.text : LockError → String
  | .notObtained => "redislock: not obtained"
  | .lockNotHeld => "redislock: lock not held"

structure RedisLock where
  redis : Store String Token
  locks : String → Option Token
  /-- The next token redislock makes up. -/
  nextToken : Token

namespace RedisLock

def new : RedisLock := ⟨Store.empty, fun _ => none, 0⟩

/-- `Acquire`, without retries. -/
def acquire (l : RedisLock) (key : String) (ttl : Nat) : RedisLock × Except LockError Unit :=
  match l.redis.setIfAbsent key l.nextToken ttl with
  | (redis, true) => (⟨redis, Function.update l.locks key (some l.nextToken), l.nextToken + 1⟩, .ok ())
  | (_, false) => (l, .error .notObtained)

/-- `Release`. The result of the lock's own release is not looked at. -/
def release (l : RedisLock) (key : String) : RedisLock × Except LockError Unit :=
  match l.locks key with
  | some token =>
    ({ l with redis := (l.redis.deleteIfMatch key token).1, locks := Function.update l.locks key none }, .ok ())
  | none => (l, .error .lockNotHeld)

/-- `Refresh`. -/
def refresh (l : RedisLock) (key : String) (ttl : Nat) : RedisLock × Except LockError Unit :=
  match l.locks key with
  | none => (l, .error .lockNotHeld)
  | some token =>
    match l.redis.extendIfMatch key token ttl with
    | (redis, true) => ({ l with redis := redis }, .ok ())
    | (redis, false) => ({ l with redis := redis }, .error .notObtained)

end RedisLock

/-! ## The lock of a source -/

def storeFromContentLockTtlS : Nat := 5

/-- The path as it stands in the key. -/
def lockName (sourcePath : String) : String := sourcePath.map fun c => if c = '/' then '_' else c

/-- `MetadataStoreFromContentLock`. -/
def metadataStoreFromContentLock (locality sourcePath : String) : String :=
  "blobcache:store_from_content_lock:" ++ locality ++ ":" ++ lockName sourcePath

def setStoreFromContentLock (l : RedisLock) (locality sourcePath : String) : RedisLock × Except LockError Unit :=
  l.acquire (metadataStoreFromContentLock locality sourcePath) storeFromContentLockTtlS

def refreshStoreFromContentLock (l : RedisLock) (locality sourcePath : String) : RedisLock × Except LockError Unit :=
  l.refresh (metadataStoreFromContentLock locality sourcePath) storeFromContentLockTtlS

def removeStoreFromContentLock (l : RedisLock) (locality sourcePath : String) : RedisLock × Except LockError Unit :=
  l.release (metadataStoreFromContentLock locality sourcePath)

/-! ## Servers -/

/-- The coordinator and what each server was last given: the entry that its `Acquire` put
into Redis, with the deadline this entry has or had, until the server calls `Release`. -/
structure Servers (Server : Type) where
  lock : RedisLock
  claims : Server → String → Option (Entry Token)

inductive LockAct (Server : Type) where
  | tick (seconds : Nat)
  | acquire (server : Server) (key : String) (ttl : Nat)
  | refresh (server : Server) (key : String) (ttl : Nat)
  | release (server : Server) (key : String)

variable {Server : Type}

namespace Servers

def start : Servers Server := ⟨RedisLock.new, fun _ _ => none⟩

/-- The server's `Acquire` succeeded, it has not called `Release` since, and its entry has
not expired since. -/
def Holds (s : Servers Server) (server : Server) (key : String) : Prop :=
  ∃ e, s.claims server key = some e ∧ s.lock.redis.now < e.deadline

variable [DecidableEq Server]

def setClaim (s : Servers Server) (server : Server) (key : String) (e : Option (Entry Token)) :
    Server → String → Option (Entry Token) :=
  Function.update s.claims server (Function.update (s.claims server) key e)

/-- An entry that has not expired lasts as long as Redis now says, if Redis still has it. -/
def extended (redis : Store String Token) (key : String) (e : Entry Token) : Entry Token :=
  match redis.entries key with
  | some e' => if e.token = e'.token ∧ redis.now < e.deadline then e' else e
  | none => e

def step (a : LockAct Server) (s : Servers Server) : Servers Server :=
  match a with
  | .tick seconds => { s with lock := { s.lock with redis := s.lock.redis.advance seconds } }
  | .acquire server key ttl =>
    match s.lock.acquire key ttl with
    | (lock, .ok ()) => ⟨lock, s.setClaim server key (lock.redis.entries key)⟩
    | (lock, .error _) => { s with lock := lock }
  | .refresh _ key ttl =>
    let lock := (s.lock.refresh key ttl).1
    ⟨lock, fun server key' => (s.claims server key').map (extended lock.redis key')⟩
  | .release server key => ⟨(s.lock.release key).1, s.setClaim server key none⟩

end Servers

/-- While a server holds the lock of a key, no other server's `Acquire` of it succeeds. -/
def Excludes (s : Servers Server) : Prop :=
  ∀ (x y : Server) (key : String) (ttl : Nat), y ≠ x → s.Holds x key → (s.lock.acquire key ttl).2 ≠ .ok ()

/-- Nobody calls `Release` while another server holds the lock. -/
def OwnReleases (s : Servers Server) : LockAct Server → Prop
  | .release server key => ∀ other, other ≠ server → ¬ s.Holds other key
  | _ => True

end Blobcache.Coordinator
