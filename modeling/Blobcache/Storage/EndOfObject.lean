import Blobcache.Storage.Objects
import Blobcache.Storage.System

/-!
# Reads that reach the end of an object

A read that crosses or starts at the end of an object should return the bytes that are
left: `FSNode.Read` asks for whole kernel pages. The loop of `Get` ends there only because
the last chunk is shorter than the offset inside it. When the object fills its last chunk,
or is empty, the loop goes on to the next chunk, which does not exist, and the call fails
with `ErrContentNotFound`, throwing away what it has copied.

That the object is whole on disk is not enough for a read to be right. A `Get` that met a
half-written chunk file has left a short chunk in memory, and a later `Add` that writes the
file whole finds the chunk in memory and does not replace it (`reads_to_end_fails`).
-/

namespace Blobcache.Storage
set_option autoImplicit false
open Execution Interleaving Paging

/-- The call returns what the object has from `off` on, up to `len` bytes. -/
def ReadsToEnd (cfg : Config) (s : Cas) (sched : Nat → Around Bool) (hash : String) (object : Bytes)
    (off len : Nat) (dst : Bytes) : Prop :=
  ∃ s' f, s.get cfg sched hash off len dst = some (s', f, .ok (min len (object.length - off) : Nat)) ∧
    f.dst.take (min len (object.length - off)) = (object.drop off).take (min len (object.length - off))

variable {cfg : Config} {content : String → Bytes} {hash : String} {s : Cas}

/-- A store under way is one of its object. -/
def Thread.Storing (cfg : Config) (content : String → Bytes) : Thread → Prop
  | .add f none => Storage.Storing cfg content f
  | _ => True

/-- In every run, whatever fails, there are only chunks of the objects in either tier. -/
theorem inObject_run {sys : System} (run : Trace (System.step cfg) (CallSteps content) System.start sys) :
    Tiers (InObject cfg content) (InObject cfg content) sys.shared := by
  refine (System.invariant (L := Thread.Storing cfg content) ?_ ?_ ?_ ?_ run Tiers.fresh rfl).1
  · rintro _ _ (⟨plain⟩ | ⟨call⟩)
    · exact Storing.start plain.separators
    · trivial
  · intro p t c f _ tiers storing
    have inside (more : f.offset < f.content.length) : InObject cfg content f.hash (f.chunkIdx cfg) (f.chunk cfg) := by
      rw [InObject, ← storing.aligned, ← storing.object]
      exact more
    constructor
    · refine addStep_tiers tiers storing.plain (fun pc => ?_) fun _ _ at_file => ?_
      · exact inside (storing.inside (by rw [pc]; rfl))
      · exact inside (storing.at_file at_file)
    · cases next : (addStep cfg c p.shared f).2 with
      | inl f' => exact storing.step next
      | inr r => trivial
  · exact fun p _ _ _ f _ _ => Loadable.same cfg (InObject cfg content) p.shared f
  · exact fun _ _ _ _ _ => trivial

/-- A read of a whole object that reaches beyond its end succeeds exactly when its last
chunk is not full. -/
theorem Complete.past_end (complete : Complete cfg content hash s) (small : (content hash).length < 2 ^ 63)
    (sched : Nat → Around Bool) {off len : Nat} (start : off ≤ (content hash).length)
    (past : (content hash).length < off + len) (inRange : len < 2 ^ 63) {dst : Bytes} (room : len ≤ dst.length) :
    ReadsToEnd cfg s sched hash (content hash) off len dst ↔ (content hash).length % cfg.pageSizeBytes ≠ 0 := by
  obtain ⟨s', f, r, run, -, -, yields⟩ := complete.get small sched off inRange room
  have left : min len ((content hash).length - off) = (content hash).length - off := by omega
  rw [read_whole_past_end cfg.positive (pages_holds _ _) start past] at yields
  rw [ReadsToEnd, left, run]
  constructor
  · rintro ⟨_, _, same, -⟩ full
    rw [if_pos full] at yields
    obtain ⟨e, rfl⟩ := yields
    cases same
  · intro short
    rw [if_neg short] at yields
    obtain ⟨rfl, bytes⟩ := yields
    rw [List.length_drop] at bytes ⊢
    exact ⟨s', f, rfl, by rw [bytes, List.take_of_length_le (by simp)]⟩

/-- A schedule in which nothing happens around a call and nothing fails. -/
def quietStore : Nat → Around StoreChoice := fun _ => ⟨[], ⟨.ok, false, ""⟩⟩

def quietRead : Nat → Around Bool := fun _ => ⟨[], false⟩

/-- An object of one byte is stored. -/
def storeOneByte : List Act :=
  .spawn (.startAdd "a" [7]) :: List.replicate 6 (.move 0 ⟨.finish .ok, false, ""⟩)

/-- The write of the first chunk stops after a byte. -/
def stopsShort : Nat → Around StoreChoice
  | 3 => ⟨[], ⟨.failed 1, false, "no space left on device"⟩⟩
  | _ => ⟨[], ⟨.ok, false, ""⟩⟩

/-- A store fails, a read keeps what it has written in memory, and a second store succeeds. -/
def storesOverShort : List Op :=
  [.add "a" [7, 8] stopsShort, .get readOne quietRead, .env (.accept "a-0"), .add "a" [7, 8] quietStore]

end Blobcache.Storage
