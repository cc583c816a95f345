import Blobcache.Storage.Get

/-!
# `ContentAddressableStorage.Add`

The store loop, one step at a time: create the object's directory, then for each chunk
write its file and offer it to the memory cache, then put the list of chunk keys. The
usage flag is read before every disk access, so the usage monitor can switch the disk off or
on in the middle of a call; the read of the flag and the access are two steps, and no lock
holds them together.

`os.WriteFile` truncates the file and writes the chunk, possibly in several pieces. A
step either carries the write through, to success or to a failure that leaves a prefix
(`WriteStep.finish`), or interrupts it after some bytes (`WriteStep.part`), so that other
calls observe the file in between. An interrupted writer goes on at its own position in
the file, whatever another writer has done to it meanwhile.
-/

namespace Blobcache.Storage
set_option autoImplicit false
open AdmissionCache Execution

inductive AddError where
  | createDirectory (cause : String)
  | writeDiskCache (cause : String)
  | setDropped
  deriving DecidableEq, Repr

/-- The text of the error, as the handlers print it. -/
def AddError.text : AddError → String
  | .createDirectory cause => "failed to create cache directory: " ++ cause
  | .writeDiskCache cause => "failed to write to disk cache: " ++ cause
  | .setDropped => "unable to cache: set dropped"

/-- How a disk access of `Add` ends. -/
inductive DiskResult where
  | ok
  | failed (written : Nat)
  deriving DecidableEq, Repr

inductive WriteStep where
  | finish (result : DiskResult)
  | part (written : Nat)
  deriving DecidableEq, Repr

/-- The choices left to the disk and to the memory cache in one step. `cause` is the text
of the system's error, should the disk access fail. -/
structure AddChoice where
  write : WriteStep
  setRefused : Bool
  cause : String
  deriving DecidableEq, Repr

/-- Where a call is. At `mkdir` and at `write` it has found the usage flag unset. -/
inductive AddPc where
  | start
  | mkdir
  | loop
  | write
  | writing (pos : Nat)
  | set
  deriving DecidableEq, Repr

/-- The call has a chunk in hand. -/
def AddPc.inChunk : AddPc → Bool
  | .write | .writing _ | .set => true
  | .start | .mkdir | .loop => false

/-- A call of `Add(hash, content)` under way. -/
structure AddFrame where
  hash : String
  content : Bytes
  offset : Nat
  chunkKeys : List String
  pc : AddPc
  deriving DecidableEq, Repr

def AddFrame.start (hash : String) (content : Bytes) : AddFrame := ⟨hash, content, 0, [], .start⟩

/-- `offset / PageSizeBytes`. -/
def AddFrame.chunkIdx (cfg : Config) (f : AddFrame) : Nat := f.offset / cfg.pageSizeBytes

def AddFrame.chunkKey (cfg : Config) (f : AddFrame) : String := Storage.chunkKey f.hash (f.chunkIdx cfg)

/-- `content[offset:end]`, `end` being cut to the size of the content. -/
def AddFrame.chunk (cfg : Config) (f : AddFrame) : Bytes :=
  (f.content.drop f.offset).take (min (f.offset + cfg.pageSizeBytes) f.content.length - f.offset)

/-- Writing at a position of a file; a gap before the position reads as zeros. -/
def writeAt (file : Bytes) (pos : Nat) (data : Bytes) : Bytes :=
  file.take pos ++ List.replicate (pos - file.length) 0 ++ data ++ file.drop (pos + data.length)

@[simp] theorem writeAt_nil (data : Bytes) : writeAt [] 0 data = data := by
  simp [writeAt]

theorem writeAt_length_le {file data : Bytes} {pos n : Nat} (old : file.length ≤ n) (new : pos + data.length ≤ n) :
    (writeAt file pos data).length ≤ n := by
  simp only [writeAt, List.length_append, List.length_take, List.length_replicate, List.length_drop]
  omega

/-- What a write step has put into the file of the `rest` it was to write. -/
def WriteStep.data (rest : Bytes) : WriteStep → Bytes
  | .finish .ok => rest
  | .finish (.failed written) => rest.take written
  | .part written => rest.take written

theorem WriteStep.data_prefix (c : WriteStep) (rest : Bytes) : c.data rest <+: rest := by
  unfold WriteStep.data
  split
  · exact List.prefix_rfl
  · exact List.take_prefix _ _
  · exact List.take_prefix _ _

/-- `os.WriteFile` from position `pos` on, over what the file holds. -/
def Cas.writeChunk (cfg : Config) (c : AddChoice) (s : Cas) (f : AddFrame) (file : Bytes) (pos : Nat) :
    Cas × (AddFrame ⊕ (Except AddError Unit)) :=
  let data := c.write.data ((f.chunk cfg).drop pos)
  let s' := s.setFile f.hash (f.chunkKey cfg) (writeAt file pos data)
  match c.write with
  | .finish .ok => (s', .inl { f with pc := .set })
  | .finish (.failed _) => (s', .inr (.error (.writeDiskCache c.cause)))
  | .part _ => (s', .inl { f with pc := .writing (pos + data.length) })

/-- One step of a call. -/
def addStep (cfg : Config) (c : AddChoice) (s : Cas) (f : AddFrame) :
    Cas × (AddFrame ⊕ (Except AddError Unit)) :=
  match f.pc with
  | .start =>
    if s.diskCachedUsageExceeded then (s, .inl { f with pc := .loop }) else (s, .inl { f with pc := .mkdir })
  | .mkdir =>
    match c.write with
    | .finish (.failed _) => (s, .inr (.error (.createDirectory c.cause)))
    | _ => (s.mkdirAll f.hash, .inl { f with pc := .loop })
  | .loop =>
    if f.offset < f.content.length then
      if s.diskCachedUsageExceeded then (s, .inl { f with pc := .set }) else (s, .inl { f with pc := .write })
    else
      match s.cache.put c.setRefused true f.hash (.index (joinKeys f.chunkKeys)) with
      | (cache, true) => ({ s with cache := cache }, .inr (.ok ()))
      | (_, false) => (s, .inr (.error .setDropped))
  | .write =>
    -- the directory is missing when the usage flag was set while it should have been created
    if s.dirs f.hash then s.writeChunk cfg c f [] 0 else (s, .inr (.error (.writeDiskCache c.cause)))
  | .writing pos => s.writeChunk cfg c f ((s.files f.hash (f.chunkKey cfg)).getD []) pos
  | .set =>
    let next := { f with
      pc := .loop, offset := f.offset + cfg.pageSizeBytes, chunkKeys := f.chunkKeys ++ [f.chunkKey cfg] }
    if (s.cache.get (f.chunkKey cfg)).isSome then (s, .inl next)
    else
      match s.cache.put c.setRefused false (f.chunkKey cfg) (.chunk f.hash (f.chunk cfg)) with
      | (cache, true) => ({ s with cache := cache }, .inl next)
      | (_, false) => (s, .inr (.error .setDropped))

/-- The choices in a step of a call whose file writes nobody observes half done. -/
structure StoreChoice where
  disk : DiskResult
  setRefused : Bool
  cause : String
  deriving DecidableEq, Repr

def StoreChoice.toAdd (c : StoreChoice) : AddChoice := ⟨.finish c.disk, c.setRefused, c.cause⟩

/-- The whole call. A chunk takes three steps and advances by a byte at least. -/
def Cas.add (cfg : Config) (sched : Nat → Around StoreChoice) (s : Cas) (hash : String) (content : Bytes) :
    Option (Cas × Except AddError Unit) :=
  drive (fun i s f => addStep cfg (sched i).choice.toAdd (s.envs (sched i).before) f)
    (3 * content.length + 6) 0 s (AddFrame.start hash content)

/-! ## What a step can do -/

/-- The call is about to write its chunk at `pos` of a file that holds `file`: it has just
truncated the file, or goes on with an interrupted write. -/
inductive AtFile (cfg : Config) (s : Cas) (f : AddFrame) : Bytes → Nat → Prop where
  | truncated (pc : f.pc = .write) (parent : s.dirs f.hash = true) : AtFile cfg s f [] 0
  | resumed {pos : Nat} (pc : f.pc = .writing pos) :
      AtFile cfg s f ((s.files f.hash (f.chunkKey cfg)).getD []) pos

/-- The outcomes of one step, by the branch taken. -/
inductive AddTaken (cfg : Config) (c : AddChoice) (s : Cas) (f : AddFrame) :
    Cas → AddFrame ⊕ (Except AddError Unit) → Prop where
  | noDir (pc : f.pc = .start) (exceeded : s.diskCachedUsageExceeded = true) :
      AddTaken cfg c s f s (.inl { f with pc := .loop })
  | toDir (pc : f.pc = .start) (enabled : s.diskCachedUsageExceeded = false) :
      AddTaken cfg c s f s (.inl { f with pc := .mkdir })
  | dirFailed {written : Nat} (pc : f.pc = .mkdir) (failed : c.write = .finish (.failed written)) :
      AddTaken cfg c s f s (.inr (.error (.createDirectory c.cause)))
  | dir (pc : f.pc = .mkdir) (made : ∀ written, c.write ≠ .finish (.failed written)) :
      AddTaken cfg c s f (s.mkdirAll f.hash) (.inl { f with pc := .loop })
  | skipWrite (pc : f.pc = .loop) (more : f.offset < f.content.length)
      (exceeded : s.diskCachedUsageExceeded = true) :
      AddTaken cfg c s f s (.inl { f with pc := .set })
  | toWrite (pc : f.pc = .loop) (more : f.offset < f.content.length)
      (enabled : s.diskCachedUsageExceeded = false) :
      AddTaken cfg c s f s (.inl { f with pc := .write })
  | noParent (pc : f.pc = .write) (missing : s.dirs f.hash = false) :
      AddTaken cfg c s f s (.inr (.error (.writeDiskCache c.cause)))
  | written {file : Bytes} {pos : Nat} (at_file : AtFile cfg s f file pos) (whole : c.write = .finish .ok) :
      AddTaken cfg c s f
        (s.setFile f.hash (f.chunkKey cfg) (writeAt file pos (c.write.data ((f.chunk cfg).drop pos))))
        (.inl { f with pc := .set })
  | writeFailed {file : Bytes} {pos written : Nat} (at_file : AtFile cfg s f file pos)
      (failed : c.write = .finish (.failed written)) :
      AddTaken cfg c s f
        (s.setFile f.hash (f.chunkKey cfg) (writeAt file pos (c.write.data ((f.chunk cfg).drop pos))))
        (.inr (.error (.writeDiskCache c.cause)))
  | writePart {file : Bytes} {pos written : Nat} (at_file : AtFile cfg s f file pos)
      (part : c.write = .part written) :
      AddTaken cfg c s f
        (s.setFile f.hash (f.chunkKey cfg) (writeAt file pos (c.write.data ((f.chunk cfg).drop pos))))
        (.inl { f with pc := .writing (pos + (c.write.data ((f.chunk cfg).drop pos)).length) })
  | known (pc : f.pc = .set) (present : (s.cache.get (f.chunkKey cfg)).isSome = true) :
      AddTaken cfg c s f s (.inl { f with
        pc := .loop, offset := f.offset + cfg.pageSizeBytes, chunkKeys := f.chunkKeys ++ [f.chunkKey cfg] })
  | offered (pc : f.pc = .set) (absent : s.cache.get (f.chunkKey cfg) = none)
      (accepted : (s.cache.put c.setRefused false (f.chunkKey cfg) (.chunk f.hash (f.chunk cfg))).2 = true) :
      AddTaken cfg c s f
        { s with cache := (s.cache.put c.setRefused false (f.chunkKey cfg) (.chunk f.hash (f.chunk cfg))).1 }
        (.inl { f with
          pc := .loop, offset := f.offset + cfg.pageSizeBytes, chunkKeys := f.chunkKeys ++ [f.chunkKey cfg] })
  | refused (pc : f.pc = .set) (answer : c.setRefused = true) :
      AddTaken cfg c s f s (.inr (.error .setDropped))
  | indexed (pc : f.pc = .loop) (done : f.content.length ≤ f.offset)
      (accepted : (s.cache.put c.setRefused true f.hash (.index (joinKeys f.chunkKeys))).2 = true) :
      AddTaken cfg c s f
        { s with cache := (s.cache.put c.setRefused true f.hash (.index (joinKeys f.chunkKeys))).1 }
        (.inr (.ok ()))
  | indexRefused (pc : f.pc = .loop) (done : f.content.length ≤ f.offset) (answer : c.setRefused = true) :
      AddTaken cfg c s f s (.inr (.error .setDropped))

theorem writeChunk_taken {cfg : Config} (c : AddChoice) {s : Cas} {f : AddFrame} {file : Bytes} {pos : Nat}
    (at_file : AtFile cfg s f file pos) :
    AddTaken cfg c s f (s.writeChunk cfg c f file pos).1 (s.writeChunk cfg c f file pos).2 := by
  cases write : c.write with
  | finish result =>
    cases result with
    | ok =>
      have := AddTaken.written at_file write
      simpa only [Cas.writeChunk, write] using this
    | failed n =>
      have := AddTaken.writeFailed at_file write
      simpa only [Cas.writeChunk, write] using this
  | part n =>
    have := AddTaken.writePart at_file write
    simpa only [Cas.writeChunk, write] using this

theorem addStep_taken (cfg : Config) (c : AddChoice) (s : Cas) (f : AddFrame) :
    AddTaken cfg c s f (addStep cfg c s f).1 (addStep cfg c s f).2 := by
  cases pc : f.pc with
  | start =>
    simp only [addStep, pc]
    cases flag : s.diskCachedUsageExceeded with
    | true => exact .noDir pc flag
    | false => exact .toDir pc flag
  | mkdir =>
    simp only [addStep, pc]
    cases write : c.write with
    | finish result =>
      cases result with
      | ok => exact .dir pc fun _ failed => by rw [write] at failed; cases failed
      | failed n => exact .dirFailed pc write
    | part n => exact .dir pc fun _ failed => by rw [write] at failed; cases failed
  | write =>
    simp only [addStep, pc]
    cases parent : s.dirs f.hash with
    | true => exact writeChunk_taken c (.truncated pc parent)
    | false => exact .noParent pc parent
  | loop =>
    simp only [addStep, pc]
    by_cases more : f.offset < f.content.length
    · rw [if_pos more]
      cases flag : s.diskCachedUsageExceeded with
      | true => exact .skipWrite pc more flag
      | false => exact .toWrite pc more flag
    · rw [if_neg more]
      rcases answer : s.cache.put c.setRefused true f.hash (.index (joinKeys f.chunkKeys)) with ⟨cache, accepted⟩
      cases accepted with
      | true =>
        have : AddTaken cfg c s f _ _ := .indexed pc (by omega) (by rw [answer])
        rwa [answer] at this
      | false => exact .indexRefused pc (by omega) (Cache.refused_of_put answer)
  | writing pos =>
    simp only [addStep, pc]
    exact writeChunk_taken c (.resumed pc)
  | set =>
    simp only [addStep, pc]
    cases found : s.cache.get (f.chunkKey cfg) with
    | some v => exact .known pc (by rw [found]; rfl)
    | none =>
      simp only [Option.isSome_none, Bool.false_eq_true, if_false]
      rcases answer : s.cache.put c.setRefused false (f.chunkKey cfg) (.chunk f.hash (f.chunk cfg)) with
        ⟨cache, accepted⟩
      cases accepted with
      | true =>
        have : AddTaken cfg c s f _ _ := .offered pc found (by rw [answer])
        rwa [answer] at this
      | false => exact .refused pc (Cache.refused_of_put answer)

/-- A store keeps the tiers, provided the chunk it offers may stand in memory and what it
leaves in the chunk file may stand on disk. -/
theorem addStep_tiers {inMemory onDisk : ChunkPred} {cfg : Config} {c : AddChoice} {s : Cas} {f : AddFrame}
    (h : Tiers inMemory onDisk s) (plain : NoSeparators f.hash)
    (chunk : f.pc = .set → inMemory f.hash (f.chunkIdx cfg) (f.chunk cfg))
    (writes : ∀ file pos, AtFile cfg s f file pos →
      onDisk f.hash (f.chunkIdx cfg) (writeAt file pos (c.write.data ((f.chunk cfg).drop pos)))) :
    Tiers inMemory onDisk (addStep cfg c s f).1 := by
  have taken := addStep_taken cfg c s f
  generalize (addStep cfg c s f).1 = s', (addStep cfg c s f).2 = out at taken
  cases taken with
  | dir => exact h.make_dir _
  | written at_file => exact h.set_file plain (writes _ _ at_file)
  | writeFailed at_file => exact h.set_file plain (writes _ _ at_file)
  | writePart at_file => exact h.set_file plain (writes _ _ at_file)
  | offered pc => exact h.put_chunk plain (chunk pc) _
  | indexed => exact h.put_index plain _ _
  | _ => exact h

end Blobcache.Storage
