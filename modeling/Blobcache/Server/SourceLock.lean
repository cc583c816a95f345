import Blobcache.Coordinator.MutualExclusion
import Blobcache.Server.S3Clients

/-!
# The lock of a source

`StoreContentFromSourceWithLock` stores a source under a lock. The first part of this module
is about the key of that lock: it is made of the locality and the path of the request, with
`_` for every `/`. What the request reads is the clean path of a local file, or an object of
a bucket. So there are sources that share a key, and spellings of one file that do not. The
second part is about the exits of the handler: it releases the lock on all of them but one,
where the source could not be read.
-/

namespace Blobcache.Server
set_option autoImplicit false
open Coordinator Lease Storage

/-! ## Keys -/

/-- Two characters of paths that are the same in the key. -/
inductive SameInKey : Char → Char → Prop where
  | refl (c : Char) : SameInKey c c
  | slash : SameInKey '/' '_'
  | underscore : SameInKey '_' '/'

/-- Two paths of one length that differ at most where one has a slash and the other an underscore. -/
def Alike (p q : String) : Prop := List.Forall₂ SameInKey p.toList q.toList

/-- The two requests read the same local file, or the same object. -/
def SameSource (a b : CacheSource) : Prop :=
  (a.bucketName = "" ∧ b.bucketName = "" ∧ a.localPath = b.localPath) ∨
    (a.bucketName ≠ "" ∧ b.bucketName ≠ "" ∧ a.endpointUrl = b.endpointUrl ∧ a.region = b.region ∧
      a.bucketName = b.bucketName ∧ a.path = b.path)

/-- What makes the keys of two requests equal for different sources, or different for one. -/
inductive Confused (l₁ l₂ : String) (a b : CacheSource) : Prop where
  /-- A locality goes on, after a colon, with what the other path begins with. -/
  | locality (rest : String) (longer : l₁ = l₂ ++ ":" ++ rest) (noSlash : '/' ∉ rest.toList)
      (paths : Alike b.path (rest ++ ":" ++ a.path))
  | locality' (rest : String) (longer : l₂ = l₁ ++ ":" ++ rest) (noSlash : '/' ∉ rest.toList)
      (paths : Alike a.path (rest ++ ":" ++ b.path))
  /-- Two spellings of one file. -/
  | spelling (same : l₁ = l₂) (fromFile : a.bucketName = "") (fromFile' : b.bucketName = "")
      (file : a.localPath = b.localPath) (paths : ¬ Alike a.path b.path)
  /-- A slash in one path is an underscore in the other. -/
  | separator (same : l₁ = l₂) (different : a.path ≠ b.path) (paths : Alike a.path b.path)
      (files : a.bucketName = "" → b.bucketName = "" → a.localPath ≠ b.localPath)
  /-- One path, in different buckets, or in a bucket and in the file system. -/
  | place (same : l₁ = l₂) (paths : a.path = b.path) (fromS3 : a.bucketName ≠ "" ∨ b.bucketName ≠ "")
      (places : (a.endpointUrl, a.region, a.bucketName) ≠ (b.endpointUrl, b.region, b.bucketName))

theorem lockName_toList (p : String) : (lockName p).toList = p.toList.map fun c => if c = '/' then '_' else c :=
  String.toList_map

theorem sameInKey_iff {c d : Char} :
    (if c = '/' then '_' else c) = (if d = '/' then '_' else d) ↔ SameInKey c d := by
  constructor
  · intro same
    split at same
    · rename_i slash
      split at same
      · rename_i slash'
        exact (slash.trans slash'.symm) ▸ .refl c
      · exact slash ▸ same ▸ .slash
    · split at same
      · rename_i slash
        exact slash ▸ same ▸ .underscore
      · exact same ▸ .refl c
  · intro same
    cases same with
    | refl => rfl
    | slash => rfl
    | underscore => rfl

theorem lockName_eq_iff {p q : String} : lockName p = lockName q ↔ Alike p q := by
  rw [← String.toList_inj, lockName_toList, lockName_toList, ← List.forall₂_eq_eq_eq, List.forall₂_map_left_iff,
    List.forall₂_map_right_iff]
  simp only [sameInKey_iff, Alike]

/-- A name that begins with what has no slash. -/
theorem lockName_eq_append_iff {p q rest : String} :
    lockName p = rest ++ ":" ++ lockName q ↔ '/' ∉ rest.toList ∧ Alike p (rest ++ ":" ++ q) := by
  have joined (noSlash : '/' ∉ rest.toList) : lockName (rest ++ ":" ++ q) = rest ++ ":" ++ lockName q := by
    have kept : rest.toList.map (fun c => if c = '/' then '_' else c) = rest.toList := by
      refine (List.map_congr_left (g := id) fun c member => if_neg ?_).trans (List.map_id _)
      rintro rfl
      exact noSlash member
    simp only [← String.toList_inj, lockName_toList, String.toList_append, List.map_append, kept]
    rfl
  constructor
  · intro same
    have noSlash : '/' ∉ rest.toList := by
      intro member
      have chars : (lockName p).toList = (rest ++ ":" ++ lockName q).toList := by rw [same]
      have slash : '/' ∈ (lockName p).toList := by
        rw [chars, String.toList_append, String.toList_append]
        exact List.mem_append_left _ (List.mem_append_left _ member)
      rw [lockName_toList, List.mem_map] at slash
      obtain ⟨c, -, replaced⟩ := slash
      split at replaced
      · cases replaced
      · contradiction
    exact ⟨noSlash, lockName_eq_iff.mp (same.trans (joined noSlash).symm)⟩
  · rintro ⟨noSlash, alike⟩
    exact (lockName_eq_iff.mpr alike).trans (joined noSlash)

/-- Where a separator can stand in two ways. -/
theorem append_separator_eq {α : Type} {x : α} {a a' b b' : List α} :
    a ++ x :: b = a' ++ x :: b' ↔ a = a' ∧ b = b' ∨ (∃ t, a = a' ++ x :: t ∧ b' = t ++ x :: b) ∨
      ∃ t, a' = a ++ x :: t ∧ b = t ++ x :: b' := by
  constructor
  · intro same
    rcases List.append_eq_append_iff.mp same with ⟨t, longer, rest⟩ | ⟨t, longer, rest⟩
    · cases t with
      | nil =>
        cases rest
        exact .inl ⟨by rw [longer, List.append_nil], rfl⟩
      | cons y t =>
        cases rest
        exact .inr (.inr ⟨t, longer, rfl⟩)
    · cases t with
      | nil =>
        cases rest
        exact .inl ⟨by rw [longer, List.append_nil], rfl⟩
      | cons y t =>
        cases rest
        exact .inr (.inl ⟨t, longer, rfl⟩)
  · rintro (⟨rfl, rfl⟩ | ⟨t, rfl, rfl⟩ | ⟨t, rfl, rfl⟩) <;> simp

/-- The same for strings and a separator of one character. -/
theorem joined_eq {separator : String} {x : Char} (one : separator.toList = [x]) {a a' b b' : String} :
    a ++ separator ++ b = a' ++ separator ++ b' ↔ a = a' ∧ b = b' ∨
      (∃ t, a = a' ++ separator ++ t ∧ b' = t ++ separator ++ b) ∨
      ∃ t, a' = a ++ separator ++ t ∧ b = t ++ separator ++ b' := by
  have chars (u v w : String) : w = u ++ separator ++ v ↔ w.toList = u.toList ++ x :: v.toList := by
    rw [← String.toList_inj, String.toList_append, String.toList_append, one, List.append_assoc,
      List.singleton_append]
  have strings {P : List Char → Prop} : (∃ t, P t) ↔ ∃ t : String, P t.toList :=
    ⟨fun ⟨t, holds⟩ => ⟨String.ofList t, by rwa [String.toList_ofList]⟩, fun ⟨t, holds⟩ => ⟨_, holds⟩⟩
  rw [chars, String.toList_append, String.toList_append, one, List.append_assoc, List.singleton_append,
    append_separator_eq, String.toList_inj, String.toList_inj, strings, strings]
  simp only [chars]

theorem metadataStoreFromContentLock_eq {l₁ l₂ p₁ p₂ : String} :
    metadataStoreFromContentLock l₁ p₁ = metadataStoreFromContentLock l₂ p₂ ↔
      l₁ ++ ":" ++ lockName p₁ = l₂ ++ ":" ++ lockName p₂ := by
  have key (l p : String) : metadataStoreFromContentLock l p =
      "blobcache:store_from_content_lock:" ++ (l ++ ":" ++ lockName p) := by
    rw [← String.append_assoc, ← String.append_assoc]
    rfl
  rw [key, key, String.append_right_inj]

/-- In one locality the keys are those of the paths. -/
theorem metadataStoreFromContentLock_path (l p₁ p₂ : String) :
    metadataStoreFromContentLock l p₁ = metadataStoreFromContentLock l p₂ ↔ Alike p₁ p₂ := by
  rw [metadataStoreFromContentLock_eq, String.append_right_inj, lockName_eq_iff]

theorem longer_ne {l rest : String} : l ++ ":" ++ rest ≠ l := by
  intro same
  have length := congrArg String.length same
  rw [String.length_append, String.length_append] at length
  have colon : ":".length = 1 := rfl
  omega

section

variable {l l₁ l₂ : String} {a b : CacheSource}

/-- In one locality the key separates the sources, but for the kinds of `Confused`. -/
theorem separates_local (sound : ¬ Confused l l a b) : Alike a.path b.path ↔ SameSource a b := by
  constructor
  · intro alike
    by_cases fromFile : a.bucketName = "" ∧ b.bucketName = ""
    · refine .inl ⟨fromFile.1, fromFile.2, ?_⟩
      by_contra files
      refine sound (.separator rfl (fun paths => files ?_) alike fun _ _ => files)
      rw [CacheSource.localPath, paths]
      rfl
    · have paths : a.path = b.path := by
        by_contra paths
        exact sound (.separator rfl paths alike fun empty empty' => absurd ⟨empty, empty'⟩ fromFile)
      have places : (a.endpointUrl, a.region, a.bucketName) = (b.endpointUrl, b.region, b.bucketName) := by
        by_contra places
        exact sound (.place rfl paths (not_and_or.mp fromFile) places)
      obtain ⟨endpoints, regions, buckets⟩ : _ ∧ _ ∧ _ := by simpa using places
      have fromS3 : a.bucketName ≠ "" := fun empty => fromFile ⟨empty, by rw [← buckets]; exact empty⟩
      exact .inr ⟨fromS3, by rw [← buckets]; exact fromS3, endpoints, regions, buckets, paths⟩
  · rintro (⟨fromFile, fromFile', file⟩ | ⟨-, -, -, -, -, paths⟩)
    · by_contra differ
      exact sound (.spelling rfl fromFile fromFile' file differ)
    · rw [paths]
      exact List.forall₂_same.mpr fun c _ => .refl c

/-- Each of these kinds breaks one direction. -/
theorem Confused.breaks (confused : Confused l₁ l₂ a b) :
    ¬ (metadataStoreFromContentLock l₁ a.path = metadataStoreFromContentLock l₂ b.path ↔
      l₁ = l₂ ∧ SameSource a b) := by
  intro separates
  cases confused with
  | locality rest longer noSlash paths =>
    have keys : metadataStoreFromContentLock l₁ a.path = metadataStoreFromContentLock l₂ b.path := by
      rw [metadataStoreFromContentLock_eq, longer, lockName_eq_append_iff.mpr ⟨noSlash, paths⟩]
      simp only [String.append_assoc]
    exact longer_ne (longer.symm.trans (separates.mp keys).1)
  | locality' rest longer noSlash paths =>
    have keys : metadataStoreFromContentLock l₁ a.path = metadataStoreFromContentLock l₂ b.path := by
      rw [metadataStoreFromContentLock_eq, longer, lockName_eq_append_iff.mpr ⟨noSlash, paths⟩]
      simp only [String.append_assoc]
    exact longer_ne (longer.symm.trans (separates.mp keys).1.symm)
  | spelling same fromFile fromFile' file paths =>
    subst same
    exact paths ((metadataStoreFromContentLock_path _ _ _).mp
      (separates.mpr ⟨rfl, .inl ⟨fromFile, fromFile', file⟩⟩))
  | separator same different paths files =>
    subst same
    rcases (separates.mp ((metadataStoreFromContentLock_path _ _ _).mpr paths)).2 with
      ⟨fromFile, fromFile', file⟩ | ⟨-, -, -, -, -, path⟩
    · exact files fromFile fromFile' file
    · exact different path
  | place same paths fromS3 places =>
    subst same
    have keys : metadataStoreFromContentLock l₁ a.path = metadataStoreFromContentLock l₁ b.path := by rw [paths]
    rcases (separates.mp keys).2 with ⟨fromFile, fromFile', -⟩ | ⟨-, -, endpoints, regions, buckets, -⟩
    · exact fromS3.elim (· fromFile) (· fromFile')
    · exact places (by rw [endpoints, regions, buckets])

/-- **The keys of store locks.** Two requests have the same lock exactly when they are for the same
source in the same locality, provided they are of none of the kinds of `Confused`; and for
those this fails. -/
theorem lock_keys_separate_iff (l₁ l₂ : String) (a b : CacheSource) :
    (metadataStoreFromContentLock l₁ a.path = metadataStoreFromContentLock l₂ b.path ↔
      l₁ = l₂ ∧ SameSource a b) ↔ ¬ Confused l₁ l₂ a b := by
  refine ⟨fun separates confused => confused.breaks separates, fun sound => ?_⟩
  by_cases same : l₁ = l₂
  · subst same
    rw [metadataStoreFromContentLock_path, separates_local sound]
    simp
  · refine iff_of_false (fun keys => ?_) fun both => same both.1
    rcases (joined_eq rfl).mp (metadataStoreFromContentLock_eq.mp keys) with ⟨equal, -⟩ | longer | longer
    · exact same equal
    · obtain ⟨rest, longer, name⟩ := longer
      exact sound (.locality rest longer (lockName_eq_append_iff.mp name).1 (lockName_eq_append_iff.mp name).2)
    · obtain ⟨rest, longer, name⟩ := longer
      exact sound (.locality' rest longer (lockName_eq_append_iff.mp name).1 (lockName_eq_append_iff.mp name).2)

end

/-- Two spellings of one file have two locks, and two files have one. -/
theorem lock_keys_confused :
    (metadataStoreFromContentLock "here" "/a/b" ≠ metadataStoreFromContentLock "here" "a/b" ∧
      SameSource ⟨"/a/b", "", "", "", "", ""⟩ ⟨"a/b", "", "", "", "", ""⟩) ∧
    metadataStoreFromContentLock "here" "a/b" = metadataStoreFromContentLock "here" "a_b" ∧
      ¬ SameSource ⟨"a/b", "", "", "", "", ""⟩ ⟨"a_b", "", "", "", "", ""⟩ := by
  simp only [ne_eq, metadataStoreFromContentLock_path, ← lockName_eq_iff]
  simp only [← String.toList_inj, lockName_toList]
  refine ⟨⟨by decide, .inl ⟨rfl, rfl, by decide⟩⟩, by decide, ?_⟩
  rintro (⟨-, -, file⟩ | ⟨fromS3, -⟩)
  · exact absurd file (by decide)
  · exact fromS3 rfl

/-! ## Exits -/

/-- `CoordinatorClientRemote` in front of the handlers of a coordinator that answers: they call
`CoordinatorClientLocal`, and only whether it failed comes back. -/
def coordinatorClientRemote : CoordinatorClient RedisLock where
  setStoreFromContentLock l locality sourcePath :=
    let answer := coordinatorClientLocal.setStoreFromContentLock l locality sourcePath
    (answer.1, answer.2.map fun _ => "failed to set store from content lock")
  refreshStoreFromContentLock l locality sourcePath :=
    let answer := coordinatorClientLocal.refreshStoreFromContentLock l locality sourcePath
    (answer.1, answer.2.map fun _ => "failed to refresh store from content lock")
  removeStoreFromContentLock l locality sourcePath :=
    let answer := coordinatorClientLocal.removeStoreFromContentLock l locality sourcePath
    (answer.1, answer.2.map fun _ => "failed to remove store from content lock")

/-- The client carries its calls out on the coordinator's lock table and Redis. -/
structure Answering (coordinator : CoordinatorClient RedisLock) : Prop where
  set : ∀ l locality sourcePath, (coordinator.setStoreFromContentLock l locality sourcePath).1 =
    (setStoreFromContentLock l locality sourcePath).1
  granted : ∀ l locality sourcePath, (coordinator.setStoreFromContentLock l locality sourcePath).2 = none ↔
    (setStoreFromContentLock l locality sourcePath).2 = .ok ()
  refresh : ∀ l locality sourcePath, (coordinator.refreshStoreFromContentLock l locality sourcePath).1 =
    (refreshStoreFromContentLock l locality sourcePath).1
  remove : ∀ l locality sourcePath, (coordinator.removeStoreFromContentLock l locality sourcePath).1 =
    (removeStoreFromContentLock l locality sourcePath).1

theorem lockAnswer_fst (answer : RedisLock × Except LockError Unit) : (lockAnswer answer).1 = answer.1 := by
  rcases answer with ⟨l, _ | _⟩ <;> rfl

theorem lockAnswer_snd (answer : RedisLock × Except LockError Unit) :
    (lockAnswer answer).2 = none ↔ answer.2 = .ok () := by
  rcases answer with ⟨l, e | _⟩
  · exact iff_of_false (by simp [lockAnswer]) (by simp)
  · exact iff_of_true rfl rfl

theorem Answering.direct : Answering coordinatorClientLocal where
  set _ _ _ := lockAnswer_fst _
  granted _ _ _ := lockAnswer_snd _
  refresh _ _ _ := lockAnswer_fst _
  remove _ _ _ := lockAnswer_fst _

theorem Answering.overNetwork : Answering coordinatorClientRemote where
  set _ _ _ := lockAnswer_fst _
  granted _ _ _ := Option.map_eq_none_iff.trans (lockAnswer_snd _)
  refresh _ _ _ := lockAnswer_fst _
  remove _ _ _ := lockAnswer_fst _

/-- What others do to the coordinator: time passes, and servers call it, for any key. -/
inductive LockCall where
  | tick (seconds : Nat)
  | acquire (key : String) (ttl : Nat)
  | refresh (key : String) (ttl : Nat)
  | release (key : String)

def LockCall.apply (l : RedisLock) : LockCall → RedisLock
  | .tick seconds => { l with redis := l.redis.advance seconds }
  | .acquire key ttl => (l.acquire key ttl).1
  | .refresh key ttl => (l.refresh key ttl).1
  | .release key => (l.release key).1

/-- While the content is stored, the handler's ticker and others call the coordinator. -/
def ByCalls (meanwhile : List (Meanwhile RedisLock)) : Prop :=
  ∀ change, .others change ∈ meanwhile → ∃ call : LockCall, change = fun l => call.apply l

/-- The coordinator's table or Redis has the entry with this token. -/
def HoldsEntry (l : RedisLock) (key : String) (token : Token) : Prop :=
  l.locks key = some token ∨ ∃ e, l.redis.get key = some e ∧ e.token = token

/-- The token is taken, and as long as Redis has its entry, so has the table. -/
structure Listed (key : String) (token : Token) (l : RedisLock) : Prop where
  taken : token < l.nextToken
  listed : ∀ e, l.redis.get key = some e → e.token = token → l.locks key = some token

theorem refresh_table (l : RedisLock) (key : String) (ttl : Nat) :
    (l.refresh key ttl).1.locks = l.locks ∧ (l.refresh key ttl).1.nextToken = l.nextToken := by
  unfold RedisLock.refresh
  split
  · exact ⟨rfl, rfl⟩
  · split <;> exact ⟨rfl, rfl⟩

/-- What Redis shows of a key depends on its entry and the time only. -/
theorem get_congr {s s' : Store String Token} {key : String} (entry : s'.entries key = s.entries key)
    (now : s'.now = s.now) : s'.get key = s.get key := by
  rw [Store.get, Store.get, entry, now]

section

variable {key : String} {token : Token} {l : RedisLock}

/-- A `Release` leaves nothing of an entry that the table has as long as Redis has it. -/
theorem Listed.released (h : Listed key token l) : ¬ HoldsEntry (l.release key).1 key token := by
  unfold RedisLock.release
  cases held : l.locks key with
  | none =>
    rintro (table | ⟨e, seen, own⟩)
    · exact absurd (held.symm.trans table) (by simp)
    · exact absurd (held.symm.trans (h.listed e seen own)) (by simp)
  | some token' =>
    rintro (table | ⟨e, seen, own⟩)
    · simp at table
    · -- Redis still has the entry, so its token is not the one in the table
      dsimp only at seen
      unfold Store.deleteIfMatch at seen
      cases before : l.redis.get key with
      | none =>
        simp only [before] at seen
        cases seen
      | some e' =>
        simp only [before] at seen
        split at seen
        · rw [Store.get_eq_some, Store.set_self] at seen
          cases seen.1
        · rename_i other
          cases Option.some.inj (before.symm.trans seen)
          have table := h.listed e before own
          rw [held] at table
          cases table
          exact other own

theorem Listed.tick (h : Listed key token l) (seconds : Nat) :
    Listed key token { l with redis := l.redis.advance seconds } := by
  refine ⟨h.taken, fun e seen own => h.listed e ?_ own⟩
  obtain ⟨entry, lasts⟩ := Store.get_eq_some.mp seen
  simp only [Store.advance] at lasts
  exact Store.get_eq_some.mpr ⟨entry, by omega⟩

theorem Listed.acquire (h : Listed key token l) (key' : String) (ttl : Nat) :
    Listed key token (l.acquire key' ttl).1 := by
  have taken := h.taken
  rcases acquire_cases l key' ttl with refused | ⟨-, granted⟩
  · rw [refused]
    exact h
  · rw [granted]
    refine ⟨Nat.lt_succ_of_lt taken, fun e seen own => ?_⟩
    by_cases same : key = key'
    · -- the new entry has a token of its own
      subst same
      rw [Store.get_eq_some, Store.set_self] at seen
      cases seen.1
      exact absurd own (Nat.ne_of_gt taken)
    · rw [get_congr (Store.set_other _ _ same) rfl] at seen
      dsimp only
      rw [Function.update_of_ne same]
      exact h.listed e seen own

theorem Listed.refresh (h : Listed key token l) (key' : String) (ttl : Nat) :
    Listed key token (l.refresh key' ttl).1 := by
  obtain ⟨locks, nextToken⟩ := refresh_table l key' ttl
  refine ⟨by rw [nextToken]; exact h.taken, fun e seen own => ?_⟩
  rw [locks]
  rcases refresh_redis l key' ttl with unchanged | ⟨e', before, extended⟩
  · rw [unchanged] at seen
    exact h.listed e seen own
  · rw [extended] at seen
    by_cases same : key = key'
    · subst same
      rw [Store.get_eq_some, Store.set_self] at seen
      cases seen.1
      exact h.listed e' before own
    · rw [get_congr (Store.set_other _ _ same) rfl] at seen
      exact h.listed e seen own

theorem Listed.release (h : Listed key token l) (key' : String) : Listed key token (l.release key').1 := by
  have nextToken : (l.release key').1.nextToken = l.nextToken := by
    unfold RedisLock.release
    split <;> rfl
  refine ⟨by rw [nextToken]; exact h.taken, fun e seen own => ?_⟩
  by_cases same : key = key'
  · subst same
    exact absurd (.inr ⟨e, seen, own⟩) h.released
  · have table : (l.release key').1.locks key = l.locks key := by
      unfold RedisLock.release
      split
      · exact Function.update_of_ne same _ _
      · rfl
    rw [table]
    apply h.listed e _ own
    rcases release_redis l key' with unchanged | deleted
    · rwa [unchanged] at seen
    · rwa [deleted, get_congr (Store.set_other _ _ same) rfl] at seen

theorem Listed.call (h : Listed key token l) (call : LockCall) : Listed key token (call.apply l) := by
  cases call with
  | tick seconds => exact h.tick seconds
  | acquire key' ttl => exact h.acquire key' ttl
  | refresh key' ttl => exact h.refresh key' ttl
  | release key' => exact h.release key'

/-- The entry stays listed while the content is stored. -/
theorem Listed.meanwhile {coordinator : CoordinatorClient RedisLock} (answering : Answering coordinator)
    {meanwhile : List (Meanwhile RedisLock)} (calls : ByCalls meanwhile) (locality sourcePath : String)
    (h : Listed key token l) :
    Listed key token (meanwhile.foldl (Meanwhile.step coordinator locality sourcePath) l) := by
  induction meanwhile generalizing l with
  | nil => exact h
  | cons first rest ih =>
    refine ih (fun change later => calls change (List.mem_cons_of_mem _ later)) ?_
    cases first with
    | refresh =>
      rw [Meanwhile.step, answering.refresh]
      exact h.refresh _ _
    | others change =>
      obtain ⟨call, rfl⟩ := calls change List.mem_cons_self
      exact h.call call

end

/-- Every step of reading the file succeeds. -/
structure LocalFile.Readable (file : LocalFile) : Prop where
  found : ∀ e, file.stat = some e → e.notExist = false
  opened : file.openError = none
  copied : file.copyError = none

/-- The file can be read, or the object can be downloaded. -/
def SourceReadable (world : World) (s3ClientCache : String → Option S3Client) (source : CacheSource) : Prop :=
  (source.bucketName = "" → (world.localFile source.localPath).Readable) ∧
    (source.bucketName ≠ "" → ∃ client bytes, s3ClientFor world s3ClientCache source = .ok client ∧
      world.downloadIntoBuffer client source.path = .ok bytes)

theorem cacheSourceFromLocalPath_iff (file : LocalFile) :
    (∃ bytes, cacheSourceFromLocalPath file = .ok bytes) ↔ file.Readable := by
  unfold cacheSourceFromLocalPath
  rcases file with ⟨stat, openError, content, copyError⟩
  constructor
  · rintro ⟨bytes, read⟩
    dsimp only at read
    split at read
    · cases read
    · rename_i found
      split at read
      · cases read
      · split at read
        · cases read
        · refine ⟨fun e failed => ?_, rfl, rfl⟩
          cases (show stat = some e from failed)
          simpa using found
  · rintro ⟨found, rfl, rfl⟩
    have present : stat.filter (·.notExist) = none := by
      rw [Option.filter_eq_none_iff]
      intro e failed
      simpa using found e failed
    exact ⟨content, by simp only [present]⟩

theorem readSource_iff (world : World) (s3ClientCache : String → Option S3Client) (source : CacheSource) :
    (∃ bytes, (readSource world s3ClientCache source).2 = .ok bytes) ↔
      SourceReadable world s3ClientCache source := by
  unfold readSource
  split
  · rename_i fromFile
    rw [cacheSourceFromLocalPath_iff]
    exact ⟨fun file => ⟨fun _ => file, fun fromS3 => absurd fromFile fromS3⟩, fun readable => readable.1 fromFile⟩
  · rename_i fromS3
    rw [cacheSourceFromS3_eq]
    dsimp only
    constructor
    · rintro ⟨bytes, read⟩
      refine ⟨fun fromFile => absurd fromFile fromS3, fun _ => ?_⟩
      cases served : s3ClientFor world s3ClientCache source with
      | error cause => rw [served] at read; cases read
      | ok client => rw [served] at read; exact ⟨client, bytes, rfl, read⟩
    · intro readable
      obtain ⟨client, bytes, served, read⟩ := readable.2 fromS3
      exact ⟨bytes, by rw [served]; exact read⟩

section

variable {service : CacheService RedisLock} {coordinator : CoordinatorClient RedisLock}
  {state : ServiceState RedisLock} {source : CacheSource}

/-- Where the handler leaves the coordinator: it releases the lock, unless the source could not
be read. -/
theorem storeContentFromSourceWithLock_lock (coordinated : service.coordinator = some coordinator)
    (answering : Answering coordinator) (world : World) (meanwhile : List (Meanwhile RedisLock))
    (acquired : (coordinator.setStoreFromContentLock state.coordination service.locality source.path).2 = none)
    {l : RedisLock} (stored : meanwhile.foldl (Meanwhile.step coordinator service.locality source.path)
      (setStoreFromContentLock state.coordination service.locality source.path).1 = l) :
    ∃ state' resp, storeContentFromSourceWithLock service world meanwhile state source =
        some (state', .returned resp) ∧
      (SourceReadable world state.s3ClientCache source →
        state'.coordination = (removeStoreFromContentLock l service.locality source.path).1) ∧
      (¬ SourceReadable world state.s3ClientCache source → state'.coordination = l) := by
  rw [← answering.set] at stored
  rcases lock : coordinator.setStoreFromContentLock state.coordination service.locality source.path with ⟨s, failure⟩
  rw [lock] at acquired stored
  cases acquired
  simp only [storeContentFromSourceWithLock, coordinated, lock, stored]
  obtain ⟨state', ⟨inner, err⟩, run, taken⟩ := storeContentFromSource_taken service world
    { state with coordination := l } source
  have kept := (storeContentFromSource_frame run).2
  rw [run]
  have readable := readSource_iff world state.s3ClientCache source
  have remove (read : ∃ bytes, (readSource world state.s3ClientCache source).2 = .ok bytes) :
      (SourceReadable world state.s3ClientCache source →
        (coordinator.removeStoreFromContentLock state'.coordination service.locality source.path).1 =
          (removeStoreFromContentLock l service.locality source.path).1) ∧
      (¬ SourceReadable world state.s3ClientCache source →
        (coordinator.removeStoreFromContentLock state'.coordination service.locality source.path).1 = l) := by
    refine ⟨fun _ => ?_, fun unread => absurd (readable.mp read) unread⟩
    rw [answering.remove, kept]
  dsimp only at taken
  generalize (readSource world state.s3ClientCache source).2 = read at taken readable remove
  cases taken with
  | unread cause =>
    refine ⟨_, _, rfl, fun able => ?_, fun _ => kept⟩
    obtain ⟨bytes, read⟩ := readable.mpr able
    cases read
  | stored all => exact ⟨_, _, rfl, remove ⟨_, rfl⟩⟩
  | refused text failed => exact ⟨_, _, rfl, remove ⟨_, rfl⟩⟩

/-- After it was acquired, the entry is in the table and in Redis. -/
theorem acquired_listed {l : RedisLock} {locality sourcePath : String}
    (acquired : (setStoreFromContentLock l locality sourcePath).2 = .ok ()) :
    Listed (metadataStoreFromContentLock locality sourcePath) l.nextToken
        (setStoreFromContentLock l locality sourcePath).1 ∧
      HoldsEntry (setStoreFromContentLock l locality sourcePath).1
        (metadataStoreFromContentLock locality sourcePath) l.nextToken := by
  rw [setStoreFromContentLock] at acquired ⊢
  rcases acquire_cases l (metadataStoreFromContentLock locality sourcePath) storeFromContentLockTtlS with
    refused | ⟨-, granted⟩
  · rw [refused] at acquired
    cases acquired
  · rw [granted]
    exact ⟨⟨Nat.lt_succ_self _, fun _ _ _ => Function.update_self ..⟩, .inl (Function.update_self ..)⟩

/-- **The exits of the handler.** A request that has acquired the lock of its source leaves the
entry neither in the coordinator's table nor in Redis when it returns, whatever the
refresher and other servers do meanwhile, exactly when its source can be read. -/
theorem lock_released_iff (coordinated : service.coordinator = some coordinator) (answering : Answering coordinator)
    (world : World)
    (acquired : (coordinator.setStoreFromContentLock state.coordination service.locality source.path).2 = none) :
    (∀ meanwhile, ByCalls meanwhile → ∃ state' resp,
      storeContentFromSourceWithLock service world meanwhile state source = some (state', .returned resp) ∧
        ¬ HoldsEntry state'.coordination (metadataStoreFromContentLock service.locality source.path)
          state.coordination.nextToken) ↔
    SourceReadable world state.s3ClientCache source := by
  obtain ⟨listed, holds⟩ := acquired_listed ((answering.granted _ _ _).mp acquired)
  constructor
  · intro releases
    by_contra unread
    obtain ⟨state', resp, returned, gone⟩ := releases [] fun _ member => by cases member
    obtain ⟨_, _, again, -, left⟩ := storeContentFromSourceWithLock_lock coordinated answering world [] acquired rfl
    rw [returned] at again
    cases again
    rw [left unread] at gone
    exact gone holds
  · intro readable meanwhile calls
    obtain ⟨state', resp, returned, released, -⟩ := storeContentFromSourceWithLock_lock coordinated answering world
      meanwhile acquired rfl
    refine ⟨state', resp, returned, ?_⟩
    rw [released readable]
    exact (listed.meanwhile answering calls service.locality source.path).released

end

/-- A file system with one file, or without it. -/
def fileWorld (stat : Option StatError) : World where
  localFile _ := ⟨stat, none, [7], none⟩
  loadDefaultConfig _ := none
  downloadIntoBuffer _ _ := .error ""
  add := quietStore
  storeContentInBlobFs _ _ _ := none

def noSuchFile : StatError := ⟨true, "stat /f: no such file or directory"⟩

/-- A server with a coordinator across the network, before its first request. -/
def remoteService : CacheService RedisLock :=
  ⟨fun _ => ⟨List.replicate 32 0, zeros_length⟩, oneBytePages, "here", some coordinatorClientRemote⟩

def remoteStart : ServiceState RedisLock := ⟨Cas.fresh, fun _ => none, RedisLock.new⟩

def fileSource : CacheSource := ⟨"f", "", "", "", "", ""⟩

/-- The file is there; the lease is refreshed while it is stored. -/
theorem lock_released_file :
    ∃ state' resp, storeContentFromSourceWithLock remoteService (fileWorld none)
        [.refresh, .others fun l => LockCall.apply l (.tick 3), .refresh] remoteStart fileSource =
          some (state', .returned resp) ∧
      ¬ HoldsEntry state'.coordination (metadataStoreFromContentLock "here" "f") 0 := by
  refine (@lock_released_iff remoteService coordinatorClientRemote remoteStart fileSource rfl .overNetwork
    (fileWorld none) rfl).mpr ⟨fun _ => ⟨fun e failed => (by cases failed), rfl, rfl⟩, fun fromS3 => absurd rfl fromS3⟩
    _ fun change member => ?_
  simp only [List.mem_cons, List.not_mem_nil, or_false, reduceCtorEq, false_or, Meanwhile.others.injEq] at member
  exact ⟨.tick 3, member⟩

/-- The file is missing: the handler answers that it failed, and its lock stays. -/
theorem lock_left_behind :
    ∃ state' resp, storeContentFromSourceWithLock remoteService (fileWorld (some noSuchFile)) [] remoteStart fileSource =
        some (state', .returned resp) ∧
      resp = ⟨"", false, false, "stat /f: no such file or directory"⟩ ∧
      state'.coordination.locks (metadataStoreFromContentLock "here" "f") = some 0 ∧
      state'.coordination.redis.get (metadataStoreFromContentLock "here" "f") = some ⟨0, 5⟩ := by
  refine ⟨⟨Cas.fresh, fun _ => none, _⟩, _, rfl, rfl, ?_, Store.get_eq_some.mpr ⟨?_, by decide⟩⟩
  · exact Function.update_self ..
  · exact Function.update_self ..

end Blobcache.Server
