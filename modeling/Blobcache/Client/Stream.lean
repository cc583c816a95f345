import Blobcache.Client.Routing

/-!
# Streaming with retries

`client.go`: `GetContentStream`. The client opens a stream for the whole range and puts
every piece it receives on a channel; when a stream fails it opens another one, again for
the whole range. What the channel carries is therefore one prefix of the range after the
other, one for each attempt, and it is a prefix of the range as long as no two of the
streams carry bytes.
-/

namespace Blobcache.Client
set_option autoImplicit false
open Server Storage

/-- How a server's stream ends. -/
inductive StreamEnding where
  | eof
  | failed (status : Status)
  deriving DecidableEq, Repr

/-- What `stream.Recv` answers, call after call. -/
structure ServerStream where
  messages : List GetContentResponse
  ending : StreamEnding
  deriving DecidableEq, Repr

/-- The receive loop of one attempt: the pieces put on the channel, and whether the stream
came to its end. -/
def receivePieces : List GetContentResponse → StreamEnding → List Bytes × Bool
  | [], .eof => ([], true)
  | [], .failed _ => ([], false)
  | resp :: rest, ending =>
    if resp.ok then
      let (pieces, ended) := receivePieces rest ending
      (resp.content :: pieces, ended)
    else ([], false)

/-- What the hosts do with a request for a stream, attempt by attempt. -/
abbrev Streams := (attempt : Nat) → (hostId : String) → GetContentRequest → Except Status ServerStream

namespace BlobCacheClient

/-- The loop of `GetContentStream`, from one attempt on. It returns what each attempt puts
on the channel. -/
def streamFrom (streams : Streams) (req : GetContentRequest) (routingKey : String) :
    (remaining attempt : Nat) → BlobCacheClient → BlobCacheClient × List (List Bytes)
  | 0, _, c => (c, [])
  | remaining + 1, attempt, c =>
    match c.getGRPCClient ⟨.retrieval, req.hash, routingKey, attempt⟩ with
    | (c, .error _) => (c, [[]])
    | (c, .ok host) =>
      match streams attempt host.hostId req with
      | .error _ =>
        let (c, later) := streamFrom streams req routingKey remaining (attempt + 1) (c.forget req.hash)
        (c, [] :: later)
      | .ok stream =>
        match receivePieces stream.messages stream.ending with
        | (pieces, true) => (c, [pieces])
        | (pieces, false) =>
          let (c, later) := streamFrom streams req routingKey remaining (attempt + 1) (c.forget req.hash)
          (c, pieces :: later)

def maxAttempts (c : BlobCacheClient) (length : Int) : Nat :=
  if c.config.minRetryLengthBytes < length then c.config.maxGetContentAttempts.toNat else 1

/-- The routing key of a request; it is the hash, unless another one is given. -/
def keyOf (req : GetContentRequest) (routingKey : String) : String :=
  if routingKey = "" then req.hash else routingKey

/-- `GetContentStream`: the client afterwards, and what the channel has carried. -/
def getContentStream (c : BlobCacheClient) (streams : Streams) (req : GetContentRequest) (routingKey : String) :
    BlobCacheClient × List Bytes :=
  let (c, attempts) := streamFrom streams req (keyOf req routingKey) (c.maxAttempts req.length) 0 c
  (c, attempts.flatten)

end BlobCacheClient

/-! ## Streams of one content -/

inductive CourseEnd where
  | eof
  | failed (status : Status)
  /-- A response that is not `Ok`. -/
  | notOk
  deriving DecidableEq, Repr

/-- How an attempt goes whose pieces are right: the lengths of its pieces, and its end. -/
structure Course where
  lengths : List Nat
  ending : CourseEnd
  deriving DecidableEq, Repr

/-- The stream of a range that takes this course: consecutive pieces from its start. -/
def Course.stream (course : Course) (range : Bytes) : ServerStream :=
  let pieces := (course.lengths.splitLengths range).map (⟨·, true⟩)
  match course.ending with
  | .eof => ⟨pieces, .eof⟩
  | .failed status => ⟨pieces, .failed status⟩
  | .notOk => ⟨pieces ++ [⟨[], false⟩], .eof⟩

/-- How the attempts go on the hosts; an error is a stream that cannot be opened. -/
abbrev Courses := (attempt : Nat) → (hostId : String) → Except Status Course

/-- `content[offset : offset+length]`. -/
def rangeOf (req : GetContentRequest) (content : Bytes) : Bytes :=
  (content.drop req.offset.toNat).take req.length.toNat

/-- The hosts serve the content, and the attempts take these courses. -/
def serving (courses : Courses) (content : Bytes) : Streams := fun attempt hostId req =>
  (courses attempt hostId).map fun course => course.stream (rangeOf req content)

/-- What an attempt meets: no host to ask, a stream that cannot be opened, or a course. -/
abbrev Attempt := Option (Except Status Course)

/-- The length of what the attempt's stream carries of a range that is long enough. -/
def Attempt.bytes : Attempt → Nat
  | some (.ok course) => course.lengths.sum
  | _ => 0

/-- The attempt fails in a way that leads to another one. -/
def Attempt.retried : Attempt → Bool
  | none => false
  | some (.error _) => true
  | some (.ok course) => course.ending ≠ .eof

namespace BlobCacheClient

/-- The host of an attempt. After a failed attempt the client has forgotten the host of the
hash, so the index counts. -/
def hostAt (c : BlobCacheClient) (hash routingKey : String) : Nat → Option BlobCacheHost
  | 0 => c.firstChoice hash routingKey
  | attempt + 1 => nthHost (c.topHosts routingKey) (attempt + 1)

/-- The host of an attempt, if the client has a connection to it. -/
def askedAt (c : BlobCacheClient) (hash routingKey : String) (attempt : Nat) : Option BlobCacheHost :=
  (c.hostAt hash routingKey attempt).filter (·.hostId ∈ c.grpcClients)

def attemptAt (c : BlobCacheClient) (courses : Courses) (hash routingKey : String) (attempt : Nat) : Attempt :=
  match c.hostAt hash routingKey attempt with
  | none => none
  | some host => if host.hostId ∈ c.grpcClients then some (courses attempt host.hostId) else none

end BlobCacheClient

/-- The attempt is made: it is one of the first `n`, and all before it are retried. -/
def Reached (attempts : Nat → Attempt) (n attempt : Nat) : Prop :=
  attempt < n ∧ ∀ earlier < attempt, (attempts earlier).retried

/-- Of two attempts that are made, one has no bytes. -/
def RepeatsNothing (attempts : Nat → Attempt) (n : Nat) : Prop :=
  ∀ earlier later, earlier < later → Reached attempts n later →
    (attempts earlier).bytes = 0 ∨ (attempts later).bytes = 0

theorem receivePieces_append (pieces : List Bytes) (rest : List GetContentResponse) (ending : StreamEnding) :
    receivePieces (pieces.map (⟨·, true⟩) ++ rest) ending =
      (pieces ++ (receivePieces rest ending).1, (receivePieces rest ending).2) := by
  induction pieces with
  | nil => rfl
  | cons piece pieces ih => simp [receivePieces, ih]

/-- An attempt puts its pieces on the channel, and fails unless its stream ends with `EOF`. -/
theorem receivePieces_course (course : Course) (range : Bytes) :
    receivePieces (course.stream range).messages (course.stream range).ending =
      (course.lengths.splitLengths range, decide (course.ending = .eof)) := by
  obtain ⟨lengths, ending⟩ := course
  have received := receivePieces_append (lengths.splitLengths range)
  cases ending with
  | eof => simpa [Course.stream, receivePieces] using received [] .eof
  | failed status => simpa [Course.stream, receivePieces] using received [] (.failed status)
  | notOk => simpa [Course.stream, receivePieces] using received [⟨[], false⟩] .eof

theorem flatten_splitLengths_take {α : Type} (lengths : List Nat) (l : List α) :
    (lengths.splitLengths l).flatten = l.take lengths.sum := by
  induction lengths generalizing l with
  | nil => simp
  | cons n lengths ih => rw [List.splitLengths_cons, List.flatten_cons, ih, List.sum_cons, List.take_add]

/-- Consecutive pieces are what a course gives: nothing else is asked of a server's stream. -/
theorem splitLengths_of_prefix {range : Bytes} {pieces : List Bytes} (consecutive : pieces.flatten <+: range) :
    (pieces.map List.length).splitLengths range = pieces := by
  induction pieces generalizing range with
  | nil => rfl
  | cons piece pieces ih =>
    obtain ⟨rest, rfl⟩ := consecutive
    rw [List.map_cons, List.splitLengths_cons, List.flatten_cons, List.append_assoc, List.take_left, List.drop_left,
      ih (List.prefix_append _ _)]

/-! ## The attempts that are made -/

namespace BlobCacheClient

/-- Choosing a host changes the host cache only. -/
theorem chooseHost_frame (c : BlobCacheClient) (request : ClientRequest) :
    (c.chooseHost request).1.topHosts = c.topHosts ∧ (c.chooseHost request).1.grpcClients = c.grpcClients := by
  unfold chooseHost
  split
  · exact ⟨rfl, rfl⟩
  · split
    · exact ⟨rfl, rfl⟩
    · split <;> exact ⟨rfl, rfl⟩

/-- The host chosen for a read is the one remembered for the hash from then on. -/
theorem chooseHost_remembers (c : BlobCacheClient) (hash routingKey : String) (hostIndex : Nat) :
    let chosen := c.chooseHost ⟨.retrieval, hash, routingKey, hostIndex⟩
    chosen.1.localHostCache hash = chosen.2 := by
  simp only [chooseHost]
  cases remembered : c.localHostCache hash with
  | some host => exact remembered
  | none =>
    cases nthHost (c.topHosts routingKey) hostIndex with
    | none => exact remembered
    | some host => exact c.remember_self hash host

/-- A client between two attempts of a call that the client `c` has begun. -/
structure OnCourse (c : BlobCacheClient) (hash routingKey : String) (attempt : Nat) (c' : BlobCacheClient) : Prop where
  hosts : c'.topHosts = c.topHosts
  clients : c'.grpcClients = c.grpcClients
  chooses : (c'.chooseHost ⟨.retrieval, hash, routingKey, attempt⟩).2 = c.hostAt hash routingKey attempt

theorem OnCourse.start (c : BlobCacheClient) (hash routingKey : String) : OnCourse c hash routingKey 0 c := by
  obtain ⟨c', chosen, -, -⟩ := c.chooseHost_first hash routingKey
  exact ⟨rfl, rfl, by rw [chosen]; rfl⟩

/-- A client that has forgotten the host of the hash goes by the index. -/
theorem OnCourse.forgets {c c' : BlobCacheClient} (hosts : c'.topHosts = c.topHosts)
    (clients : c'.grpcClients = c.grpcClients) (hash routingKey : String) (attempt : Nat) :
    OnCourse c hash routingKey (attempt + 1) (c'.forget hash) := by
  refine ⟨hosts, clients, ?_⟩
  have sameHosts : (c'.forget hash).topHosts = c.topHosts := hosts
  simp only [chooseHost, forget_self, sameHosts, hostAt]
  cases nthHost (c.topHosts routingKey) (attempt + 1) <;> rfl

/-- An attempt asks the host that the client at the start of the call determines, and the
client then remembers this host; without one it remembers none. -/
theorem OnCourse.asks {c c' : BlobCacheClient} {hash routingKey : String} {attempt : Nat}
    (on : OnCourse c hash routingKey attempt c') :
    (∃ c'', c'.getGRPCClient ⟨.retrieval, hash, routingKey, attempt⟩ = (c'', .error .hostNotFound) ∧
      c.askedAt hash routingKey attempt = none ∧ c''.localHostCache hash = none) ∨
    ∃ c'' host, c'.getGRPCClient ⟨.retrieval, hash, routingKey, attempt⟩ = (c'', .ok host) ∧
      c.askedAt hash routingKey attempt = some host ∧ c''.localHostCache hash = some host ∧
      OnCourse c hash routingKey (attempt + 1) (c''.forget hash) := by
  obtain ⟨sameHosts, sameClients⟩ := c'.chooseHost_frame ⟨.retrieval, hash, routingKey, attempt⟩
  have remembers := c'.chooseHost_remembers hash routingKey attempt
  have chooses := on.chooses
  rcases chosen : c'.chooseHost ⟨.retrieval, hash, routingKey, attempt⟩ with ⟨c'', host⟩
  rw [chosen] at sameHosts sameClients remembers chooses
  simp only [getGRPCClient, chosen, askedAt, ← chooses]
  cases host with
  | none => exact .inl ⟨c'', rfl, rfl, remembers⟩
  | some host =>
    have clients : c''.grpcClients = c.grpcClients := sameClients.trans on.clients
    by_cases connected : host.hostId ∈ c.grpcClients
    · right
      refine ⟨c'', host, ?_, by simp [connected], remembers,
        OnCourse.forgets (sameHosts.trans on.hosts) clients _ _ _⟩
      simp only [clients, if_pos connected]
    · left
      refine ⟨c''.forget hash, ?_, by simp [connected], c''.forget_self hash⟩
      simp only [clients, if_neg connected]

theorem attemptAt_eq (c : BlobCacheClient) (courses : Courses) (hash routingKey : String) (attempt : Nat) :
    c.attemptAt courses hash routingKey attempt =
      (c.askedAt hash routingKey attempt).map fun host => courses attempt host.hostId := by
  unfold attemptAt askedAt
  cases c.hostAt hash routingKey attempt with
  | none => rfl
  | some host => by_cases connected : host.hostId ∈ c.grpcClients <;> simp [connected]

end BlobCacheClient

/-- The byte counts of the attempts that are made. -/
def byteCounts (attempts : Nat → Attempt) : Nat → List Nat
  | 0 => []
  | n + 1 => (attempts 0).bytes :: if (attempts 0).retried then byteCounts (fun i => attempts (i + 1)) n else []

/-- Every attempt delivers a prefix of the range, as long as its course says. -/
theorem streamFrom_prefixes {c : BlobCacheClient} (courses : Courses) (req : GetContentRequest) (routingKey : String)
    (content : Bytes) (remaining attempt : Nat) {c' : BlobCacheClient}
    (on : c.OnCourse req.hash routingKey attempt c') :
    (BlobCacheClient.streamFrom (serving courses content) req routingKey remaining attempt c').2.map List.flatten =
      (byteCounts (fun i => c.attemptAt courses req.hash routingKey (attempt + i)) remaining).map
        (rangeOf req content).take := by
  induction remaining generalizing attempt c' with
  | zero => rfl
  | succ remaining ih =>
    have shift : (fun i => c.attemptAt courses req.hash routingKey (attempt + (i + 1))) =
        fun i => c.attemptAt courses req.hash routingKey (attempt + 1 + i) := by
      funext i
      rw [Nat.add_right_comm, Nat.add_assoc]
    simp only [byteCounts, Nat.add_zero, shift]
    rw [BlobCacheClient.attemptAt_eq]
    rcases on.asks with ⟨c'', routed, noHost, -⟩ | ⟨c'', host, routed, asked, -, next⟩
    · simp [BlobCacheClient.streamFrom, routed, noHost, Attempt.bytes, Attempt.retried]
    · have later := ih (attempt + 1) next
      rw [asked, Option.map_some]
      cases opened : courses attempt host.hostId with
      | error status =>
        simp [BlobCacheClient.streamFrom, routed, serving, opened, Except.map, Attempt.bytes, Attempt.retried, later]
      | ok course =>
        by_cases ended : course.ending = .eof
        · simp [BlobCacheClient.streamFrom, routed, serving, opened, Except.map, receivePieces_course, ended,
            flatten_splitLengths_take, Attempt.bytes, Attempt.retried]
        · simp [BlobCacheClient.streamFrom, routed, serving, opened, Except.map, receivePieces_course, ended,
            flatten_splitLengths_take, Attempt.bytes, Attempt.retried, later]

section

variable {attempts : Nat → Attempt} {n : Nat}

theorem reached_succ {j : Nat} :
    Reached attempts (n + 1) (j + 1) ↔ (attempts 0).retried ∧ Reached (fun i => attempts (i + 1)) n j := by
  constructor
  · rintro ⟨bound, retried⟩
    exact ⟨retried 0 (by omega), by omega, fun earlier before => retried (earlier + 1) (by omega)⟩
  · rintro ⟨first, bound, retried⟩
    refine ⟨by omega, fun earlier before => ?_⟩
    cases earlier with
    | zero => exact first
    | succ earlier => exact retried earlier (by omega)

/-- No attempt that is made has bytes. -/
theorem byteCounts_zero_iff :
    (∀ count ∈ byteCounts attempts n, count = 0) ↔ ∀ j, Reached attempts n j → (attempts j).bytes = 0 := by
  induction n generalizing attempts with
  | zero => simp [byteCounts, Reached]
  | succ n ih =>
    have first : Reached attempts (n + 1) 0 := ⟨by omega, fun _ before => absurd before (by omega)⟩
    have rest := @ih fun i => attempts (i + 1)
    constructor
    · intro zeros j reached
      cases j with
      | zero => exact zeros _ List.mem_cons_self
      | succ j =>
        obtain ⟨retried, reached'⟩ := reached_succ.mp reached
        refine rest.mp (fun count member => zeros count ?_) j reached'
        rw [byteCounts, if_pos retried]
        exact List.mem_cons_of_mem _ member
    · intro zeros count member
      rw [byteCounts] at member
      rcases List.mem_cons.mp member with rfl | later
      · exact zeros 0 first
      · split at later
        case isTrue retried =>
          exact rest.mpr (fun j reached => zeros (j + 1) (reached_succ.mpr ⟨retried, reached⟩)) count later
        case isFalse => cases later

/-- The byte counts have at most one that is not zero exactly when nothing is repeated. -/
theorem byteCounts_pairwise_iff :
    (byteCounts attempts n).Pairwise (fun earlier later => earlier = 0 ∨ later = 0) ↔ RepeatsNothing attempts n := by
  induction n generalizing attempts with
  | zero => simp [byteCounts, RepeatsNothing, Reached]
  | succ n ih =>
    by_cases retried : (attempts 0).retried
    · rw [byteCounts, if_pos retried, List.pairwise_cons, ih]
      constructor
      · rintro ⟨first, rest⟩ earlier later before reached
        obtain ⟨j, rfl⟩ : ∃ j, later = j + 1 := ⟨later - 1, by omega⟩
        obtain ⟨-, reached'⟩ := reached_succ.mp reached
        cases earlier with
        | zero =>
          by_cases zero : (attempts 0).bytes = 0
          · exact .inl zero
          · exact .inr (byteCounts_zero_iff.mp (fun count member => (first count member).resolve_left zero) j reached')
        | succ i => exact rest i j (by omega) reached'
      · intro nothing
        constructor
        · intro count member
          by_cases zero : (attempts 0).bytes = 0
          · exact .inl zero
          · refine .inr (byteCounts_zero_iff.mpr (fun j reached => ?_) count member)
            exact (nothing 0 (j + 1) (by omega) (reached_succ.mpr ⟨retried, reached⟩)).resolve_left zero
        · intro earlier later before reached
          exact nothing (earlier + 1) (later + 1) (by omega) (reached_succ.mpr ⟨retried, reached⟩)
    · rw [byteCounts, if_neg retried]
      refine iff_of_true (List.pairwise_singleton _ _) fun earlier later before reached => ?_
      exact absurd (reached.2 0 (by omega)) retried

end

/-! ## One prefix after the other -/

/-- If only one of the prefixes has elements, together they are a prefix. -/
theorem prefixes_once {range : Bytes} {counts : List Nat}
    (once : (counts.map range.take).Pairwise fun earlier later => earlier = [] ∨ later = []) :
    (counts.map range.take).flatten <+: range := by
  induction counts with
  | nil => exact List.nil_prefix
  | cons count counts ih =>
    obtain ⟨first, rest⟩ := List.pairwise_cons.mp once
    rw [List.map_cons, List.flatten_cons]
    by_cases empty : range.take count = []
    · rw [empty, List.nil_append]
      exact ih rest
    · have nothing : (counts.map range.take).flatten = [] := by
        apply List.flatten_eq_nil_iff.mpr
        intro later member
        exact (first later member).resolve_left empty
      rw [nothing, List.append_nil]
      exact List.take_prefix count range

/-- A range whose first byte does not come again. -/
def marked (m : Nat) : Bytes := 1 :: List.replicate m 0

/-- Two prefixes of such a range, one after the other, are not a prefix of it. -/
theorem prefixes_of_marked {m : Nat} {counts : List Nat}
    (together : (counts.map (marked m).take).flatten <+: marked m) :
    counts.Pairwise fun earlier later => earlier = 0 ∨ later = 0 := by
  induction counts with
  | nil => exact .nil
  | cons count counts ih =>
    rw [List.map_cons, List.flatten_cons] at together
    cases count with
    | zero =>
      rw [List.take_zero, List.nil_append] at together
      exact List.pairwise_cons.mpr ⟨fun _ _ => .inl rfl, ih together⟩
    | succ count =>
      -- after the first byte there are only zeros, so no later prefix has the first byte
      have zeros : ∀ b ∈ (counts.map (marked m).take).flatten, b = 0 := by
        intro b member
        obtain ⟨rest, whole⟩ := together
        have tail : (counts.map (marked m).take).flatten ++ rest = (marked m).drop (count + 1) := by
          apply (List.append_right_inj ((marked m).take (count + 1))).mp
          rw [← List.append_assoc, whole, List.take_append_drop]
        have dropped := tail ▸ List.mem_append_left rest member
        rw [marked, List.drop_succ_cons] at dropped
        exact List.eq_of_mem_replicate (List.mem_of_mem_drop dropped)
      have nothing : ∀ later ∈ counts, later = 0 := by
        intro later member
        by_contra some
        obtain ⟨n, rfl⟩ := Nat.exists_eq_succ_of_ne_zero some
        have first : (1 : UInt8) ∈ (counts.map (marked m).take).flatten :=
          List.mem_flatten.mpr ⟨_, List.mem_map_of_mem member, by simp [marked]⟩
        exact absurd (zeros 1 first) (by decide)
      refine List.pairwise_cons.mpr ⟨fun later member => .inr (nothing later member), ?_⟩
      exact List.pairwise_of_forall_mem_list fun a member _ _ => .inl (nothing a member)

theorem rangeOf_length (req : GetContentRequest) (content : Bytes) :
    (rangeOf req content).length = min req.length.toNat (content.length - req.offset.toNat) := by
  simp [rangeOf]

/-- Every range of that length is the range of a content of the same length. -/
theorem rangeOf_surjective (req : GetContentRequest) (content range : Bytes)
    (sameLength : range.length = (rangeOf req content).length) :
    ∃ content' : Bytes, content'.length = content.length ∧ rangeOf req content' = range := by
  rw [rangeOf_length] at sameLength
  by_cases inside : req.offset.toNat ≤ content.length
  · let before := content.take req.offset.toNat
    let after := content.drop (req.offset.toNat + req.length.toNat)
    have start : before.length = req.offset.toNat := by simp [before, inside]
    refine ⟨before ++ (range ++ after), ?_, ?_⟩
    · simp only [List.length_append, start, after, List.length_drop]
      omega
    · rw [rangeOf, ← start, List.drop_left]
      -- either the range has the length asked for, or the content ends with it
      by_cases full : range.length = req.length.toNat
      · rw [← full, List.take_left]
      · have ends : after = [] := by
          apply List.drop_eq_nil_of_le
          omega
        rw [ends, List.append_nil]
        apply List.take_of_length_le
        omega
  · have nothing : range = [] := by
      apply List.eq_nil_of_length_eq_zero
      omega
    refine ⟨content, rfl, ?_⟩
    rw [nothing, rangeOf, List.drop_eq_nil_of_le (by omega), List.take_nil]

/-- **Retries.** Whatever the content is, the channel carries a prefix of the range exactly
when the range is empty or, of any two attempts that are made, the stream of one carries no
bytes. -/
theorem stream_prefix_iff (c : BlobCacheClient) (courses : Courses) (req : GetContentRequest) (routingKey : String)
    (content : Bytes) :
    (∀ content' : Bytes, content'.length = content.length →
      (c.getContentStream (serving courses content') req routingKey).2.flatten <+: rangeOf req content') ↔
    rangeOf req content = [] ∨
      RepeatsNothing (c.attemptAt courses req.hash (BlobCacheClient.keyOf req routingKey))
        (c.maxAttempts req.length) := by
  rw [← byteCounts_pairwise_iff]
  generalize counted : byteCounts (c.attemptAt courses req.hash (BlobCacheClient.keyOf req routingKey))
    (c.maxAttempts req.length) = counts
  have carried (content' : Bytes) : (c.getContentStream (serving courses content') req routingKey).2.flatten =
      (counts.map (rangeOf req content').take).flatten := by
    have prefixes := streamFrom_prefixes courses req (BlobCacheClient.keyOf req routingKey) content'
      (c.maxAttempts req.length) 0 (.start c req.hash _)
    simp only [Nat.zero_add, counted] at prefixes
    rw [← prefixes]
    exact List.flatten_flatten
  simp only [carried]
  constructor
  · intro together
    cases size : (rangeOf req content).length with
    | zero => exact .inl (List.eq_nil_of_length_eq_zero size)
    | succ m =>
      obtain ⟨content', sameLength, range⟩ := rangeOf_surjective req content (marked m) (by simp [marked, size])
      exact .inr (prefixes_of_marked (range ▸ together content' sameLength))
  · intro nothing content' sameLength
    apply prefixes_once
    apply List.pairwise_map.mpr
    rcases nothing with empty | apart
    · have empty' : rangeOf req content' = [] := by
        apply List.eq_nil_of_length_eq_zero
        rw [rangeOf_length, sameLength, ← rangeOf_length, empty, List.length_nil]
      exact List.pairwise_of_forall_mem_list fun _ _ _ _ => .inl (by rw [empty', List.take_nil])
    · apply apart.imp
      rintro earlier later (rfl | rfl)
      · exact .inl List.take_zero
      · exact .inr List.take_zero

/-- The first stream fails after one byte, the second one delivers the whole range. -/
def failsAfterOneByte : Courses
  | 0, _ => .ok ⟨[1], .failed ⟨.unknown, "connection reset"⟩⟩
  | _, _ => .ok ⟨[2], .eof⟩

/-- The byte that arrived before the failure is on the channel twice. -/
theorem retry_repeats_bytes :
    (BlobCacheClient.ofTwoHosts.getContentStream (serving failsAfterOneByte [7, 8])
      ⟨"h", 0, 2, by decide, by decide⟩ "").2 = [[7], [7, 8]] ∧
    ¬ [[7], [7, 8]].flatten <+: rangeOf ⟨"h", 0, 2, by decide, by decide⟩ [7, 8] := by
  constructor
  · decide
  · decide

end Blobcache.Client
