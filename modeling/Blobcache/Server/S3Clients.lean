import Blobcache.Storage.EndOfObject
import Blobcache.Server.StoreFromSource

/-!
# The S3 clients of a server

`cacheSourceFromS3` keeps every client it builds, under the endpoint, the region and the
bucket of the request, joined with slashes. The credentials are no part of this key, and a
slash inside one field is the border to the next one as well. A request can therefore be
served by a client that was built for another request. Which client serves a request is
`s3ClientFor`; along a sequence of requests each is served by its own exactly when no two
of them have one key and different configurations.
-/

namespace Blobcache.Server
set_option autoImplicit false
open Storage

/-- The configuration a request asks for. -/
def CacheSource.s3Config (source : CacheSource) : S3SourceConfig :=
  ⟨source.bucketName, source.region, source.endpointUrl, source.accessKey, source.secretKey⟩

/-- The key under which the client of a request is kept. -/
def CacheSource.s3Key (source : CacheSource) : String :=
  source.endpointUrl ++ "/" ++ source.region ++ "/" ++ source.bucketName

/-- The client that serves a request: the one kept under its key, or a new one. -/
def s3ClientFor (world : World) (s3ClientCache : String → Option S3Client) (source : CacheSource) :
    Except String S3Client :=
  (s3ClientCache source.s3Key).elim (newS3Client world source.s3Config) .ok

section

variable {world : World} {s3ClientCache : String → Option S3Client} {source : CacheSource} {client : S3Client}

theorem s3ClientFor_kept (kept : s3ClientCache source.s3Key = some client) :
    s3ClientFor world s3ClientCache source = .ok client := by
  rw [s3ClientFor, kept]
  rfl

/-- A client that was not kept is built from the request. -/
theorem s3ClientFor_built (absent : s3ClientCache source.s3Key = none)
    (served : s3ClientFor world s3ClientCache source = .ok client) :
    world.loadDefaultConfig source.s3Config = none ∧ client.source = source.s3Config := by
  rw [s3ClientFor, absent, Option.elim_none, newS3Client] at served
  cases loaded : world.loadDefaultConfig source.s3Config with
  | some cause => rw [loaded] at served; cases served
  | none => rw [loaded] at served; cases served; exact ⟨rfl, rfl⟩

/-- A request is served by its client, which is kept. -/
theorem cacheSourceFromS3_eq : cacheSourceFromS3 world s3ClientCache source =
    ((s3ClientFor world s3ClientCache source).toOption.elim s3ClientCache
      (fun client => Function.update s3ClientCache source.s3Key (some client)),
    (s3ClientFor world s3ClientCache source).bind fun client => world.downloadIntoBuffer client source.path) := by
  have key : source.endpointUrl ++ "/" ++ source.region ++ "/" ++ source.bucketName = source.s3Key := rfl
  have config : S3SourceConfig.mk source.bucketName source.region source.endpointUrl source.accessKey source.secretKey =
    source.s3Config := rfl
  cases kept : s3ClientCache source.s3Key with
  | some client =>
    have unchanged : Function.update s3ClientCache source.s3Key (some client) = s3ClientCache := by
      rw [← kept, Function.update_eq_self]
    rw [s3ClientFor_kept kept]
    simp only [cacheSourceFromS3, key, kept, Except.toOption, Option.elim_some, unchanged]
    rfl
  | none =>
    simp only [cacheSourceFromS3, key, config, kept, s3ClientFor, Option.elim_none]
    cases newS3Client world source.s3Config <;> rfl

end

/-! ## A sequence of requests -/

/-- A request for an S3 object, and what its handling meets. -/
structure S3Request where
  world : World
  source : CacheSource
  fromS3 : source.bucketName ≠ ""

/-- The client of the request can be built. -/
def S3Request.Loads (request : S3Request) : Prop := request.world.loadDefaultConfig request.source.s3Config = none

variable {σ : Type}

/-- The state after `StoreContentFromSource`, which always returns. -/
def handle (service : CacheService σ) (state : ServiceState σ) (request : S3Request) : ServiceState σ :=
  ((storeContentFromSource service request.world state request.source).map Prod.fst).getD state

/-- The clients kept after a sequence of requests. -/
def clientsAfter (service : CacheService σ) (start : ServiceState σ) (requests : List S3Request) :
    String → Option S3Client :=
  (requests.foldl (handle service) start).s3ClientCache

/-- Each request that is served is served by a client with its own endpoint, region, bucket
and credentials. -/
def ServedByOwn (service : CacheService σ) (start : ServiceState σ) (requests : List S3Request) : Prop :=
  ∀ before request after, requests = before ++ request :: after →
    ∀ client, s3ClientFor request.world (clientsAfter service start before) request.source = .ok client →
      client.source = request.source.s3Config

/-- Two requests do not come to share a client, unless they ask for the same one. -/
def Distinguished (a b : S3Request) : Prop :=
  a.source.s3Key = b.source.s3Key → a.Loads → a.source.s3Config = b.source.s3Config

section

variable {service : CacheService σ} {start : ServiceState σ} {requests : List S3Request}

/-- The handler changes the storage, and keeps the client that served the request. -/
theorem storeContentFromSource_frame {world : World} {state state' : ServiceState σ} {source : CacheSource}
    {answer : StoreContentFromSourceResponse × Option String}
    (returned : storeContentFromSource service world state source = some (state', answer)) :
    state'.s3ClientCache = (readSource world state.s3ClientCache source).1 ∧
      state'.coordination = state.coordination := by
  unfold storeContentFromSource at returned
  rcases taken : readSource world state.s3ClientCache source with ⟨clients, cause | bytes⟩
  · simp only [taken] at returned
    cases returned
    exact ⟨rfl, rfl⟩
  · simp only [taken] at returned
    split at returned
    · cases returned
    · cases returned
      exact ⟨rfl, rfl⟩
    · split at returned
      · split at returned <;> cases returned <;> exact ⟨rfl, rfl⟩
      · cases returned
        exact ⟨rfl, rfl⟩

theorem handle_clients (state : ServiceState σ) (request : S3Request) :
    (handle service state request).s3ClientCache =
      (cacheSourceFromS3 request.world state.s3ClientCache request.source).1 := by
  obtain ⟨state', answer, returned, -⟩ := storeContentFromSource_taken service request.world state request.source
  have clients := (storeContentFromSource_frame returned).1
  rw [readSource, if_neg request.fromS3] at clients
  rw [handle, returned]
  exact clients

/-- The client that serves the last request is kept; the others stay. -/
theorem clientsAfter_append (before : List S3Request) (request : S3Request) (key : String) :
    clientsAfter service start (before ++ [request]) key =
      if key = request.source.s3Key then
        (s3ClientFor request.world (clientsAfter service start before) request.source).toOption
      else clientsAfter service start before key := by
  have last : clientsAfter service start (before ++ [request]) =
      (cacheSourceFromS3 request.world (clientsAfter service start before) request.source).1 := by
    rw [clientsAfter, List.foldl_append]
    exact handle_clients _ request
  rw [last, cacheSourceFromS3_eq]
  cases served : s3ClientFor request.world (clientsAfter service start before) request.source with
  | ok client => exact Function.update_apply _ _ _ _
  | error cause =>
    split
    · rename_i same
      cases kept : clientsAfter service start before request.source.s3Key with
      | some client =>
        rw [s3ClientFor_kept kept] at served
        cases served
      | none =>
        rw [same]
        exact kept
    · rfl

/-- A client that is kept was built for one of the requests. -/
theorem clientsAfter_built (new : ∀ key, start.s3ClientCache key = none) {key : String} {client : S3Client}
    (kept : clientsAfter service start requests key = some client) :
    ∃ a ∈ requests, a.Loads ∧ a.source.s3Key = key ∧ client.source = a.source.s3Config := by
  induction requests using List.reverseRecOn with
  | nil =>
    rw [clientsAfter, List.foldl_nil, new] at kept
    cases kept
  | append_singleton before request ih =>
    have earlier (old : clientsAfter service start before key = some client) :
        ∃ a ∈ before ++ [request], a.Loads ∧ a.source.s3Key = key ∧ client.source = a.source.s3Config := by
      obtain ⟨a, member, built⟩ := ih old
      exact ⟨a, List.mem_append_left _ member, built⟩
    rw [clientsAfter_append] at kept
    split at kept
    · rename_i same
      cases held : clientsAfter service start before request.source.s3Key with
      | some other =>
        rw [s3ClientFor_kept held] at kept
        cases kept
        exact earlier (by rw [same]; exact held)
      | none =>
        cases served : s3ClientFor request.world (clientsAfter service start before) request.source with
        | error cause => rw [served] at kept; cases kept
        | ok other =>
          rw [served] at kept
          cases kept
          obtain ⟨loads, own⟩ := s3ClientFor_built held served
          exact ⟨request, by simp, loads, same.symm, own⟩
    · exact earlier kept

/-- The key of a request whose client can be built has a client from then on. -/
theorem clientsAfter_some {a : S3Request} (member : a ∈ requests) (loads : a.Loads) :
    ∃ client, clientsAfter service start requests a.source.s3Key = some client := by
  induction requests using List.reverseRecOn with
  | nil => cases member
  | append_singleton before request ih =>
    rw [clientsAfter_append]
    split
    · rename_i same
      cases held : clientsAfter service start before request.source.s3Key with
      | some client => exact ⟨client, by rw [s3ClientFor_kept held]; rfl⟩
      | none =>
        rcases List.mem_append.mp member with old | last
        · obtain ⟨client, kept⟩ := ih old
          rw [same, held] at kept
          cases kept
        · rw [List.mem_singleton.mp last] at loads
          refine ⟨⟨request.source.s3Config⟩, ?_⟩
          rw [s3ClientFor, held, Option.elim_none, newS3Client, loads]
          rfl
    · rename_i other
      rcases List.mem_append.mp member with old | last
      · exact ih old
      · rw [List.mem_singleton.mp last] at other
        exact absurd rfl other

/-- Among distinguished requests, a key that is shared stands for one configuration. -/
theorem same_config (distinguished : requests.Pairwise Distinguished) {a b : S3Request} (first : a ∈ requests)
    (second : b ∈ requests) (loads : a.Loads) (loads' : b.Loads) (same : a.source.s3Key = b.source.s3Key) :
    a.source.s3Config = b.source.s3Config := by
  have shared : requests.Pairwise fun a b => a.Loads → b.Loads → a.source.s3Key = b.source.s3Key →
      a.source.s3Config = b.source.s3Config :=
    distinguished.imp fun apart loads _ same => apart same loads
  have symmetric : Std.Symm fun a b : S3Request => a.Loads → b.Loads → a.source.s3Key = b.source.s3Key →
      a.source.s3Config = b.source.s3Config :=
    ⟨fun _ _ apart loads loads' same => (apart loads' loads same.symm).symm⟩
  exact shared.forall_of_forall (fun _ _ _ _ _ => rfl) first second loads loads' same

theorem servedByOwn_append (before : List S3Request) (request : S3Request) :
    ServedByOwn service start (before ++ [request]) ↔ ServedByOwn service start before ∧
      ∀ client, s3ClientFor request.world (clientsAfter service start before) request.source = .ok client →
        client.source = request.source.s3Config := by
  constructor
  · intro own
    refine ⟨fun front a after split => own front a (after ++ [request]) ?_, own before request [] rfl⟩
    rw [split, List.append_assoc, List.cons_append]
  · rintro ⟨own, last⟩ front a after split
    rcases List.eq_nil_or_concat' after with rfl | ⟨rest, b, rfl⟩
    · obtain ⟨rfl, same⟩ := List.append_inj' split rfl
      cases same
      exact last
    · rw [← List.cons_append, ← List.append_assoc] at split
      obtain ⟨rfl, -⟩ := List.append_inj' split rfl
      exact own front a rest rfl

/-- A request whose client can be built is served. -/
theorem S3Request.Loads.served {request : S3Request} (loads : request.Loads)
    (s3ClientCache : String → Option S3Client) :
    ∃ client, s3ClientFor request.world s3ClientCache request.source = .ok client := by
  cases kept : s3ClientCache request.source.s3Key with
  | some client => exact ⟨client, s3ClientFor_kept kept⟩
  | none =>
    refine ⟨⟨request.source.s3Config⟩, ?_⟩
    rw [s3ClientFor, kept, Option.elim_none, newS3Client, loads]

theorem servedByOwn_iff (new : ∀ key, start.s3ClientCache key = none) :
    ServedByOwn service start requests ↔ requests.Pairwise Distinguished := by
  induction requests using List.reverseRecOn with
  | nil =>
    refine iff_of_true (fun before request after split => ?_) .nil
    cases before <;> cases split
  | append_singleton before request ih =>
    rw [servedByOwn_append, ih, List.pairwise_append]
    simp only [List.pairwise_singleton, List.mem_singleton, forall_eq, true_and]
    refine and_congr_right fun distinguished => ⟨fun own a member same loads => ?_, fun apart client served => ?_⟩
    · -- the key has a client by now, which was built for a request with the configuration of `a`
      obtain ⟨client, kept⟩ := @clientsAfter_some σ service start before a member loads
      obtain ⟨b, member', loads', same', built⟩ := clientsAfter_built new kept
      rw [same_config distinguished member member' loads loads' same'.symm, ← built]
      exact own client (s3ClientFor_kept (by rw [← same]; exact kept))
    · cases kept : clientsAfter service start before request.source.s3Key with
      | none => exact (s3ClientFor_built kept served).2
      | some other =>
        rw [s3ClientFor_kept kept] at served
        cases served
        obtain ⟨a, member, loads, same, built⟩ := clientsAfter_built new kept
        rw [built]
        exact apart a member same loads

/-- What a request reads after others were handled. -/
def readAfter (service : CacheService σ) (start : ServiceState σ) (before : List S3Request) (request : S3Request) :
    Except String Bytes :=
  (readSource request.world (clientsAfter service start before) request.source).2

/-- A request that is served by its own client reads what that client downloads. -/
theorem readAfter_own {before : List S3Request} {request : S3Request}
    (own : ServedByOwn service start (before ++ [request])) (loads : request.Loads) :
    readAfter service start before request =
      request.world.downloadIntoBuffer ⟨request.source.s3Config⟩ request.source.path := by
  obtain ⟨client, served⟩ := loads.served (clientsAfter service start before)
  have config := (servedByOwn_append before request).mp own |>.2 client served
  rw [readAfter, readSource, if_neg request.fromS3, cacheSourceFromS3_eq, served, ← config]
  rfl

/-- **S3 requests and their clients.** Each request of a sequence is served by a client with its
own endpoint, region, bucket and credentials exactly when no two requests of the sequence
have one key and different configurations; and after any two histories of this kind a
request reads the same. -/
theorem own_s3_clients_iff (service : CacheService σ) (start : ServiceState σ)
    (new : ∀ key, start.s3ClientCache key = none) :
    (∀ requests, ServedByOwn service start requests ↔ requests.Pairwise Distinguished) ∧
    ∀ (before before' : List S3Request) (request : S3Request), request.Loads →
      (before ++ [request]).Pairwise Distinguished → (before' ++ [request]).Pairwise Distinguished →
      readAfter service start before request = readAfter service start before' request := by
  refine ⟨fun requests => servedByOwn_iff new, fun before before' request loads distinguished distinguished' => ?_⟩
  rw [readAfter_own ((servedByOwn_iff new).mpr distinguished) loads,
    readAfter_own ((servedByOwn_iff new).mpr distinguished') loads]

/-- An S3 service with one object, which the access key `alice` may read. -/
def guardedBucket : World where
  localFile _ := ⟨none, none, [], none⟩
  loadDefaultConfig _ := none
  downloadIntoBuffer client _ := if client.source.accessKey = "alice" then .ok [7] else .error "AccessDenied"
  add := quietStore
  storeContentInBlobFs _ _ _ := none

theorem bucket_ne_empty : "bucket" ≠ "" := by decide

/-- A request for the object with an access key. -/
def requestOf (accessKey : String) : S3Request :=
  ⟨guardedBucket, ⟨"object", "bucket", "region", "", accessKey, "secret"⟩, bucket_ne_empty⟩

end

theorem zeros_length : (List.replicate 32 0 : Bytes).length = 32 := rfl

/-- A server without a coordinator. -/
def aloneService : CacheService Unit := ⟨fun _ => ⟨List.replicate 32 0, zeros_length⟩, oneBytePages, "here", none⟩

/-- Its state when it starts. -/
def aloneStart : ServiceState Unit := ⟨Cas.fresh, fun _ => none, ()⟩

theorem own_s3_clients_alice :
    ServedByOwn aloneService aloneStart [requestOf "alice", requestOf "alice"] ∧
      readAfter aloneService aloneStart [requestOf "alice"] (requestOf "alice") =
        readAfter aloneService aloneStart [] (requestOf "alice") := by
  have alike : [requestOf "alice", requestOf "alice"].Pairwise Distinguished := by
    rw [List.pairwise_pair]
    exact fun _ _ => rfl
  obtain ⟨own, reads⟩ := own_s3_clients_iff aloneService aloneStart (fun _ => rfl)
  exact ⟨(own _).mpr alike, reads [requestOf "alice"] [] (requestOf "alice") rfl alike (List.pairwise_singleton _ _)⟩

/-- The access key `bob` may not read the object, and reads it after `alice` has. -/
theorem borrowed_credentials :
    readAfter aloneService aloneStart [] (requestOf "bob") = .error "AccessDenied" ∧
      readAfter aloneService aloneStart [requestOf "alice"] (requestOf "bob") = .ok [7] ∧
      ¬ ServedByOwn aloneService aloneStart [requestOf "alice", requestOf "bob"] := by
  have kept : s3ClientFor guardedBucket (clientsAfter aloneService aloneStart [requestOf "alice"])
      (requestOf "bob").source = .ok ⟨(requestOf "alice").source.s3Config⟩ := by decide
  refine ⟨by decide, by decide, fun own => ?_⟩
  exact absurd (own [requestOf "alice"] (requestOf "bob") [] rfl _ kept) (by decide)

/-- With a slash inside a field two buckets have one key. -/
example : CacheSource.s3Key ⟨"object", "c", "b", "a/a", "", ""⟩ =
    CacheSource.s3Key ⟨"object", "c", "a/b", "a", "", ""⟩ := by
  decide

end Blobcache.Server
