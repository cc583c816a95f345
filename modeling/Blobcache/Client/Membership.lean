import Blobcache.Lib.Execution
import Blobcache.Client.Routing

/-!
# The members of a client

`hostmap.go` and `client.go`: `HostMap.Set`, `addHost` and `monitorHost`. A client keeps its
members three times: in the host map, which discovery fills, in the rendezvous hasher, and as
the keys of its gRPC clients. A host that cannot be dialled is left in the host map, because
`Set` does not look at the error of its callback; and a host that is removed keeps its gRPC
client, because `monitorHost` deletes it under the address and not under the id. Discovery
skips a host that is in the host map, so the first is for good.
-/

namespace Blobcache.Client
set_option autoImplicit false
open Execution

/-- A host as discovery reports it. -/
structure DiscoveredHost extends BlobCacheHost where
  addr : String
  privateAddr : String
  deriving DecidableEq, Repr

/-- The address that `addHost` dials. -/
def DiscoveredHost.dialAddr (host : DiscoveredHost) : String :=
  if host.privateAddr ≠ "" then host.privateAddr else host.addr

/-- The three views of the membership, and the hosts whose `monitorHost` is running. -/
structure Views where
  hostMap : String → Option DiscoveredHost
  hasher : List DiscoveredHost
  grpcClients : Finset String
  monitors : List DiscoveredHost

namespace Views

def new : Views := ⟨fun _ => none, [], ∅, []⟩

/-- `addHost`; `dial` is the error of `grpc.Dial`, if the address cannot be dialled. -/
def addHost (v : Views) (dial : String → Option String) (host : DiscoveredHost) : Views × Option String :=
  match dial host.dialAddr with
  | some err => (v, some err)
  | none =>
    ({ v with
      grpcClients := insert host.hostId v.grpcClients
      hasher := v.hasher ++ [host]
      monitors := v.monitors ++ [host] }, none)

/-- `HostMap.Set`, with `addHost` as its callback. -/
def set (v : Views) (dial : String → Option String) (host : DiscoveredHost) : Views :=
  match v.hostMap host.hostId with
  | some _ => v
  | none => (addHost { v with hostMap := Function.update v.hostMap host.hostId (some host) } dial host).1

/-- `HostMap.Remove`. -/
def removeFromMap (v : Views) (host : DiscoveredHost) : Views :=
  match v.hostMap host.hostId with
  | none => v
  | some _ => { v with hostMap := Function.update v.hostMap host.hostId none }

/-- The end of `monitorHost`, when the host could not be reached. -/
def remove (v : Views) (host : DiscoveredHost) : Views :=
  { v.removeFromMap host with
    hasher := v.hasher.filter (·.hostId ≠ host.hostId)
    grpcClients := v.grpcClients.erase host.addr
    monitors := v.monitors.erase host }

end Views

inductive MemberAct where
  | set (dial : String → Option String) (host : DiscoveredHost)
  | remove (host : DiscoveredHost)

namespace Views

def step (a : MemberAct) (v : Views) : Views :=
  match a with
  | .set dial host => v.set dial host
  | .remove host => v.remove host

/-- The id is in the host map. -/
def Known (v : Views) (hostId : String) : Prop := (v.hostMap hostId).isSome

/-- The three views have the same ids. -/
structure Agree (v : Views) : Prop where
  hasher : ∀ hostId, v.Known hostId ↔ ∃ host ∈ v.hasher, host.hostId = hostId
  clients : ∀ hostId, v.Known hostId ↔ hostId ∈ v.grpcClients

/-- Only a host whose `monitorHost` is running is removed. -/
def Monitored (v : Views) : MemberAct → Prop
  | .set _ _ => True
  | .remove host => host ∈ v.monitors

/-- A new host can be dialled, and a host is removed under its address. -/
def Tidy (v : Views) : MemberAct → Prop
  | .set dial host => v.Known host.hostId ∨ dial host.dialAddr = none
  | .remove host => host.addr = host.hostId

/-! ## One step -/

/-- The views agree, and each member is monitored once at most. -/
structure Consistent (v : Views) : Prop where
  agree : v.Agree
  known : ∀ host ∈ v.monitors, v.Known host.hostId
  once : (v.monitors.map (·.hostId)).Nodup

theorem Consistent.new : Consistent new := by
  refine ⟨⟨fun hostId => ?_, fun hostId => ?_⟩, fun host member => (by cases member), .nil⟩
  · simp [Known, Views.new]
  · simp [Known, Views.new]

variable {v : Views} {dial : String → Option String} {host : DiscoveredHost}

theorem set_known (known : v.Known host.hostId) : v.set dial host = v := by
  obtain ⟨_, found⟩ := Option.isSome_iff_exists.mp known
  simp only [set, found]

theorem set_new (new : ¬ v.Known host.hostId) :
    v.set dial host = (addHost { v with hostMap := Function.update v.hostMap host.hostId (some host) } dial host).1 := by
  simp only [set, Option.not_isSome_iff_eq_none.mp new]

theorem remove_hostMap (v : Views) (host : DiscoveredHost) :
    (v.remove host).hostMap = Function.update v.hostMap host.hostId none := by
  simp only [remove, removeFromMap]
  split
  · rename_i absent
    exact (Function.update_eq_self_iff.mpr absent.symm).symm
  · rfl

theorem known_update {hostMap : String → Option DiscoveredHost} {found : Option DiscoveredHost} {hostId other : String} :
    (Function.update hostMap hostId found other).isSome ↔
      if other = hostId then found.isSome else (hostMap other).isSome := by
  by_cases same : other = hostId
  · subst same
    simp
  · simp [same]

/-- A new host that can be dialled enters all three views. -/
theorem Consistent.add (h : v.Consistent) (new : ¬ v.Known host.hostId) (dialled : dial host.dialAddr = none) :
    (v.set dial host).Consistent := by
  rw [set_new new]
  simp only [addHost, dialled]
  refine ⟨⟨fun hostId => ?_, fun hostId => ?_⟩, fun other member => ?_, ?_⟩
  · rw [Known, known_update]
    have before := h.agree.hasher hostId
    by_cases same : hostId = host.hostId
    · subst same
      exact iff_of_true (by simp) ⟨host, by simp, rfl⟩
    · simp only [same, if_false]
      rw [← Known, before]
      simp [List.mem_append, Ne.symm same]
  · rw [Known, known_update]
    have before := h.agree.clients hostId
    by_cases same : hostId = host.hostId
    · simp [same]
    · simp only [same, if_false]
      rw [← Known, before]
      simp [same]
  · rw [Known, known_update]
    split
    · rfl
    · rename_i different
      rcases List.mem_append.mp member with old | added
      · exact h.known other old
      · exact absurd (by rw [List.mem_singleton.mp added]) different
  · rw [List.map_append, List.map_singleton, List.nodup_append]
    refine ⟨h.once, List.nodup_singleton _, fun a memberA b memberB same => ?_⟩
    obtain ⟨other, monitored, rfl⟩ := List.mem_map.mp memberA
    rw [List.mem_singleton.mp memberB] at same
    exact new (same ▸ h.known other monitored)

/-- A host removed under its address leaves all three views. -/
theorem Consistent.remove (h : v.Consistent) (monitored : host ∈ v.monitors) (same : host.addr = host.hostId) :
    (v.remove host).Consistent := by
  have others {other : DiscoveredHost} (left : other ∈ v.monitors.erase host) :
      other ∈ v.monitors ∧ other.hostId ≠ host.hostId := by
    have distinct : v.monitors.Nodup := h.once.of_map _
    obtain ⟨different, member⟩ := distinct.mem_erase_iff.mp left
    exact ⟨member, fun sameId => different (List.inj_on_of_nodup_map h.once member monitored sameId)⟩
  refine ⟨⟨fun hostId => ?_, fun hostId => ?_⟩, fun other left => ?_, ?_⟩
  · rw [Known, remove_hostMap, known_update]
    have before := h.agree.hasher hostId
    by_cases gone : hostId = host.hostId
    · subst gone
      simp [Views.remove]
    · simp only [gone, if_false]
      rw [← Known, before]
      simp only [Views.remove, List.mem_filter, decide_eq_true_eq]
      constructor
      · rintro ⟨other, member, rfl⟩
        exact ⟨other, ⟨member, gone⟩, rfl⟩
      · rintro ⟨other, ⟨member, -⟩, rfl⟩
        exact ⟨other, member, rfl⟩
  · rw [Known, remove_hostMap, known_update]
    have before := h.agree.clients hostId
    by_cases gone : hostId = host.hostId
    · simp [Views.remove, gone, same]
    · simp only [gone, if_false]
      rw [← Known, before]
      simp [Views.remove, gone, same]
  · obtain ⟨member, different⟩ := others left
    rw [Known, remove_hostMap, known_update, if_neg different]
    exact h.known other member
  · exact h.once.sublist ((List.erase_sublist).map _)

theorem Consistent.step (h : v.Consistent) {a : MemberAct} (monitored : v.Monitored a) (tidy : v.Tidy a) :
    (v.step a).Consistent := by
  cases a with
  | set dial host =>
    by_cases known : v.Known host.hostId
    · rw [Views.step, set_known known]
      exact h
    · exact h.add known (tidy.resolve_left known)
  | remove host => exact h.remove monitored tidy

/-- A step after which the views still agree is tidy. -/
theorem Consistent.tidy_of_agree (h : v.Consistent) {a : MemberAct} (monitored : v.Monitored a)
    (agree : (v.step a).Agree) : v.Tidy a := by
  cases a with
  | set dial host =>
    by_contra untidy
    obtain ⟨new, failed⟩ := not_or.mp untidy
    obtain ⟨err, failed⟩ := Option.ne_none_iff_exists'.mp failed
    -- the host is in the host map and has no client
    have clients := agree.clients host.hostId
    simp only [Views.step, set_new new, addHost, failed] at clients
    have known : (Function.update v.hostMap host.hostId (some host) host.hostId).isSome := by simp
    exact new ((h.agree.clients _).mpr (clients.mp known))
  | remove host =>
    by_contra untidy
    -- the host has a client and is not in the host map
    have client : host.hostId ∈ v.grpcClients := (h.agree.clients _).mp (h.known host monitored)
    have stays : host.hostId ∈ (v.remove host).grpcClients := Finset.mem_erase_of_ne_of_mem (Ne.symm untidy) client
    have known := (agree.clients host.hostId).mpr stays
    rw [Known, Views.step, remove_hostMap, Function.update_self] at known
    cases known

/-- **The views of the membership.** As long as every step has been tidy the views agree, and
they agree after the next step exactly when it is tidy too. -/
theorem views_agree_iff (run : Trace Views.step (fun v a => v.Monitored a ∧ v.Tidy a) Views.new v) :
    v.Agree ∧ ∀ a, v.Monitored a → ((v.step a).Agree ↔ v.Tidy a) := by
  have consistent := run.invariant (I := Consistent) (fun _ _ h ok => h.step ok.1 ok.2) Consistent.new
  refine ⟨consistent.agree, fun a monitored => ⟨consistent.tidy_of_agree monitored, fun tidy => ?_⟩⟩
  exact (consistent.step monitored tidy).agree

/-- A host as `NewCacheService` describes it: the id and the address are different texts. -/
def someHost : DiscoveredHost := ⟨⟨"blobcache-host-1a2b3c"⟩, "203.0.113.7:2049", "10.0.0.7:2049"⟩

def dialsAll : String → Option String := fun _ => none

theorem views_agree_one_host : (new.set dialsAll someHost).Agree := by
  have tidy : new.Tidy (.set dialsAll someHost) := .inr rfl
  exact (views_agree_iff ((Trace.refl new).tail (MemberAct.set dialsAll someHost) ⟨trivial, tidy⟩)).1

/-- A host that is added and then removed keeps its gRPC client. -/
theorem removed_host_keeps_client :
    ∃ v, Trace Views.step (fun v a => v.Monitored a) Views.new v ∧ ¬ v.Known someHost.hostId ∧
      someHost.hostId ∈ v.grpcClients ∧ ¬ v.Agree := by
  refine ⟨_, ((Trace.refl new).tail (.set dialsAll someHost) trivial).tail (.remove someHost) ?_, ?_⟩
  · exact List.mem_singleton_self _
  · have absent : ¬ ((new.set dialsAll someHost).remove someHost).Known someHost.hostId := by
      unfold Known
      decide
    have present : someHost.hostId ∈ ((new.set dialsAll someHost).remove someHost).grpcClients := by decide
    exact ⟨absent, present, fun agree => absent ((agree.clients _).mpr present)⟩

end Views

end Blobcache.Client
