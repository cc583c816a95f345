import Mathlib.Data.Finset.Basic
import Mathlib.Data.Finset.Dedup
import Mathlib.Data.Finset.Insert
import Blobcache.Lib.Execution

/-!
# Two mutexes, locked in two orders

`hostmap.go`, `discovery.go` and `client.go`. The discovery thread calls `HostMap.Set`, which
holds `HostMap.mu` while its callback `addHost` locks `BlobCacheClient.mu`; a `monitorHost`
thread whose host has failed holds `BlobCacheClient.mu` while `HostMap.Remove` locks
`HostMap.mu`. The threads are followed lock operation by lock operation. What they do to the
host map is kept, because it decides whether `Set` calls `addHost` at all; a host is named by
its id. The hosts to be discovered are all those of all rounds of `Start`, one after the other.
-/

namespace Blobcache.Client
set_option autoImplicit false
open Execution

inductive Thread where
  | discovery
  | monitor (i : Nat)
  deriving DecidableEq, Repr

inductive Mutex where
  /-- `HostMap.mu`. -/
  | hostMap
  /-- `BlobCacheClient.mu`. -/
  | client
  deriving DecidableEq, Repr

/-- Where the discovery thread is. -/
inductive DiscoveryPc where
  /-- At the lock of `Set`, for the next host. -/
  | ready
  | inSet (host : String)
  /-- At the lock of `addHost`. -/
  | wantsClient (host : String)
  | inAdd (host : String)
  /-- At the end of `Set`. -/
  | leaving
  deriving DecidableEq, Repr

/-- Where a `monitorHost` thread is. -/
inductive MonitorPc where
  /-- The host answers so far. -/
  | watching
  /-- The host has failed; at the lock of the client. -/
  | wantsClient
  /-- At the lock of `Remove`. -/
  | wantsHostMap
  | inRemove
  /-- `Remove` has returned. -/
  | leaving
  | gone
  deriving DecidableEq, Repr

/-- The monitor has still to remove its host. -/
def MonitorPc.pending : MonitorPc → Bool
  | .watching | .wantsClient | .wantsHostMap | .inRemove => true
  | .leaving | .gone => false

structure Monitor where
  host : String
  pc : MonitorPc
  deriving DecidableEq, Repr

structure Threads where
  hostMapMu : Option Thread
  clientMu : Option Thread
  /-- The ids in the host map. -/
  hosts : Finset String
  discovery : DiscoveryPc
  /-- The hosts that the discovery thread has still to set. -/
  rest : List String
  monitors : List Monitor

namespace Threads

/-- The discovery thread moves; `dialFails` says whether `grpc.Dial` fails in this move. -/
def moveDiscovery (s : Threads) (dialFails : Bool) : Threads :=
  match s.discovery with
  | .ready =>
    match s.rest, s.hostMapMu with
    | host :: rest, none => { s with hostMapMu := some .discovery, discovery := .inSet host, rest := rest }
    | _, _ => s
  | .inSet host =>
    if host ∈ s.hosts then { s with discovery := .leaving }
    else { s with
      hosts := insert host s.hosts
      discovery := if dialFails then .leaving else .wantsClient host }
  | .wantsClient host =>
    match s.clientMu with
    | none => { s with clientMu := some .discovery, discovery := .inAdd host }
    | some _ => s
  | .inAdd host =>
    { s with clientMu := none, discovery := .leaving, monitors := s.monitors ++ [⟨host, .watching⟩] }
  | .leaving => { s with hostMapMu := none, discovery := .ready }

/-- The monitor comes to another place. -/
def monitorAt (s : Threads) (i : Nat) (host : String) (pc : MonitorPc) : Threads :=
  { s with monitors := s.monitors.set i ⟨host, pc⟩ }

/-- A `monitorHost` thread moves; the first move is the failure of its host. -/
def moveMonitor (s : Threads) (i : Nat) : Threads :=
  match s.monitors[i]? with
  | none => s
  | some ⟨host, .watching⟩ => s.monitorAt i host .wantsClient
  | some ⟨host, .wantsClient⟩ =>
    match s.clientMu with
    | none => { s.monitorAt i host .wantsHostMap with clientMu := some (.monitor i) }
    | some _ => s
  | some ⟨host, .wantsHostMap⟩ =>
    match s.hostMapMu with
    | none => { s.monitorAt i host .inRemove with hostMapMu := some (.monitor i) }
    | some _ => s
  | some ⟨host, .inRemove⟩ => { s.monitorAt i host .leaving with hosts := s.hosts.erase host, hostMapMu := none }
  | some ⟨host, .leaving⟩ => { s.monitorAt i host .gone with clientMu := none }
  | some ⟨_, .gone⟩ => s

end Threads

inductive ThreadMove where
  | discovery (dialFails : Bool)
  | monitor (i : Nat)

namespace Threads

def step (a : ThreadMove) (s : Threads) : Threads :=
  match a with
  | .discovery dialFails => s.moveDiscovery dialFails
  | .monitor i => s.moveMonitor i

/-- The known hosts are being watched, and the discovery thread has hosts to set. -/
def start (known list : List String) : Threads :=
  ⟨none, none, known.toFinset, .ready, list, known.map (⟨·, .watching⟩)⟩

def holder (s : Threads) : Mutex → Option Thread
  | .hostMap => s.hostMapMu
  | .client => s.clientMu

/-- Where a monitor is. -/
def pcAt (s : Threads) (i : Nat) : Option MonitorPc := (s.monitors[i]?).map Monitor.pc

/-- The mutex a thread waits for. -/
def waitsFor (s : Threads) : Thread → Option Mutex
  | .discovery =>
    match s.discovery with
    | .ready => if s.rest = [] then none else some .hostMap
    | .wantsClient _ => some .client
    | _ => none
  | .monitor i =>
    match s.pcAt i with
    | some .wantsClient => some .client
    | some .wantsHostMap => some .hostMap
    | _ => none

/-- Two threads each hold one of the mutexes and wait for the other one. -/
def Deadlocked (s : Threads) : Prop :=
  ∃ t u, t ≠ u ∧ s.holder .hostMap = some t ∧ s.waitsFor t = some .client ∧
    s.holder .client = some u ∧ s.waitsFor u = some .hostMap

/-- The states that the threads can come to. -/
abbrev Reach := Trace Threads.step fun _ _ => True

/-! ## What a move does -/

/-- All that a move can do. -/
inductive Moved (s : Threads) : Threads → Prop where
  | blocked : Moved s s
  | enterSet {host : String} {rest : List String} (pc : s.discovery = .ready) (list : s.rest = host :: rest)
      (free : s.hostMapMu = none) :
      Moved s { s with hostMapMu := some .discovery, discovery := .inSet host, rest := rest }
  | known {host : String} (pc : s.discovery = .inSet host) (known : host ∈ s.hosts) :
      Moved s { s with discovery := .leaving }
  | undialled {host : String} (pc : s.discovery = .inSet host) (new : host ∉ s.hosts) :
      Moved s { s with hosts := insert host s.hosts, discovery := .leaving }
  | calls {host : String} (pc : s.discovery = .inSet host) (new : host ∉ s.hosts) :
      Moved s { s with hosts := insert host s.hosts, discovery := .wantsClient host }
  | enterAdd {host : String} (pc : s.discovery = .wantsClient host) (free : s.clientMu = none) :
      Moved s { s with clientMu := some .discovery, discovery := .inAdd host }
  | added {host : String} (pc : s.discovery = .inAdd host) :
      Moved s { s with clientMu := none, discovery := .leaving, monitors := s.monitors ++ [⟨host, .watching⟩] }
  | leaveSet (pc : s.discovery = .leaving) : Moved s { s with hostMapMu := none, discovery := .ready }
  | fails {i : Nat} {host : String} (pc : s.monitors[i]? = some ⟨host, .watching⟩) :
      Moved s (s.monitorAt i host .wantsClient)
  | lockClient {i : Nat} {host : String} (pc : s.monitors[i]? = some ⟨host, .wantsClient⟩) (free : s.clientMu = none) :
      Moved s { s.monitorAt i host .wantsHostMap with clientMu := some (.monitor i) }
  | lockHostMap {i : Nat} {host : String} (pc : s.monitors[i]? = some ⟨host, .wantsHostMap⟩)
      (free : s.hostMapMu = none) : Moved s { s.monitorAt i host .inRemove with hostMapMu := some (.monitor i) }
  | removed {i : Nat} {host : String} (pc : s.monitors[i]? = some ⟨host, .inRemove⟩) :
      Moved s { s.monitorAt i host .leaving with hosts := s.hosts.erase host, hostMapMu := none }
  | leaves {i : Nat} {host : String} (pc : s.monitors[i]? = some ⟨host, .leaving⟩) :
      Moved s { s.monitorAt i host .gone with clientMu := none }

theorem step_moved (a : ThreadMove) (s : Threads) : Moved s (s.step a) := by
  cases a with
  | discovery dialFails =>
    simp only [step, moveDiscovery]
    split
    case h_1 pc =>
      split
      · rename_i list free
        exact .enterSet pc list free
      · exact .blocked
    case h_2 host pc =>
      split
      · rename_i known
        exact .known pc known
      · rename_i new
        cases dialFails
        · exact .calls pc new
        · exact .undialled pc new
    case h_3 host pc =>
      split
      · rename_i free
        exact .enterAdd pc free
      · exact .blocked
    case h_4 host pc => exact .added pc
    case h_5 pc => exact .leaveSet pc
  | monitor i =>
    simp only [step, moveMonitor]
    split
    case h_1 => exact .blocked
    case h_2 pc => exact .fails pc
    case h_3 pc =>
      split
      · rename_i free
        exact .lockClient pc free
      · exact .blocked
    case h_4 pc =>
      split
      · rename_i free
        exact .lockHostMap pc free
      · exact .blocked
    case h_5 pc => exact .removed pc
    case h_6 pc => exact .leaves pc
    case h_7 => exact .blocked

/-! ## Who holds a mutex -/

/-- The thread is at a place where it holds the mutex. -/
def Holds (s : Threads) : Thread → Mutex → Prop
  | .discovery, .hostMap => s.discovery ≠ .ready
  | .discovery, .client => ∃ host, s.discovery = .inAdd host
  | .monitor i, .hostMap => s.pcAt i = some .inRemove
  | .monitor i, .client => s.pcAt i = some .wantsHostMap ∨ s.pcAt i = some .inRemove ∨ s.pcAt i = some .leaving

/-- A mutex is held by a thread that is at such a place. -/
structure Owned (s : Threads) : Prop where
  holds : ∀ m t, s.holder m = some t → s.Holds t m

theorem Owned.start (known list : List String) : Owned (start known list) := by
  refine ⟨fun m t held => ?_⟩
  cases m <;> cases held

theorem pcAt_of {s : Threads} {i : Nat} {host : String} {pc : MonitorPc}
    (found : s.monitors[i]? = some ⟨host, pc⟩) : s.pcAt i = some pc := by
  rw [pcAt, found, Option.map_some]

theorem pcAt_monitorAt {s s' : Threads} {i : Nat} {host : String} {pc pc' : MonitorPc}
    (before : s.monitors[i]? = some ⟨host, pc⟩) (after : s'.monitors = (s.monitorAt i host pc').monitors) (j : Nat) :
    s'.pcAt j = if j = i then some pc' else s.pcAt j := by
  have within := (List.getElem?_eq_some_iff.mp before).1
  rw [pcAt, pcAt, after]
  by_cases same : j = i
  · subst same
    simp [monitorAt, within]
  · rw [if_neg same, monitorAt, List.getElem?_set_ne (Ne.symm same)]

theorem pcAt_self {s s' : Threads} {i : Nat} {host : String} {pc pc' : MonitorPc}
    (before : s.monitors[i]? = some ⟨host, pc⟩) (after : s'.monitors = (s.monitorAt i host pc').monitors) :
    s'.pcAt i = some pc' := by
  rw [pcAt_monitorAt before after, if_pos rfl]

/-- **The rule of a thread that moves**: it is enough that the others stay where they hold
what they held, and that the thread itself is at the right place for what it holds. -/
theorem Owned.of_mover {s s' : Threads} (h : s.Owned) (t : Thread)
    (others : ∀ u m, u ≠ t → s.Holds u m → s'.Holds u m)
    (taken : ∀ m u, u ≠ t → s'.holder m = some u → s.holder m = some u)
    (own : ∀ m, s'.holder m = some t → s'.Holds t m) : s'.Owned := by
  refine ⟨fun m u held => ?_⟩
  by_cases mover : u = t
  · subst mover
    exact own m held
  · exact others u m mover (h.holds m u (taken m u mover held))

/-- The discovery thread has moved, and the monitors are where they were. -/
theorem Owned.of_discovery {s s' : Threads} (h : s.Owned)
    (monitors : ∀ i pc, s.pcAt i = some pc → s'.pcAt i = some pc)
    (taken : ∀ m i, s'.holder m = some (.monitor i) → s.holder m = some (.monitor i))
    (own : ∀ m, s'.holder m = some .discovery → s'.Holds .discovery m) : s'.Owned := by
  refine h.of_mover .discovery (fun u m other held => ?_) (fun m u other held => ?_) own
  · cases u with
    | discovery => exact absurd rfl other
    | monitor i =>
      cases m with
      | hostMap => exact monitors i _ held
      | client => exact held.imp (monitors i _) (Or.imp (monitors i _) (monitors i _))
  · cases u with
    | discovery => exact absurd rfl other
    | monitor i => exact taken m i held

/-- A monitor has moved. -/
theorem Owned.of_monitor {s s' : Threads} (h : s.Owned) {i : Nat} {host : String} {pc pc' : MonitorPc}
    (before : s.monitors[i]? = some ⟨host, pc⟩) (after : s'.monitors = (s.monitorAt i host pc').monitors)
    (discovery : s'.discovery = s.discovery)
    (taken : ∀ m u, u ≠ .monitor i → s'.holder m = some u → s.holder m = some u)
    (own : ∀ m, s'.holder m = some (.monitor i) → s'.Holds (.monitor i) m) : s'.Owned := by
  refine h.of_mover (.monitor i) (fun u m other held => ?_) taken own
  cases u with
  | discovery => cases m <;> simpa only [Holds, discovery] using held
  | monitor j =>
    have different : j ≠ i := fun same => other (by rw [same])
    cases m <;> simpa only [Holds, pcAt_monitorAt before after, if_neg different] using held

theorem Owned.moved {s s' : Threads} (h : s.Owned) (moved : Moved s s') : s'.Owned := by
  have hostMap := h.holds .hostMap
  have client := h.holds .client
  cases moved with
  | blocked => exact h
  | known pc known | undialled pc known | calls pc known =>
    refine h.of_discovery (fun _ _ at_ => at_) (fun m i held => by cases m <;> exact held) (fun m held => ?_)
    cases m <;> simp_all [holder, Holds]
  | enterSet pc | enterAdd pc | leaveSet pc =>
    -- the thread takes or leaves a lock, and the monitors hold what they held
    refine h.of_discovery (fun _ _ at_ => at_) (fun m i held => ?_) (fun m held => ?_)
    · cases m <;> simp_all [holder]
    · cases m <;> simp_all [holder, Holds]
  | added pc =>
    refine h.of_discovery (fun i _ at_ => ?_) (fun m i held => ?_) (fun m held => ?_)
    · obtain ⟨monitor, found, rfl⟩ := Option.map_eq_some_iff.mp at_
      rw [pcAt, List.getElem?_append_left (List.getElem?_eq_some_iff.mp found).1, found]
      rfl
    · cases m <;> simp_all [holder]
    · cases m <;> simp_all [holder, Holds]
  | fails pc =>
    have at_ := pcAt_of pc
    refine h.of_monitor pc rfl rfl (fun m u _ held => by cases m <;> exact held) (fun m held => ?_)
    cases m with
    | hostMap => exact absurd (at_.symm.trans (hostMap _ held)) (by decide)
    | client => have := client _ held; simp [Holds, at_] at this
  | lockClient pc free =>
    have at_ := pcAt_of pc
    refine h.of_monitor pc rfl rfl (fun m u other held => ?_) (fun m held => ?_)
    · cases m <;> simp_all [holder, monitorAt]
    · cases m with
      | hostMap => exact absurd (at_.symm.trans (hostMap _ held)) (by decide)
      | client => exact .inl (pcAt_self pc rfl)
  | lockHostMap pc free =>
    refine h.of_monitor pc rfl rfl (fun m u other held => ?_) (fun m held => ?_)
    · cases m <;> simp_all [holder, monitorAt]
    · cases m with
      | hostMap => exact pcAt_self pc rfl
      | client => exact .inr (.inl (pcAt_self pc rfl))
  | removed pc =>
    refine h.of_monitor pc rfl rfl (fun m u other held => ?_) (fun m held => ?_)
    · cases m <;> simp_all [holder, monitorAt]
    · cases m with
      | hostMap => cases held
      | client => exact .inr (.inr (pcAt_self pc rfl))
  | leaves pc =>
    have at_ := pcAt_of pc
    refine h.of_monitor pc rfl rfl (fun m u other held => ?_) (fun m held => ?_)
    · cases m <;> simp_all [holder, monitorAt]
    · cases m with
      | hostMap => exact absurd (at_.symm.trans (hostMap _ held)) (by decide)
      | client => cases held

/-- In a deadlock the discovery thread adds a host, and a monitor removes one. -/
theorem Owned.deadlocked {s : Threads} (h : s.Owned) (deadlocked : s.Deadlocked) :
    (∃ host, s.discovery = .wantsClient host) ∧ ∃ i, s.pcAt i = some .wantsHostMap := by
  obtain ⟨t, u, -, holdsHostMap, waitsClient, holdsClient, waitsHostMap⟩ := deadlocked
  have hostMap := h.holds _ _ holdsHostMap
  have client := h.holds _ _ holdsClient
  constructor
  · cases t with
    | discovery =>
      cases pc : s.discovery with
      | wantsClient host => exact ⟨host, rfl⟩
      | ready => exact absurd pc hostMap
      | _ => simp [waitsFor, pc] at waitsClient
    | monitor i =>
      simp only [Holds] at hostMap
      simp [waitsFor, hostMap] at waitsClient
  · cases u with
    | discovery =>
      obtain ⟨host, pc⟩ := client
      simp [waitsFor, pc] at waitsHostMap
    | monitor i =>
      refine ⟨i, client.resolve_right ?_⟩
      rintro (pc | pc) <;> simp [waitsFor, pc] at waitsHostMap

/-! ## One host -/

/-- There is one host: while it is watched it is in the host map, so that it is not added a
second time. -/
structure OneHost (x : String) (s : Threads) : Prop where
  rest : ∀ host ∈ s.rest, host = x
  current : ∀ host, s.discovery = .inSet host → host = x
  known : ∀ i pc, s.pcAt i = some pc → pc.pending → x ∈ s.hosts
  single : ∀ i j pc pc', s.pcAt i = some pc → s.pcAt j = some pc' → pc.pending → pc'.pending → i = j
  adding : ∀ host, s.discovery = .wantsClient host ∨ s.discovery = .inAdd host →
    x ∈ s.hosts ∧ ∀ i pc, s.pcAt i = some pc → pc.pending = false

theorem OneHost.start {x : String} {known list : List String} (nodup : known.Nodup)
    (one : ∀ host ∈ known ++ list, host = x) : OneHost x (start known list) := by
  have watched (i : Nat) (pc : MonitorPc) (at_ : (Threads.start known list).pcAt i = some pc) :
      known[i]? = some x := by
    simp only [pcAt, Threads.start, List.getElem?_map, Option.map_map, Option.map_eq_some_iff] at at_
    obtain ⟨host, found, -⟩ := at_
    rw [found, one host (List.mem_append_left _ (List.mem_of_getElem? found))]
  refine ⟨fun host member => one host (List.mem_append_right _ member), fun _ pc => (by cases pc), ?_, ?_, ?_⟩
  · intro i pc at_ _
    exact List.mem_toFinset.mpr (List.mem_of_getElem? (watched i pc at_))
  · intro i j pc pc' at_ at_' _ _
    have first := watched i pc at_
    have second := watched j pc' at_'
    have within := (List.getElem?_eq_some_iff.mp first).1
    exact (List.getElem?_inj within nodup).mp (first.trans second.symm)
  · rintro host (pc | pc) <;> cases pc

/-- A move of a monitor that makes none pending. -/
theorem OneHost.of_monitor {x : String} {s s' : Threads} (h : OneHost x s) {i : Nat} {host : String}
    {pc pc' : MonitorPc} (before : s.monitors[i]? = some ⟨host, pc⟩)
    (after : s'.monitors = (s.monitorAt i host pc').monitors) (rest : s'.rest = s.rest)
    (discovery : s'.discovery = s.discovery) (pending : pc'.pending → pc.pending)
    (hosts : s'.hosts = s.hosts ∨ pc.pending ∧ pc'.pending = false) : OneHost x s' := by
  -- a monitor that is pending now was pending before
  have earlier (j : Nat) (q : MonitorPc) (at_ : s'.pcAt j = some q) (waits : q.pending) :
      ∃ q', s.pcAt j = some q' ∧ q'.pending ∧ (j = i → q = pc') := by
    rw [pcAt_monitorAt before after] at at_
    split at at_
    · rename_i same
      cases at_
      subst same
      exact ⟨pc, pcAt_of before, pending waits, fun _ => rfl⟩
    · rename_i different
      exact ⟨q, at_, waits, fun same => absurd same different⟩
  refine ⟨?_, ?_, ?_, ?_, ?_⟩
  · rw [rest]
    exact h.rest
  · rw [discovery]
    exact h.current
  · intro j q at_ waits
    obtain ⟨q', at_', waits', same⟩ := earlier j q at_ waits
    rcases hosts with unchanged | ⟨was, done⟩
    · rw [unchanged]
      exact h.known j q' at_' waits'
    · -- only this monitor was pending, and it is not any more
      have only := h.single j i q' pc at_' (pcAt_of before) waits' was
      rw [same only, done] at waits
      cases waits
  · intro j k q r at_ at_' waits waits'
    obtain ⟨q', was, wasPending, -⟩ := earlier j q at_ waits
    obtain ⟨r', was', wasPending', -⟩ := earlier k r at_' waits'
    exact h.single j k q' r' was was' wasPending wasPending'
  · intro host' adds
    rw [discovery] at adds
    obtain ⟨known, none⟩ := h.adding host' adds
    constructor
    · rcases hosts with unchanged | ⟨was, -⟩
      · rwa [unchanged]
      · rw [none i pc (pcAt_of before)] at was
        cases was
    · intro j q at_
      by_contra waits
      obtain ⟨q', was, wasPending, -⟩ := earlier j q at_ (by simpa using waits)
      rw [none j q' was] at wasPending
      cases wasPending

theorem OneHost.moved {x : String} {s s' : Threads} (h : OneHost x s) (moved : Moved s s') : OneHost x s' := by
  cases moved with
  | blocked => exact h
  | @enterSet host rest pc list free =>
    have members : ∀ other ∈ host :: rest, other = x := list ▸ h.rest
    refine ⟨fun other member => members other (List.mem_cons_of_mem _ member), ?_, h.known, h.single, ?_⟩
    · rintro other ⟨⟩
      exact members _ List.mem_cons_self
    · rintro other (next | next) <;> cases next
  | known pc known =>
    refine ⟨h.rest, fun _ next => (by cases next), h.known, h.single, ?_⟩
    rintro other (next | next) <;> cases next
  | undialled pc new =>
    refine ⟨h.rest, fun _ next => (by cases next), ?_, h.single, ?_⟩
    · intro i q at_ waits
      exact Finset.mem_insert_of_mem (h.known i q at_ waits)
    · rintro other (next | next) <;> cases next
  | calls pc new =>
    have isX := h.current _ pc
    subst isX
    -- the host is not in the host map, so nobody watches it
    have none (i : Nat) (q : MonitorPc) (at_ : s.pcAt i = some q) : q.pending = false := by
      by_contra waits
      exact new (h.known i q at_ (by simpa using waits))
    refine ⟨h.rest, fun _ next => (by cases next), ?_, h.single, fun _ _ => ⟨Finset.mem_insert_self _ _, none⟩⟩
    intro i q at_ waits
    exact Finset.mem_insert_of_mem (h.known i q at_ waits)
  | enterAdd pc free =>
    exact ⟨h.rest, fun _ next => (by cases next), h.known, h.single, fun _ _ => h.adding _ (.inl pc)⟩
  | @added host pc =>
    obtain ⟨known, none⟩ := h.adding _ (.inr pc)
    -- the new monitor is the only one that is pending
    have last (i : Nat) (q : MonitorPc)
        (at_ : ((s.monitors ++ [⟨host, .watching⟩])[i]?).map Monitor.pc = some q) (waits : q.pending) :
        i = s.monitors.length := by
      obtain ⟨monitor, found, rfl⟩ := Option.map_eq_some_iff.mp at_
      rcases Nat.lt_trichotomy i s.monitors.length with old | new | beyond
      · rw [List.getElem?_append_left old] at found
        rw [none i monitor.pc (by rw [pcAt, found, Option.map_some])] at waits
        cases waits
      · exact new
      · rw [List.getElem?_eq_none (by simp; omega)] at found
        cases found
    refine ⟨h.rest, fun _ next => (by cases next), fun _ _ _ _ => known, ?_, ?_⟩
    · intro i j q r at_ at_' waits waits'
      rw [last i q at_ waits, last j r at_' waits']
    · rintro other (next | next) <;> cases next
  | leaveSet pc =>
    refine ⟨h.rest, fun _ next => (by cases next), h.known, h.single, ?_⟩
    rintro other (next | next) <;> cases next
  | fails pc => exact h.of_monitor pc rfl rfl rfl (fun _ => rfl) (.inl rfl)
  | lockClient pc free => exact h.of_monitor pc rfl rfl rfl (fun _ => rfl) (.inl rfl)
  | lockHostMap pc free => exact h.of_monitor pc rfl rfl rfl (fun _ => rfl) (.inl rfl)
  | removed pc => exact h.of_monitor pc rfl rfl rfl (fun _ => rfl) (.inr ⟨rfl, rfl⟩)
  | leaves pc => exact h.of_monitor pc rfl rfl rfl (fun waits => by cases waits) (.inl rfl)

/-! ## Two hosts -/

theorem Reach.move {s t u : Threads} (a : ThreadMove) (moves : s.step a = t) (run : Reach t u) : Reach s u := by
  subst moves
  exact ((Trace.refl s).tail a trivial).trans run

section

variable {clientMu : Option Thread} {hosts : Finset String} {host : String} {rest : List String}
  {monitors : List Monitor}

/-- `Set` of a host that is known. -/
theorem Reach.setKnown (known : host ∈ hosts) :
    Reach ⟨none, clientMu, hosts, .ready, host :: rest, monitors⟩ ⟨none, clientMu, hosts, .ready, rest, monitors⟩ := by
  have looks : step (.discovery false) ⟨some .discovery, clientMu, hosts, .inSet host, rest, monitors⟩ =
      ⟨some .discovery, clientMu, hosts, .leaving, rest, monitors⟩ := by
    simp only [step, moveDiscovery, if_pos known]
  exact .move (.discovery false) rfl (.move (.discovery false) looks (.move (.discovery false) rfl (.refl _)))

/-- `Set` of a new host, which is then watched. -/
theorem Reach.setNew (new : host ∉ hosts) :
    Reach ⟨none, none, hosts, .ready, host :: rest, monitors⟩
      ⟨none, none, insert host hosts, .ready, rest, monitors ++ [⟨host, .watching⟩]⟩ := by
  have looks : step (.discovery false) ⟨some .discovery, none, hosts, .inSet host, rest, monitors⟩ =
      ⟨some .discovery, none, insert host hosts, .wantsClient host, rest, monitors⟩ := by
    simp [step, moveDiscovery, new]
  exact .move (.discovery false) rfl (.move (.discovery false) looks (.move (.discovery false) rfl
    (.move (.discovery false) rfl (.move (.discovery false) rfl (.refl _)))))

variable {discovery : DiscoveryPc} {i : Nat} {watched : String}

/-- The host of a monitor fails and is removed. -/
theorem Reach.remove (watches : monitors[i]? = some ⟨watched, .watching⟩) :
    Reach ⟨none, none, hosts, discovery, rest, monitors⟩
      ⟨none, none, hosts.erase watched, discovery, rest, monitors.set i ⟨watched, .gone⟩⟩ := by
  have within := (List.getElem?_eq_some_iff.mp watches).1
  refine .move (.monitor i) (t := ⟨none, none, hosts, discovery, rest, monitors.set i ⟨watched, .wantsClient⟩⟩) ?_
    (.move (.monitor i)
      (t := ⟨none, some (.monitor i), hosts, discovery, rest, monitors.set i ⟨watched, .wantsHostMap⟩⟩) ?_
    (.move (.monitor i)
      (t := ⟨some (.monitor i), some (.monitor i), hosts, discovery, rest, monitors.set i ⟨watched, .inRemove⟩⟩) ?_
    (.move (.monitor i)
      (t := ⟨none, some (.monitor i), hosts.erase watched, discovery, rest, monitors.set i ⟨watched, .leaving⟩⟩) ?_
    (.move (.monitor i) ?_ (.refl _)))))
  · simp [step, moveMonitor, watches, monitorAt]
  all_goals simp [step, moveMonitor, within, monitorAt]

/-- A new host is added while the host of a monitor fails. -/
theorem Reach.deadlock (new : host ∉ hosts) (watches : monitors[i]? = some ⟨watched, .watching⟩) :
    ∃ s, Reach ⟨none, none, hosts, .ready, host :: rest, monitors⟩ s ∧ s.Deadlocked := by
  have within := (List.getElem?_eq_some_iff.mp watches).1
  refine ⟨⟨some .discovery, some (.monitor i), insert host hosts, .wantsClient host, rest,
    monitors.set i ⟨watched, .wantsHostMap⟩⟩, ?_, .discovery, .monitor i, by simp, rfl, rfl, rfl, ?_⟩
  · refine .move (.discovery false) rfl (.move (.discovery false)
      (t := ⟨some .discovery, none, insert host hosts, .wantsClient host, rest, monitors⟩) ?_
      (.move (.monitor i) (t := ⟨some .discovery, none, insert host hosts, .wantsClient host, rest,
        monitors.set i ⟨watched, .wantsClient⟩⟩) ?_ (.move (.monitor i) ?_ (.refl _))))
    · simp [step, moveDiscovery, new]
    · simp [step, moveMonitor, watches, monitorAt]
    · simp [step, moveMonitor, within, monitorAt]
  · simp [waitsFor, pcAt, within]

/-- While one host is watched, another one in the list leads to a deadlock. -/
theorem Reach.deadlock_of_other {x : String} (other : ∃ y ∈ rest, y ≠ x)
    (watches : monitors[i]? = some ⟨watched, .watching⟩) :
    ∃ s, Reach ⟨none, none, {x}, .ready, rest, monitors⟩ s ∧ s.Deadlocked := by
  induction rest with
  | nil =>
    obtain ⟨y, member, -⟩ := other
    cases member
  | cons host rest ih =>
    by_cases same : host = x
    · subst same
      obtain ⟨y, member, different⟩ := other
      have later : y ∈ rest := (List.mem_cons.mp member).resolve_left different
      obtain ⟨s, run, deadlocked⟩ := ih ⟨y, later, different⟩
      exact ⟨s, (Reach.setKnown (Finset.mem_singleton_self _)).trans run, deadlocked⟩
    · exact Reach.deadlock (by simpa using same) watches

end

/-- With two hosts or more, a deadlock can be reached. -/
theorem deadlock_reachable {known list : List String} (some : list ≠ [])
    (two : ∃ x ∈ known ++ list, ∃ y ∈ known ++ list, x ≠ y) : ∃ s, Reach (start known list) s ∧ s.Deadlocked := by
  obtain ⟨x, rest, rfl⟩ := List.exists_cons_of_ne_nil some
  have watched {y : String} (member : y ∈ known) :
      ∃ i : Nat, known[i]? = Option.some y ∧
        (start known (x :: rest)).monitors[i]? = Option.some (⟨y, .watching⟩ : Monitor) := by
    obtain ⟨i, found⟩ := List.getElem?_of_mem member
    exact ⟨i, found, by rw [start, List.getElem?_map, found, Option.map_some]⟩
  by_cases another : ∃ y ∈ known, y ≠ x
  · obtain ⟨y, member, different⟩ := another
    obtain ⟨i, foundY, watchesY⟩ := watched member
    by_cases isKnown : x ∈ known
    · -- the first host is removed, so that it is new when it is set
      obtain ⟨j, foundX, watchesX⟩ := watched isKnown
      have apart : j ≠ i := by
        rintro rfl
        exact different (Option.some.inj (foundY.symm.trans foundX))
      have stillWatches : ((start known (x :: rest)).monitors.set j ⟨x, .gone⟩)[i]? =
          Option.some (⟨y, .watching⟩ : Monitor) := by
        rw [List.getElem?_set_ne apart, watchesY]
      obtain ⟨s, run, deadlocked⟩ := Reach.deadlock (Finset.notMem_erase x known.toFinset) stillWatches
      exact ⟨s, (Reach.remove watchesX).trans run, deadlocked⟩
    · exact Reach.deadlock (by simpa using isKnown) watchesY
  · -- the known hosts are the first one, so another one comes later
    have all (y : String) (member : y ∈ known) : y = x := by
      by_contra different
      exact another ⟨y, member, different⟩
    have other : ∃ y ∈ rest, y ≠ x := by
      obtain ⟨a, memberA, b, memberB, different⟩ := two
      have inRest {c : String} (member : c ∈ known ++ x :: rest) (notX : c ≠ x) : c ∈ rest := by
        rcases List.mem_append.mp member with old | new
        · exact absurd (all c old) notX
        · exact (List.mem_cons.mp new).resolve_left notX
      by_cases isX : a = x
      · have apart := fun same => different (isX.trans (Eq.symm same))
        exact ⟨b, inRest memberB apart, apart⟩
      · exact ⟨a, inRest memberA isX, isX⟩
    by_cases isKnown : x ∈ known
    · obtain ⟨i, -, watches⟩ := watched isKnown
      have single : known.toFinset = {x} := by
        ext y
        simp only [List.mem_toFinset, Finset.mem_singleton]
        exact ⟨all y, fun same => same ▸ isKnown⟩
      obtain ⟨s, run, deadlocked⟩ := Reach.deadlock_of_other other watches
      refine ⟨s, ?_, deadlocked⟩
      rw [start, single]
      exact (Reach.setKnown (Finset.mem_singleton_self x)).trans run
    · have empty : known = [] := List.eq_nil_iff_forall_not_mem.mpr fun y member => isKnown (all y member ▸ member)
      subst empty
      obtain ⟨s, run, deadlocked⟩ := @Reach.deadlock_of_other rest [⟨x, .watching⟩] 0 x x other rfl
      exact ⟨s, (Reach.setNew (Finset.notMem_empty x)).trans run, deadlocked⟩

/-- Without hosts to set, the discovery thread does nothing. -/
theorem idle_run {known : List String} {s : Threads} (run : Reach (start known []) s) : s.discovery = .ready := by
  refine (run.invariant (I := fun s => s.discovery = .ready ∧ s.rest = []) ?_ ⟨rfl, rfl⟩).1
  rintro t a ⟨ready, nothing⟩ -
  have moved := step_moved a t
  generalize t.step a = t' at moved
  cases moved <;> simp_all [monitorAt]

/-- **Deadlock.** Discovery and monitoring never come to a deadlock exactly when there is no
host to discover, or there is but one host. -/
theorem no_deadlock_iff (known list : List String) (nodup : known.Nodup) :
    (∀ s, Reach (start known list) s → ¬ s.Deadlocked) ↔
      list = [] ∨ ∀ x ∈ known ++ list, ∀ y ∈ known ++ list, x = y := by
  have owned (s : Threads) (run : Reach (start known list) s) : s.Owned :=
    run.invariant (I := Owned) (fun _ _ h _ => h.moved (step_moved _ _)) (Owned.start known list)
  constructor
  · intro never
    by_contra bad
    obtain ⟨some, two⟩ := not_or.mp bad
    simp only [not_forall] at two
    obtain ⟨x, inX, y, inY, different⟩ := two
    obtain ⟨s, run, deadlocked⟩ := deadlock_reachable some ⟨x, inX, y, inY, different⟩
    exact never s run deadlocked
  · intro few s run deadlocked
    obtain ⟨⟨host, adds⟩, i, waits⟩ := (owned s run).deadlocked deadlocked
    cases list with
    | nil =>
      rw [idle_run run] at adds
      cases adds
    | cons x rest =>
      have same := few.resolve_left (by simp)
      have one : OneHost x s := by
        refine run.invariant (I := OneHost x) (fun _ _ h _ => h.moved (step_moved _ _)) (OneHost.start nodup ?_)
        exact fun y member => same y member x (by simp)
      have notPending := (one.adding host (.inl adds)).2 i _ waits
      cases notPending

theorem no_deadlock_one_host : ¬ ∃ s, Reach (start ["a"] ["a"]) s ∧ s.Deadlocked := by
  rintro ⟨s, run, deadlocked⟩
  exact (no_deadlock_iff ["a"] ["a"] (by decide)).mpr (.inr (by decide)) s run deadlocked

/-- Host `b` is being added when host `a` fails. -/
def addAndFail : List ThreadMove := [.discovery false, .discovery false, .monitor 0, .monitor 0]

theorem add_and_fail_deadlocks :
    ∃ s, Reach (start ["a"] ["b"]) s ∧ s = after step addAndFail (start ["a"] ["b"]) ∧ s.Deadlocked :=
  ⟨_, Trace.of_list addAndFail _ fun _ => trivial, rfl, .discovery, .monitor 0, by decide, rfl, rfl, rfl, rfl⟩

end Threads

end Blobcache.Client
