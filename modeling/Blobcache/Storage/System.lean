import Blobcache.Lib.Interleaving
import Blobcache.Storage.Read
import Blobcache.Storage.Store

/-!
# Interleaved calls of `Add` and `Get`

Any number of calls over one storage, step by step, with the memory cache's policy and
the usage monitor acting in between. The calls of a run store `content hash` under
`hash`, as the server does when no two contents have the same digest.

The storage is observed at two granularities. At chunk granularity (`ChunkSteps`) a file
write is seen only once it has succeeded or failed; at system-call granularity
(`CallSteps`) it is also seen after its truncation and between its pieces.

`System.invariant` is the rule for properties of both tiers and of every call: what a step of
`Add` keeps is to be shown, and of `Get` only what follows from what a step sees.
-/

namespace Blobcache.Storage
set_option autoImplicit false
open Execution Interleaving

/-- A call, with its result once it has returned. -/
inductive Thread where
  | add (frame : AddFrame) (result : Option (Except AddError Unit))
  | get (call : GetCall) (frame : GetFrame) (result : Option GetResult)
  deriving DecidableEq

def Thread.startAdd (hash : String) (content : Bytes) : Thread := .add (AddFrame.start hash content) none

def Thread.startGet (call : GetCall) : Thread :=
  .get call (GetFrame.start call.hash call.offset call.length call.dst) none

def Thread.ofAdd (f : AddFrame) : AddFrame ⊕ (Except AddError Unit) → Thread
  | .inl f' => .add f' none
  | .inr r => .add f (some r)

def Thread.ofGet (call : GetCall) (out : GetFrame ⊕ (GetFrame × GetResult)) : Thread :=
  .get call (frameOf out) (resultOf out)

/-- One step of a call; a call that has returned stays as it is. `Get` only leaves the
answer to an offer open. -/
def move (cfg : Config) (c : AddChoice) (s : Cas) : Thread → Cas × Thread
  | .add f none => ((addStep cfg c s f).1, .ofAdd f (addStep cfg c s f).2)
  | .get call f none => ((getStep cfg c.setRefused s f).1, .ofGet call (getStep cfg c.setRefused s f).2)
  | thread => (s, thread)

abbrev System := Pool Cas Thread

abbrev Act := Action Thread EnvStep AddChoice

def System.start : System := ⟨Cas.fresh, []⟩

def System.step (cfg : Config) : Act → System → System := Pool.step (fun e s => s.env e) (move cfg)

/-- New calls are calls at their start, and store what their hash stands for. -/
inductive Starts (content : String → Bytes) : Thread → Prop where
  | add {hash : String} (plain : PlainHash hash) : Starts content (.startAdd hash (content hash))
  | get (call : GetCall) : Starts content (.startGet call)

/-- The actions of a run in which no file write is seen half done. -/
def ChunkSteps (content : String → Bytes) (_ : System) : Act → Prop
  | .spawn thread => Starts content thread
  | .move _ c => ∃ result, c.write = .finish result
  | .env _ => True

/-- The actions of a run in which file writes are seen at every system call. -/
def CallSteps (content : String → Bytes) (_ : System) : Act → Prop
  | .spawn thread => Starts content thread
  | .move _ _ => True
  | .env _ => True

/-- A list of actions is a run when what it starts are such calls. -/
theorem callSteps_run {cfg : Config} {content : String → Bytes} (acts : List Act) (sys : System)
    (starts : ∀ thread, .spawn thread ∈ acts → Starts content thread) :
    Trace (System.step cfg) (CallSteps content) sys (after (System.step cfg) acts sys) := by
  refine Trace.of_list acts sys fun k => ?_
  have member := List.get_mem acts k
  cases here : acts.get k with
  | spawn thread =>
    rw [here] at member
    exact starts thread member
  | move t c => trivial
  | env e => trivial

/-- A call of `Get` stays that call. -/
theorem System.get_stays {cfg : Config} {sys : System} {t : Nat} {call : GetCall} {f : GetFrame}
    {result : Option GetResult} (here : sys.threads[t]? = some (.get call f result)) (a : Act) :
    ∃ f' result', (System.step cfg a sys).threads[t]? = some (.get call f' result') := by
  have kept : ∀ (c : AddChoice) (s : Cas) (thread : Thread), (∃ f result, thread = .get call f result) →
      ∃ f result, (move cfg c s thread).2 = .get call f result := by
    rintro c s _ ⟨f, result, rfl⟩
    cases result with
    | none => exact ⟨_, _, rfl⟩
    | some r => exact ⟨f, some r, rfl⟩
  have moved : ∃ thread, (System.step cfg a sys).threads[t]? = some thread ∧ ∃ f result, thread = .get call f result :=
    Pool.thread_step kept here ⟨f, result, rfl⟩ a
  obtain ⟨_, still, f', result', rfl⟩ := moved
  exact ⟨f', result', still⟩

/-- **The rule of runs**, for a property of the chunks in either tier and one of every call. -/
theorem System.invariant {cfg : Config} {ok : System → Act → Prop} {inMemory onDisk : ChunkPred} {L : Thread → Prop}
    (starts : ∀ p thread, ok p (.spawn thread) → L thread)
    (adds : ∀ p t c f, ok p (.move t c) → Tiers inMemory onDisk p.shared → L (.add f none) →
      Tiers inMemory onDisk (addStep cfg c p.shared f).1 ∧ L (.ofAdd f (addStep cfg c p.shared f).2))
    (loads : ∀ p t c call f, ok p (.move t c) → p.threads[t]? = some (.get call f none) →
      Loadable cfg inMemory onDisk p.shared f)
    (reads : ∀ call f out, L (.get call f none) → GetSeen cfg inMemory Unknown f out → L (.ofGet call out))
    {first last : System} (run : Trace (System.step cfg) ok first last) (tiers : Tiers inMemory onDisk first.shared)
    (none : first.threads = []) : Tiers inMemory onDisk last.shared ∧ ∀ thread ∈ last.threads, L thread := by
  refine Pool.invariant (fun _ e _ tiers => tiers.env e) starts ?_ run tiers
    (fun thread member => by rw [none] at member; cases member)
  intro p t c thread admitted found tiers sound
  cases thread with
  | add f result =>
    cases result with
    | none => exact adds p t c f admitted tiers sound
    | some r => exact ⟨tiers, sound⟩
  | get call f result =>
    cases result with
    | none =>
      have loadable := loads p t c call f admitted found
      exact ⟨getStep_tiers tiers loadable _, reads call f _ sound (getStep_seen tiers loadable _)⟩
    | some r => exact ⟨tiers, sound⟩

end Blobcache.Storage
