import Blobcache.Storage.Truncation

/-!
# Evictions

When the memory cache evicts an item of an object, `onEvict` is to evict all the other chunks of the
object as well, and nothing else. It finds them in the list of chunk keys, which is the evicted item
itself or stands under the hash of the object; the list is a string, the keys joined by commas.

The list is an entry like any other, and the only one with a time to live. While it is expired or evicted,
chunks are put in memory one by one, by reads that load them from disk and by an `Add` under way. A list
can also be shorter than what is in memory, if the object was stored again with less content; and the
list of an empty object is the empty string, which `strings.Split` takes for a list of one empty key.

Here the calls of a run store any contents; a hash does not determine what is stored under it.
-/

namespace Blobcache.Storage
set_option autoImplicit false
open AdmissionCache Execution Interleaving

/-- The actions of a run: calls of `Add` for hashes without the separators, and of `Get`, step by step, and
whatever the memory cache and the usage monitor do. -/
inductive AnySteps (p : System) : Act → Prop where
  | add {hash : String} (plain : NoSeparators hash) (content : Bytes) : AnySteps p (.spawn (.startAdd hash content))
  | get (call : GetCall) : AnySteps p (.spawn (.startGet call))
  | move (t : Nat) (c : AddChoice) : AnySteps p (.move t c)
  | env (e : EnvStep) : AnySteps p (.env e)

/-! ## Lists of chunk keys -/

/-- The keys of the first `n` chunks of an object. -/
def chunkKeys (hash : String) (n : Nat) : List String := (List.range n).map fun i : Nat => chunkKey hash i

theorem mem_chunkKeys_iff {hash : String} {n : Nat} {key : String} :
    key ∈ chunkKeys hash n ↔ ∃ i : Nat, i < n ∧ key = chunkKey hash i := by
  simp only [chunkKeys, List.mem_map, List.mem_range, eq_comm]

theorem chunkKeys_succ (hash : String) (n : Nat) : chunkKeys hash (n + 1) = chunkKeys hash n ++ [chunkKey hash n] := by
  simp only [chunkKeys, List.range_succ, List.map_append, List.map_cons, List.map_nil]

theorem chunkKey_no_comma {hash : String} (plain : NoSeparators hash) (i : Nat) : ',' ∉ (chunkKey hash i).toList := by
  have dash : "-".toList = ['-'] := rfl
  simp only [chunkKey, String.toList_append, dash, List.mem_append, List.mem_singleton, not_or]
  refine ⟨⟨plain.2, by decide⟩, fun comma => ?_⟩
  exact absurd (natRepr_isDigit (i := i) comma) (by decide)

theorem chunkKey_ne_empty (hash : String) (j : Int) : chunkKey hash j ≠ "" := by
  intro empty
  apply chunkKey_not_plain hash j
  rw [empty]
  decide

/-- What the list of an object is split into. -/
theorem splitKeys_joinKeys {hash : String} (plain : NoSeparators hash) (n : Nat) :
    splitKeys (joinKeys (chunkKeys hash n)) = if n = 0 then [""] else chunkKeys hash n := by
  by_cases empty : n = 0
  · rw [if_pos empty, empty]
    show splitKeys (joinKeys []) = [""]
    decide
  · rw [if_neg empty, splitKeys, joinKeys, String.toList_ofList, List.splitOn_intercalate]
    · simp only [List.map_map]
      exact (List.map_congr_left fun key _ => String.ofList_toList).trans (List.map_id _)
    · intro chars member
      obtain ⟨key, listed, rfl⟩ := List.mem_map.mp member
      obtain ⟨i, -, rfl⟩ := mem_chunkKeys_iff.mp listed
      exact chunkKey_no_comma plain i
    · simpa [chunkKeys] using empty

/-! ## What is in memory -/

/-- A list names the first chunks of its object. -/
def ListOk (key : String) : Value → Prop
  | .index chunks => ∃ n, chunks = joinKeys (chunkKeys key n)
  | .chunk _ _ => True

/-- What holds of the storage in every run. -/
structure Listed (s : Cas) : Prop where
  tiers : Tiers AnyBytes AnyBytes s
  lists : s.cache.All ListOk

/-- A store has noted the keys of the chunks before the one in hand. -/
structure Listing (cfg : Config) (f : AddFrame) : Prop where
  storing : Storing cfg (fun _ => f.content) f
  keys : f.chunkKeys = chunkKeys f.hash (f.chunkIdx cfg)

def Thread.Listing (cfg : Config) : Thread → Prop
  | .add f none => Storage.Listing cfg f
  | _ => True

variable {cfg : Config}

theorem Listing.step {c : AddChoice} {s : Cas} {f f' : AddFrame} (h : Listing cfg f)
    (next : (addStep cfg c s f).2 = .inl f') : Listing cfg f' := by
  have storing := h.storing.step next
  have taken := addStep_taken cfg c s f
  rw [next] at taken
  generalize (addStep cfg c s f).1 = s' at taken
  cases taken with
  | noDir | toDir | dir | skipWrite | toWrite | written | writePart => exact ⟨storing, h.keys⟩
  | known | offered =>
    refine ⟨storing, ?_⟩
    have index : (f.offset + cfg.pageSizeBytes) / cfg.pageSizeBytes = f.chunkIdx cfg + 1 :=
      Nat.add_div_right _ cfg.positive
    show f.chunkKeys ++ [f.chunkKey cfg] = chunkKeys f.hash ((f.offset + cfg.pageSizeBytes) / cfg.pageSizeBytes)
    rw [index, chunkKeys_succ, h.keys]
    rfl

theorem Listed.add {c : AddChoice} {s : Cas} {f : AddFrame} (h : Listed s) (listing : Listing cfg f) :
    Listed (addStep cfg c s f).1 := by
  refine ⟨addStep_tiers h.tiers listing.storing.plain (fun _ => trivial) (fun _ _ _ => trivial), ?_⟩
  have lists := h.lists
  have taken := addStep_taken cfg c s f
  generalize (addStep cfg c s f).1 = s', (addStep cfg c s f).2 = out at taken
  cases taken with
  | offered => exact lists.put _ _ trivial
  | indexed => exact lists.put _ _ ⟨_, by rw [listing.keys]⟩
  | _ => exact lists

theorem Listed.get {setRefused : Bool} {s : Cas} {f : GetFrame} (h : Listed s) :
    Listed (getStep cfg setRefused s f).1 := by
  refine ⟨getStep_tiers h.tiers (.same cfg AnyBytes s f) setRefused, ?_⟩
  have lists := h.lists
  have taken := getStep_taken cfg setRefused s f
  generalize (getStep cfg setRefused s f).1 = s', (getStep cfg setRefused s f).2 = out at taken
  cases taken with
  | loaded => exact lists.put _ _ trivial
  | _ => exact lists

/-- The run lemma. -/
theorem listed_run {p : System} (run : Trace (System.step cfg) AnySteps System.start p) : Listed p.shared := by
  have fresh : Listed System.start.shared := ⟨Tiers.fresh, Cache.All.empty⟩
  refine (Pool.invariant (L := Thread.Listing cfg) ?_ ?_ ?_ run fresh (fun _ none => by cases none)).1
  · exact fun q e _ h => ⟨h.tiers.env e, h.lists.sub (q.shared.env_cache_sub e)⟩
  · intro q thread starts
    cases starts with
    | @add hash plain content =>
      have storing : Storing cfg (fun _ => content) (AddFrame.start hash content) := Storing.start plain
      refine ⟨storing, ?_⟩
      show [] = chunkKeys hash (0 / cfg.pageSizeBytes)
      rw [Nat.zero_div]
      rfl
    | get call => trivial
  · intro q t c thread _ _ h listing
    cases thread with
    | add f result =>
      cases result with
      | some r => exact ⟨h, trivial⟩
      | none =>
        refine ⟨Listed.add h listing, ?_⟩
        show Thread.Listing cfg (.ofAdd f (addStep cfg c q.shared f).2)
        cases next : (addStep cfg c q.shared f).2 with
        | inl f' => exact Listing.step listing next
        | inr r => trivial
    | get call f result =>
      cases result with
      | some r => exact ⟨h, trivial⟩
      | none => exact ⟨h.get, trivial⟩

/-! ## What an eviction leaves -/

/-- The list that `onEvict` goes by when the key, of the object `hash`, is evicted: the item itself, or what is
visible under the hash. -/
def Cas.listFor (s : Cas) (hash key : String) : Option Value :=
  if key = hash then s.cache.victim hash else s.cache.get hash

/-- The keys in a list. -/
def listedKeys : Option Value → List String
  | some (.index chunks) => splitKeys chunks
  | _ => []

/-- The key is one of the object's: its own, or that of a chunk. -/
def OfObject (hash key : String) : Prop := key = hash ∨ ∃ j : Int, key = chunkKey hash j

theorem chunkKey_ne_hash {hash : String} (plain : NoSeparators hash) (j : Int) : chunkKey hash j ≠ hash :=
  fun same => chunkKey_not_plain hash j (by rw [same]; exact plain)

/-- Under an object's own key there is only a list of its first chunks. -/
theorem Listed.list {s : Cas} (h : Listed s) {hash : String} (plain : NoSeparators hash) {e : Entry Value}
    (held : s.cache.entries hash = some e) : ∃ n, e.value = .index (joinKeys (chunkKeys hash n)) := by
  have ok := h.tiers.memory hash e held
  have list := h.lists hash e held
  cases value : e.value with
  | index chunks =>
    rw [value] at list
    obtain ⟨n, rfl⟩ := list
    exact ⟨n, rfl⟩
  | chunk hash' content =>
    rw [value] at ok
    obtain ⟨-, i, key, -⟩ := ok
    rw [key] at plain
    exact absurd plain (chunkKey_not_plain hash' i)

theorem Listed.listFor {s : Cas} (h : Listed s) {hash : String} (plain : NoSeparators hash) (key : String) :
    s.listFor hash key = none ∨ ∃ n, s.listFor hash key = some (.index (joinKeys (chunkKeys hash n))) := by
  have known {v : Value} (found : s.listFor hash key = some v) : ∃ e, s.cache.entries hash = some e ∧ e.value = v := by
    unfold Cas.listFor at found
    split at found
    · exact Cache.victim_eq_some found
    · obtain ⟨x, held⟩ := Cache.get_eq_some found
      exact ⟨_, held, rfl⟩
  cases found : s.listFor hash key with
  | none => exact .inl rfl
  | some v =>
    obtain ⟨e, held, rfl⟩ := known found
    obtain ⟨n, list⟩ := h.list plain held
    exact .inr ⟨n, by rw [list]⟩

/-- The memory after an eviction. -/
theorem Listed.evict_cache {s : Cas} (h : Listed s) {hash key : String} (plain : NoSeparators hash)
    (ofObject : OfObject hash key) {item : Value} (stored : s.cache.victim key = some item) :
    (s.env (.evict key)).cache = (s.cache.erase key).eraseAll (listedKeys (s.listFor hash key)) := by
  obtain ⟨e, held, rfl⟩ := Cache.victim_eq_some stored
  simp only [Cas.env, stored]
  rcases ofObject with rfl | ⟨j, rfl⟩
  · obtain ⟨n, list⟩ := h.list plain held
    simp only [Cas.onEvict, Cas.listFor, stored, list, listedKeys, if_true]
  · have chunk : ∃ content, e.value = .chunk hash content := by
      have ok := h.tiers.memory _ e held
      cases value : e.value with
      | chunk hash' content =>
        rw [value] at ok
        obtain ⟨plain', i, key, -⟩ := ok
        obtain ⟨rfl, -⟩ := chunkKey_inj plain' key.symm
        exact ⟨content, rfl⟩
      | index chunks =>
        rw [value] at ok
        exact absurd ok (chunkKey_not_plain hash j)
    obtain ⟨content, chunk⟩ := chunk
    have apart := chunkKey_ne_hash plain j
    have visible : (s.cache.erase (chunkKey hash j)).get hash = s.cache.get hash := by
      simp only [Cache.get, Cache.entries_erase, if_neg (Ne.symm apart)]
    simp only [chunk, Cas.onEvict, Cas.listFor, if_neg apart, visible]
    rcases h.listFor plain (chunkKey hash j) with none | ⟨n, found⟩
    · simp only [Cas.listFor, if_neg apart] at none
      simp only [none, listedKeys]
      rfl
    · simp only [Cas.listFor, if_neg apart] at found
      simp only [found, listedKeys]

/-- What the memory holds after an eviction. -/
theorem Listed.evict_entries {s : Cas} (h : Listed s) {hash key : String} (plain : NoSeparators hash)
    (ofObject : OfObject hash key) {item : Value} (stored : s.cache.victim key = some item) (k : String) :
    (s.env (.evict key)).cache.entries k =
      if k ∈ listedKeys (s.listFor hash key) ∨ k = key then none else s.cache.entries k := by
  rw [h.evict_cache plain ofObject stored, Cache.entries_eraseAll, Cache.entries_erase]
  by_cases listed : k ∈ listedKeys (s.listFor hash key)
  · simp [listed]
  · simp [listed]

/-- After the eviction no chunk of the object is in memory, and what belongs to no key of the object is as it
was before. -/
structure WholeAndLocal (s after : Cas) (hash : String) : Prop where
  whole : ∀ j : Int, after.cache.get (chunkKey hash j) = none
  frame : ∀ k, ¬ OfObject hash k → after.cache.entries k = s.cache.entries k

/-- A chunk of the object, other than the one that is evicted. -/
def OtherChunk (s : Cas) (hash key : String) (j : Nat) : Prop :=
  chunkKey hash j ≠ key ∧ (s.cache.get (chunkKey hash j)).isSome

/-- What goes wrong when the key is evicted. -/
inductive Misses (s : Cas) (hash key : String) : Prop where
  /-- The list is not in memory, or expired, and another chunk is in memory. -/
  | unlisted (unknown : s.listFor hash key = none) {j : Nat} (other : OtherChunk s hash key j)
  /-- The list is shorter than what is in memory. -/
  | shortList {n j : Nat} (names : s.listFor hash key = some (.index (joinKeys (chunkKeys hash n)))) (beyond : n ≤ j)
      (other : OtherChunk s hash key j)
  /-- The list is empty, and there is an object with the empty hash. -/
  | emptyList (names : s.listFor hash key = some (.index (joinKeys (chunkKeys hash 0)))) (nonempty : hash ≠ "")
      (held : (s.cache.entries "").isSome)

theorem listedKeys_index {hash : String} (plain : NoSeparators hash) (n : Nat) :
    listedKeys (some (.index (joinKeys (chunkKeys hash n)))) = if n = 0 then [""] else chunkKeys hash n :=
  splitKeys_joinKeys plain n

/-- The chunks in a list of `n` chunks. -/
theorem chunkKey_mem_listedKeys_iff {hash : String} (plain : NoSeparators hash) (n j : Nat) :
    chunkKey hash j ∈ listedKeys (some (.index (joinKeys (chunkKeys hash n)))) ↔ j < n := by
  rw [listedKeys_index plain]
  by_cases empty : n = 0
  · simp [empty, chunkKey_ne_empty]
  · rw [if_neg empty, mem_chunkKeys_iff]
    constructor
    · rintro ⟨i, inside, same⟩
      have := chunkKey_injective hash same
      omega
    · exact fun inside => ⟨j, inside, rfl⟩

/-- A list names keys of its object only, unless it is empty. -/
theorem mem_listedKeys {hash : String} (plain : NoSeparators hash) {n : Nat} {k : String}
    (listed : k ∈ listedKeys (some (.index (joinKeys (chunkKeys hash n))))) :
    OfObject hash k ∨ n = 0 ∧ k = "" := by
  rw [listedKeys_index plain] at listed
  by_cases empty : n = 0
  · rw [if_pos empty, List.mem_singleton] at listed
    exact .inr ⟨empty, listed⟩
  · rw [if_neg empty] at listed
    obtain ⟨i, -, rfl⟩ := mem_chunkKeys_iff.mp listed
    exact .inl (.inr ⟨i, rfl⟩)

section

variable {s : Cas} {hash key : String} {item : Value}

/-- A chunk that is in memory and neither evicted nor in the list stays. -/
theorem Listed.evict_stays (h : Listed s) (plain : NoSeparators hash) (ofObject : OfObject hash key)
    (stored : s.cache.victim key = some item) {j : Nat} (other : OtherChunk s hash key j)
    (unlisted : chunkKey hash j ∉ listedKeys (s.listFor hash key)) : ¬ WholeAndLocal s (s.env (.evict key)) hash := by
  intro clean
  have gone := clean.whole j
  rw [Cache.get, h.evict_entries plain ofObject stored, if_neg (not_or.mpr ⟨unlisted, other.1⟩)] at gone
  have there := other.2
  rw [Cache.get, gone] at there
  cases there

theorem Misses.not_clean (misses : Misses s hash key) (h : Listed s) (plain : NoSeparators hash)
    (ofObject : OfObject hash key) (stored : s.cache.victim key = some item) :
    ¬ WholeAndLocal s (s.env (.evict key)) hash := by
  cases misses with
  | unlisted unknown other =>
    refine h.evict_stays plain ofObject stored other ?_
    rw [unknown]
    exact List.not_mem_nil
  | @shortList n j names beyond other =>
    refine h.evict_stays plain ofObject stored other ?_
    rw [names, chunkKey_mem_listedKeys_iff plain]
    omega
  | emptyList names nonempty held =>
    intro clean
    have notOurs : ¬ OfObject hash "" := by
      rintro (same | ⟨j, same⟩)
      · exact nonempty same.symm
      · exact chunkKey_ne_empty hash j same.symm
    have same := clean.frame "" notOurs
    have listed : "" ∈ listedKeys (s.listFor hash key) := by
      rw [names, listedKeys_index plain]
      exact List.mem_singleton.mpr rfl
    rw [h.evict_entries plain ofObject stored, if_pos (.inl listed)] at same
    rw [← same] at held
    cases held

/-- A chunk that is in memory afterwards was there before, and was not in the list. -/
theorem Listed.evict_seen (h : Listed s) (plain : NoSeparators hash) (ofObject : OfObject hash key)
    (stored : s.cache.victim key = some item) {j : Int}
    (seen : (s.env (.evict key)).cache.get (chunkKey hash j) ≠ none) :
    ∃ i : Nat, OtherChunk s hash key i ∧ chunkKey hash i ∉ listedKeys (s.listFor hash key) := by
  have entries := h.evict_entries plain ofObject stored (chunkKey hash j)
  by_cases erased : chunkKey hash j ∈ listedKeys (s.listFor hash key) ∨ chunkKey hash j = key
  · rw [if_pos erased] at entries
    exact absurd (Cache.get_vacant entries) seen
  · rw [if_neg erased] at entries
    obtain ⟨unlisted, other⟩ := not_or.mp erased
    have before : s.cache.get (chunkKey hash j) ≠ none := by
      simp only [Cache.get, entries] at seen
      exact seen
    obtain ⟨v, visible⟩ := Option.ne_none_iff_exists'.mp before
    obtain ⟨-, i, -, rfl, -⟩ := h.tiers.seen visible
    exact ⟨i, ⟨other, by rw [visible]; rfl⟩, unlisted⟩

theorem Listed.evict_clean (h : Listed s) (plain : NoSeparators hash) (ofObject : OfObject hash key)
    (stored : s.cache.victim key = some item) (complete : ¬ Misses s hash key) :
    WholeAndLocal s (s.env (.evict key)) hash := by
  constructor
  · intro j
    by_contra seen
    obtain ⟨i, other, unlisted⟩ := h.evict_seen plain ofObject stored seen
    rcases h.listFor plain key with unknown | ⟨n, names⟩
    · exact complete (.unlisted unknown other)
    · rw [names, chunkKey_mem_listedKeys_iff plain] at unlisted
      exact complete (.shortList names (by omega) other)
  · intro k notOurs
    have notKey : k ≠ key := fun same => notOurs (by rw [same]; exact ofObject)
    rw [h.evict_entries plain ofObject stored]
    rcases h.listFor plain key with unknown | ⟨n, names⟩
    · rw [unknown, if_neg]
      exact not_or.mpr ⟨List.not_mem_nil, notKey⟩
    · by_cases listed : k ∈ listedKeys (s.listFor hash key)
      · -- only the empty key can be in the list of another object
        rw [if_pos (.inl listed)]
        rw [names] at listed
        obtain ⟨rfl, rfl⟩ := (mem_listedKeys plain listed).resolve_left notOurs
        by_contra held
        refine complete (.emptyList names (fun empty => notOurs (.inl empty.symm)) ?_)
        exact Option.isSome_iff_ne_none.mpr (Ne.symm held)
      · rw [if_neg (not_or.mpr ⟨listed, notKey⟩)]

end

/-- **Evictions.** In every run, whenever the memory evicts an item of an object, none of its chunks is left in
memory and no other entry is touched: exactly if the list of its chunks is known and complete, and not an
empty one beside an object with the empty hash. -/
theorem eviction_clean_iff {p : System} (run : Trace (System.step cfg) AnySteps System.start p) {hash key : String}
    (plain : NoSeparators hash) (ofObject : OfObject hash key) (evictable : (p.shared.cache.victim key).isSome) :
    WholeAndLocal p.shared (System.step cfg (.env (.evict key)) p).shared hash ↔ ¬ Misses p.shared hash key := by
  have listed := listed_run run
  obtain ⟨item, stored⟩ := Option.isSome_iff_exists.mp evictable
  constructor
  · exact fun clean misses => misses.not_clean listed plain ofObject stored clean
  · exact fun complete => listed.evict_clean plain ofObject stored complete

/-- An object of two bytes, one byte a page, is stored, and the memory takes all of it. -/
def storeTwoChunks : List Act :=
  .spawn (.startAdd "a" [7, 8]) :: List.replicate 9 (.move 0 ⟨.finish .ok, false, ""⟩) ++
    [.env (.accept "a-0"), .env (.accept "a-1"), .env (.accept "a")]

def twoChunks : System := after (System.step oneBytePages) storeTwoChunks System.start

theorem twoChunks_reached : Trace (System.step oneBytePages) AnySteps System.start twoChunks := by
  refine Trace.of_list storeTwoChunks System.start fun k => ?_
  have member := List.get_mem storeTwoChunks k
  generalize storeTwoChunks.get k = a at member ⊢
  simp only [storeTwoChunks, List.cons_append, List.mem_cons, List.mem_append, List.not_mem_nil, or_false] at member
  rcases member with rfl | moves | rfl | rfl | rfl
  · exact .add (by decide) _
  · rw [List.eq_of_mem_replicate moves]
    exact .move _ _
  all_goals exact .env _

/-- Nothing else is in memory. -/
theorem twoChunks_held {k : String} (first : k ≠ "a-0") (second : k ≠ "a-1") (list : k ≠ "a") :
    twoChunks.shared.cache.entries k = none := by
  -- each of the three keys is put, and accepted
  obtain ⟨put₀, put₁, put, live₀, live₁, live, cache⟩ : ∃ put₀ put₁ put live₀ live₁ live,
      twoChunks.shared.cache = (((((Cache.empty.modify "a-0" put₀).modify "a-1" put₁).modify "a" put).modify
        "a-0" live₀).modify "a-1" live₁).modify "a" live := ⟨_, _, _, _, _, _, rfl⟩
  simp only [cache, Cache.modify_other _ _ first, Cache.modify_other _ _ second, Cache.modify_other _ _ list,
    Cache.empty_entries]

/-- The first chunk is evicted; the second one and nothing else goes with it. -/
theorem eviction_clean_two_chunks :
    WholeAndLocal twoChunks.shared (System.step oneBytePages (.env (.evict "a-0")) twoChunks).shared "a" := by
  have ofObject : OfObject "a" "a-0" := .inr ⟨0, by decide⟩
  refine (eviction_clean_iff twoChunks_reached (by decide) ofObject (by decide)).mpr fun misses => ?_
  have list : twoChunks.shared.listFor "a" "a-0" = some (.index "a-0,a-1") := by decide
  cases misses with
  | unlisted unknown => cases list.symm.trans unknown
  | emptyList names => exact absurd (Value.index.inj (Option.some.inj (list.symm.trans names))) (by decide)
  | @shortList n j names beyond other =>
    have two : 2 ≤ n := by
      by_contra fewer
      have names := Value.index.inj (Option.some.inj (list.symm.trans names))
      have cases : n = 0 ∨ n = 1 := by omega
      rcases cases with rfl | rfl <;> exact absurd names (by decide)
    have apart (i : Nat) (less : i < 2) : chunkKey "a" j ≠ chunkKey "a" i := by
      intro same
      have := chunkKey_injective "a" same
      omega
    have none : twoChunks.shared.cache.entries (chunkKey "a" j) = none :=
      twoChunks_held (apart 0 (by decide)) (apart 1 (by decide)) (chunkKey_ne_hash (by decide) j)
    have there := other.2
    rw [Cache.get_vacant none] at there
    cases there

/-- The list has expired when the first chunk is evicted: the second chunk stays. -/
theorem eviction_leaves_chunk :
    ∃ p, Trace (System.step oneBytePages) AnySteps System.start p ∧ (p.shared.cache.victim "a-0").isSome ∧
      ¬ WholeAndLocal p.shared (System.step oneBytePages (.env (.evict "a-0")) p).shared "a" :=
  ⟨_, twoChunks_reached.tail _ (.env (.expire "a")), by decide, fun clean => absurd (clean.whole 1) (by decide)⟩

end Blobcache.Storage
