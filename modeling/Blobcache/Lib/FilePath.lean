import Mathlib.Data.List.Basic

/-!
# File paths

The lexical functions of Go's `path/filepath` on Unix. A path is cleaned component by
component: empty ones and `.` are dropped, and `..` takes back the component before it,
where there is one to take back.

A clean path from the root is a list of proper components (`rooted`); `Join` with a name
appends the name, and every path that is joined to the root is of this form.

What is joined to a directory leads below it, whatever the directory, exactly if it does not
climb above its start on the way and leads somewhere (`descend`, `below_of_walk`,
`exists_not_below`).
-/

namespace FilePath
set_option autoImplicit false

abbrev Component := List Char

/-- One component; `kept` are the components kept so far, the last one first. -/
def cleanStep (rooted : Bool) (kept : List Component) (c : Component) : List Component :=
  if c = [] ∨ c = ['.'] then kept
  else if c = ['.', '.'] then
    match kept with
    | [] => if rooted then [] else [c]
    | last :: before => if last = ['.', '.'] then c :: kept else before
  else c :: kept

def components (rooted : Bool) (path : List Char) : List Component :=
  ((path.splitOn '/').foldl (cleanStep rooted) []).reverse

/-- `filepath.Clean`. -/
def clean (path : String) : String :=
  let rooted := path.toList.head? = some '/'
  let parts := ['/'].intercalate (components rooted path.toList)
  if rooted then String.ofList ('/' :: parts) else if parts = [] then "." else String.ofList parts

/-- `filepath.Join`. -/
def join (elem : List String) : String :=
  match elem.dropWhile (· = "") with
  | [] => ""
  | rest => clean ("/".intercalate rest)

/-- `strings.Split` at the separators. -/
def split (path : String) : List String := (path.toList.splitOn '/').map String.ofList

/-! ## Clean paths from the root -/

/-- A component that names an entry of a directory. -/
structure Proper (c : Component) : Prop where
  nonempty : c ≠ []
  not_here : c ≠ ['.']
  not_parent : c ≠ ['.', '.']
  no_separator : '/' ∉ c

instance (c : Component) : Decidable (Proper c) :=
  decidable_of_iff (c ≠ [] ∧ c ≠ ['.'] ∧ c ≠ ['.', '.'] ∧ '/' ∉ c)
    ⟨fun h => ⟨h.1, h.2.1, h.2.2.1, h.2.2.2⟩, fun h => ⟨h.nonempty, h.not_here, h.not_parent, h.no_separator⟩⟩

/-- The clean path of the components. -/
def rooted (p : List Component) : String := String.ofList ('/' :: ['/'].intercalate p)

theorem mem_of_mem_splitOn {l part : List Char} (member : part ∈ l.splitOn '/') :
    '/' ∉ part ∧ part.Sublist l := by
  induction l generalizing part with
  | nil =>
    rw [List.splitOn_nil, List.mem_singleton] at member
    subst member
    exact ⟨List.not_mem_nil, List.Sublist.refl _⟩
  | cons x l ih =>
    rw [List.splitOn_cons_eq_if_modifyHead] at member
    split at member
    · rcases List.mem_cons.mp member with rfl | member
      · exact ⟨List.not_mem_nil, List.nil_sublist _⟩
      · exact ⟨(ih member).1, (ih member).2.cons x⟩
    · rename_i other
      obtain ⟨first, rest, parts⟩ := List.exists_cons_of_ne_nil (List.splitOn_ne_nil '/' l)
      rw [parts, List.modifyHead_cons] at member
      rw [parts] at ih
      rcases List.mem_cons.mp member with rfl | member
      · obtain ⟨clean, within⟩ := ih List.mem_cons_self
        refine ⟨fun inPart => ?_, within.cons_cons x⟩
        rcases List.mem_cons.mp inPart with rfl | inPart
        · exact other (beq_self_eq_true _)
        · exact clean inPart
      · obtain ⟨clean, within⟩ := ih (List.mem_cons_of_mem _ member)
        exact ⟨clean, within.cons x⟩

/-- What is kept from the root is proper. -/
theorem cleanStep_proper {kept : List Component} {c : Component} (proper : ∀ k ∈ kept, Proper k)
    (clean : '/' ∉ c) : ∀ k ∈ cleanStep true kept c, Proper k := by
  unfold cleanStep
  split
  · exact proper
  · rename_i named
    rw [not_or] at named
    split
    · cases kept with
      | nil => exact fun k member => by cases member
      | cons last before =>
        have notParent := (proper last List.mem_cons_self).not_parent
        simp only [if_neg notParent]
        exact fun k member => proper k (List.mem_cons_of_mem _ member)
    · rename_i other
      intro k member
      rcases List.mem_cons.mp member with rfl | member
      · exact ⟨named.1, named.2, other, clean⟩
      · exact proper k member

theorem mem_cleanStep {fromRoot : Bool} {kept : List Component} {c k : Component}
    (member : k ∈ cleanStep fromRoot kept c) : k ∈ kept ∨ k = c := by
  unfold cleanStep at member
  split at member
  · exact .inl member
  · split at member
    · cases kept with
      | nil =>
        dsimp only at member
        split at member
        · cases member
        · exact .inr (List.mem_singleton.mp member)
      | cons last before =>
        dsimp only at member
        split at member
        · exact (List.mem_cons.mp member).symm
        · exact .inl (List.mem_cons_of_mem _ member)
    · exact (List.mem_cons.mp member).symm

theorem mem_foldl_cleanStep {fromRoot : Bool} {steps kept : List Component} {k : Component}
    (member : k ∈ steps.foldl (cleanStep fromRoot) kept) : k ∈ kept ∨ k ∈ steps := by
  induction steps generalizing kept with
  | nil => exact .inl member
  | cons c steps ih =>
    rcases ih member with before | later
    · rcases mem_cleanStep before with old | rfl
      · exact .inl old
      · exact .inr List.mem_cons_self
    · exact .inr (List.mem_cons_of_mem _ later)

/-- The components kept are made of the characters of the path. -/
theorem mem_components {fromRoot : Bool} {path : List Char} {k : Component} (member : k ∈ components fromRoot path) :
    ∀ c ∈ k, c ∈ path := by
  rcases mem_foldl_cleanStep (List.mem_reverse.mp member) with none | part
  · cases none
  · exact fun c inPart => (mem_of_mem_splitOn part).2.subset inPart

theorem foldl_cleanStep_proper {steps kept : List Component} (clean : ∀ c ∈ steps, '/' ∉ c)
    (proper : ∀ k ∈ kept, Proper k) : ∀ k ∈ steps.foldl (cleanStep true) kept, Proper k := by
  induction steps generalizing kept with
  | nil => exact proper
  | cons c steps ih =>
    refine ih (fun d later => clean d (List.mem_cons_of_mem _ later)) ?_
    exact cleanStep_proper proper (clean c List.mem_cons_self)

/-- From the root the components kept are proper. -/
theorem components_proper {path : List Char} {k : Component} (member : k ∈ components true path) : Proper k :=
  foldl_cleanStep_proper (fun _ part => (mem_of_mem_splitOn part).1) (fun _ none => by cases none) k
    (List.mem_reverse.mp member)

/-- Proper components are all kept. -/
theorem foldl_cleanStep {parts : List Component} (proper : ∀ part ∈ parts, part = [] ∨ Proper part)
    (kept : List Component) :
    parts.foldl (cleanStep true) kept = (parts.filter (· ≠ [])).reverse ++ kept := by
  induction parts generalizing kept with
  | nil => rfl
  | cons part parts ih =>
    have later := fun other member => proper other (List.mem_cons_of_mem _ member)
    rw [List.foldl_cons, ih later]
    rcases proper part List.mem_cons_self with rfl | here
    · have skipped : cleanStep true kept [] = kept := by
        unfold cleanStep
        exact if_pos (.inl rfl)
      rw [List.filter_cons_of_neg (by simp), skipped]
    · have added : cleanStep true kept part = part :: kept := by
        unfold cleanStep
        rw [if_neg (not_or.mpr ⟨here.nonempty, here.not_here⟩), if_neg here.not_parent]
      rw [List.filter_cons_of_pos (by simp [here.nonempty]), added]
      simp

theorem splitOn_separator (path : List Char) : ('/' :: path).splitOn '/' = [] :: path.splitOn '/' := by
  rw [List.splitOn_cons_eq_if_modifyHead, if_pos (beq_self_eq_true _)]

section

variable {p : List Component}

theorem filter_proper (proper : ∀ c ∈ p, Proper c) : p.filter (· ≠ []) = p := by
  rw [List.filter_eq_self]
  exact fun c member => by simpa using (proper c member).nonempty

theorem splitOn_intercalate (proper : ∀ c ∈ p, Proper c) :
    (['/'].intercalate p).splitOn '/' = if p = [] then [[]] else p := by
  split
  · rename_i none
    rw [none]
    rfl
  · rename_i some
    exact List.splitOn_intercalate '/' (fun c member => (proper c member).no_separator) some

/-- `strings.Split` of a clean path. -/
theorem split_rooted (proper : ∀ c ∈ p, Proper c) (some : p ≠ []) : split (rooted p) = "" :: p.map String.ofList := by
  rw [split, rooted, String.toList_ofList, splitOn_separator, splitOn_intercalate proper, if_neg some]
  rfl

theorem filter_splitOn_rooted (proper : ∀ c ∈ p, Proper c) :
    (∀ part ∈ (rooted p).toList.splitOn '/', part = [] ∨ Proper part) ∧
      ((rooted p).toList.splitOn '/').filter (· ≠ []) = p := by
  rw [rooted, String.toList_ofList, splitOn_separator, splitOn_intercalate proper]
  split
  · rename_i none
    subst none
    refine ⟨fun part member => ?_, rfl⟩
    simp only [List.mem_cons, List.not_mem_nil, or_false, or_self] at member
    exact .inl member
  · refine ⟨fun part member => ?_, ?_⟩
    · rcases List.mem_cons.mp member with rfl | member
      · exact .inl rfl
      · exact .inr (proper part member)
    · rw [List.filter_cons_of_neg (by simp), filter_proper proper]

theorem rooted_injective {q : List Component} (proper : ∀ c ∈ p, Proper c) (proper' : ∀ c ∈ q, Proper c)
    (same : rooted p = rooted q) : p = q := by
  rw [← (filter_splitOn_rooted proper).2, ← (filter_splitOn_rooted proper').2, same]

theorem clean_of_root (path : List Char) :
    clean (String.ofList ('/' :: path)) = rooted (components true ('/' :: path)) := by
  simp [clean, rooted]

/-- Whatever is joined to the root is the clean path of its components. -/
theorem join_root (path : String) :
    join ["/", path] = rooted (components true ('/' :: '/' :: path.toList)) := by
  rw [← clean_of_root]
  unfold join
  rw [List.dropWhile_cons_of_neg (by decide)]
  refine congrArg clean (String.toList_injective ?_)
  simp [String.intercalate_cons_cons, String.intercalate_singleton]

/-- The components of a clean path. -/
theorem components_rooted (proper : ∀ c ∈ p, Proper c) : components true (rooted p).toList = p := by
  obtain ⟨entries, filtered⟩ := filter_splitOn_rooted proper
  rw [components, foldl_cleanStep entries, filtered, List.append_nil, List.reverse_reverse]

theorem components_separator (fromRoot : Bool) (path : List Char) :
    components fromRoot ('/' :: path) = components fromRoot path := by
  rw [components, splitOn_separator]
  rfl

theorem clean_rooted (proper : ∀ c ∈ p, Proper c) : clean (rooted p) = rooted p := by
  have kept := components_rooted proper
  rw [rooted, String.toList_ofList] at kept
  rw [rooted, clean_of_root, kept]
  rfl

theorem join_root_rooted (proper : ∀ c ∈ p, Proper c) : join ["/", rooted p] = rooted p := by
  rw [join_root, components_separator, components_separator, components_rooted proper]

/-- The path is clean and starts at the root. -/
def CleanFromRoot (path : String) : Prop := ∃ p, (∀ c ∈ p, Proper c) ∧ path = rooted p

theorem cleanFromRoot_join (path : String) : CleanFromRoot (join ["/", path]) :=
  ⟨_, fun _ member => components_proper member, join_root path⟩

/-- The paths that stay as they are when they are joined to the root. -/
theorem cleanFromRoot_iff {path : String} : CleanFromRoot path ↔ join ["/", path] = path := by
  constructor
  · rintro ⟨p, proper, rfl⟩
    exact join_root_rooted proper
  · intro same
    rw [← same]
    exact cleanFromRoot_join path

theorem CleanFromRoot.clean {path : String} (h : CleanFromRoot path) : clean path = path := by
  obtain ⟨p, proper, rfl⟩ := h
  exact clean_rooted proper

/-- Joining to the root a second time changes nothing. -/
theorem join_clean_join (path : String) : join ["/", clean (join ["/", path])] = join ["/", path] := by
  rw [(cleanFromRoot_join path).clean]
  exact cleanFromRoot_iff.mp (cleanFromRoot_join path)

theorem mem_intercalate {c : Char} (member : c ∈ ['/'].intercalate p) : (∃ part ∈ p, c ∈ part) ∨ c = '/' := by
  induction p with
  | nil => cases member
  | cons first rest ih =>
    cases rest with
    | nil =>
      rw [List.intercalate_singleton] at member
      exact .inl ⟨first, List.mem_cons_self, member⟩
    | cons second rest =>
      rw [List.intercalate_cons_cons, List.mem_append, List.mem_append, List.mem_singleton] at member
      rcases member with (here | separator) | later
      · exact .inl ⟨first, List.mem_cons_self, here⟩
      · exact .inr separator
      · rcases ih later with ⟨part, inRest, inPart⟩ | separator
        · exact .inl ⟨part, List.mem_cons_of_mem _ inRest, inPart⟩
        · exact .inr separator

theorem mem_rooted {c : Char} (member : c ∈ (rooted p).toList) : (∃ part ∈ p, c ∈ part) ∨ c = '/' := by
  rw [rooted, String.toList_ofList] at member
  rcases List.mem_cons.mp member with first | later
  · exact .inr first
  · exact mem_intercalate later

/-- A clean path is made of the characters of the path, separators and dots. -/
theorem mem_clean {path : String} {c : Char} (member : c ∈ (clean path).toList) :
    c ∈ path.toList ∨ c = '/' ∨ c = '.' := by
  have parts {fromRoot : Bool} (inside : c ∈ ['/'].intercalate (components fromRoot path.toList)) :
      c ∈ path.toList ∨ c = '/' := by
    rcases mem_intercalate inside with ⟨part, kept, inPart⟩ | separator
    · exact .inl (mem_components kept c inPart)
    · exact .inr separator
  unfold clean at member
  dsimp only at member
  split at member
  · rw [String.toList_ofList] at member
    rcases List.mem_cons.mp member with first | later
    · exact .inr (.inl first)
    · exact (parts later).imp_right .inl
  · split at member
    · exact .inr (.inr (List.mem_singleton.mp member))
    · rw [String.toList_ofList] at member
      exact (parts member).imp_right .inl

end

/-! ## Paths that stay below where they start -/

/-- The components of a path as they are written. -/
def parts (path : String) : List Component := path.toList.splitOn '/'

/-- One component of a walk that must not climb above its start. -/
def descendStep (kept : List Component) (c : Component) : Option (List Component) :=
  if c = [] ∨ c = ['.'] then some kept
  else if c = ['.', '.'] then
    match kept with
    | [] => none
    | _ :: before => some before
  else some (c :: kept)

/-- Where a path leads to below its start, the last component first; `none` if it climbs above it
on the way. -/
def descend (path : String) : Option (List Component) := (parts path).foldlM descendStep []

/-- The ways a step of such a walk can go. -/
inductive DescendTaken (c : Component) : List Component → Option (List Component) → Prop where
  | skipped (kept : List Component) (nothing : c = [] ∨ c = ['.']) : DescendTaken c kept (some kept)
  | back (last : Component) (before : List Component) (parent : c = ['.', '.']) :
      DescendTaken c (last :: before) (some before)
  | climbs (parent : c = ['.', '.']) : DescendTaken c [] none
  | named (kept : List Component) (something : ¬ (c = [] ∨ c = ['.'])) (other : c ≠ ['.', '.']) :
      DescendTaken c kept (some (c :: kept))

theorem descendStep_taken (kept : List Component) (c : Component) : DescendTaken c kept (descendStep kept c) := by
  unfold descendStep
  split
  · exact .skipped kept ‹_›
  · split
    · cases kept with
      | nil => exact .climbs ‹_›
      | cons last before => exact .back last before ‹_›
    · exact .named kept ‹_› ‹_›

theorem descendStep_proper {kept kept' : List Component} {c : Component} (proper : ∀ k ∈ kept, Proper k)
    (clean : '/' ∉ c) (step : descendStep kept c = some kept') : ∀ k ∈ kept', Proper k := by
  have taken := descendStep_taken kept c
  rw [step] at taken
  cases taken with
  | skipped => exact proper
  | back last before => exact fun k member => proper k (List.mem_cons_of_mem _ member)
  | named _ something other =>
    rw [not_or] at something
    intro k member
    rcases List.mem_cons.mp member with rfl | member
    · exact ⟨something.1, something.2, other, clean⟩
    · exact proper k member

/-- A walk that does not climb leaves alone what was kept before it. -/
theorem cleanStep_descend {fromRoot : Bool} {kept kept' before : List Component} {c : Component}
    (proper : ∀ k ∈ kept, Proper k) (step : descendStep kept c = some kept') :
    cleanStep fromRoot (kept ++ before) c = kept' ++ before := by
  have taken := descendStep_taken kept c
  rw [step] at taken
  cases taken with
  | skipped _ nothing => exact if_pos nothing
  | back last rest parent =>
    subst parent
    exact if_neg (proper last List.mem_cons_self).not_parent
  | named _ something other => exact (if_neg something).trans (if_neg other)

theorem foldl_descend (fromRoot : Bool) (before : List Component) {steps kept kept' : List Component}
    (clean : ∀ c ∈ steps, '/' ∉ c) (proper : ∀ k ∈ kept, Proper k) (walk : steps.foldlM descendStep kept = some kept') :
    steps.foldl (cleanStep fromRoot) (kept ++ before) = kept' ++ before ∧ ∀ k ∈ kept', Proper k := by
  induction steps generalizing kept with
  | nil =>
    cases walk
    exact ⟨rfl, proper⟩
  | cons c steps ih =>
    rw [List.foldlM_cons] at walk
    obtain ⟨next, step, walk⟩ := Option.bind_eq_some_iff.mp walk
    rw [List.foldl_cons, cleanStep_descend proper step]
    exact ih (fun d later => clean d (List.mem_cons_of_mem _ later))
      (descendStep_proper proper (clean c List.mem_cons_self) step) walk

/-- Proper components are walked down as they are. -/
theorem foldlM_proper {steps : List Component} (proper : ∀ c ∈ steps, Proper c) (kept : List Component) :
    steps.foldlM descendStep kept = some (steps.reverse ++ kept) := by
  induction steps generalizing kept with
  | nil => rfl
  | cons c steps ih =>
    have here := proper c List.mem_cons_self
    have step : descendStep kept c = some (c :: kept) := by
      unfold descendStep
      rw [if_neg (not_or.mpr ⟨here.nonempty, here.not_here⟩), if_neg here.not_parent]
    rw [List.foldlM_cons, step]
    refine (ih (fun d later => proper d (List.mem_cons_of_mem _ later)) _).trans ?_
    rw [List.reverse_cons, List.append_assoc, List.singleton_append]

/-- A walk that climbs above its start takes away what was there, and nothing brings it back. -/
theorem foldl_climbs {steps kept : List Component} {start : Component} (proper : ∀ k ∈ start :: kept, Proper k)
    (clean : ∀ c ∈ steps, '/' ∉ c) (fresh : ∀ c ∈ steps, c ≠ start) (apart : start ∉ kept)
    (climbs : steps.foldlM descendStep kept = none) : start ∉ steps.foldl (cleanStep true) (kept ++ [start]) := by
  induction steps generalizing kept with
  | nil => cases climbs
  | cons c steps ih =>
    have properKept : ∀ k ∈ kept, Proper k := fun k member => proper k (List.mem_cons_of_mem _ member)
    rw [List.foldlM_cons] at climbs
    rw [List.foldl_cons]
    cases step : descendStep kept c with
    | some next =>
      rw [step] at climbs
      have next_proper := descendStep_proper properKept (clean c List.mem_cons_self) step
      rw [cleanStep_descend properKept step]
      refine ih (fun k member => ?_) (fun d later => clean d (List.mem_cons_of_mem _ later))
        (fun d later => fresh d (List.mem_cons_of_mem _ later)) (fun inside => ?_) climbs
      · rcases List.mem_cons.mp member with rfl | member
        · exact proper k List.mem_cons_self
        · exact next_proper k member
      · have after : cleanStep true (kept ++ []) c = next ++ [] := cleanStep_descend properKept step
        rw [List.append_nil, List.append_nil] at after
        rcases mem_cleanStep (after ▸ inside) with old | same
        · exact apart old
        · exact fresh c List.mem_cons_self same.symm
    | none =>
      have gone : cleanStep true (kept ++ [start]) c = [] := by
        have taken := descendStep_taken kept c
        rw [step] at taken
        cases taken with
        | climbs parent =>
          subst parent
          exact if_neg (proper start List.mem_cons_self).not_parent
      rw [gone]
      intro back
      rcases mem_foldl_cleanStep back with none | later
      · cases none
      · exact fresh start (List.mem_cons_of_mem _ later) rfl

/-! ### Joining to a directory -/

theorem parts_clean {path : String} {c : Component} (member : c ∈ parts path) : '/' ∉ c := (mem_of_mem_splitOn member).1

/-- What is written for the components kept, the last one first. -/
def render (fromRoot : Bool) (kept : List Component) : String :=
  let text := ['/'].intercalate kept.reverse
  if fromRoot then String.ofList ('/' :: text) else if text = [] then "." else String.ofList text

theorem toList_intercalate_cons (dir name : String) (names : List String) :
    ("/".intercalate (dir :: name :: names)).toList = dir.toList ++ '/' :: ("/".intercalate (name :: names)).toList := by
  simp [String.intercalate_cons_cons]

theorem parts_intercalate (dir : String) (names : List String) :
    parts ("/".intercalate (dir :: names)) = parts dir ++ names.flatMap parts := by
  induction names generalizing dir with
  | nil => simp [String.intercalate_singleton]
  | cons name names ih =>
    rw [parts, toList_intercalate_cons, List.splitOn_append_cons_self, List.flatMap_cons, ← ih name]
    rfl

theorem head_intercalate {dir : String} (named : dir ≠ "") (names : List String) :
    ("/".intercalate (dir :: names)).toList.head? = dir.toList.head? := by
  cases names with
  | nil => rw [String.intercalate_singleton]
  | cons name names =>
    obtain ⟨c, rest, chars⟩ := List.exists_cons_of_ne_nil fun none => named (String.toList_eq_nil_iff.mp none)
    rw [toList_intercalate_cons, chars]
    rfl

/-- `Join` walks through the components of all its elements. -/
theorem join_cons {dir : String} (named : dir ≠ "") (names : List String) :
    join (dir :: names) = render (dir.toList.head? = some '/')
      ((names.flatMap parts).foldl (cleanStep (dir.toList.head? = some '/'))
        ((parts dir).foldl (cleanStep (dir.toList.head? = some '/')) [])) := by
  have text : ("/".intercalate (dir :: names)).toList.splitOn '/' = parts dir ++ names.flatMap parts :=
    parts_intercalate dir names
  unfold join
  rw [List.dropWhile_cons_of_neg (by simpa using named)]
  simp only [clean, components, render, text, head_intercalate named, List.foldl_append, decide_eq_true_eq]

/-- The path leads to a place below the directory. -/
def Below (dir path : String) : Prop :=
  ∃ names : List Component, names ≠ [] ∧ (∀ c ∈ names, Proper c) ∧ path = join (dir :: names.map String.ofList)

/-- The path leads to a place below the one that the element leads to, which is itself below the directory. -/
def Inside (dir elem path : String) : Prop :=
  ∃ names inner : List Component, names ≠ [] ∧ inner ≠ [] ∧ (∀ c ∈ names ++ inner, Proper c) ∧
    join [dir, elem] = join (dir :: names.map String.ofList) ∧ path = join (dir :: (names ++ inner).map String.ofList)

theorem flatMap_parts {names : List Component} (proper : ∀ c ∈ names, Proper c) :
    (names.map String.ofList).flatMap parts = names := by
  induction names with
  | nil => rfl
  | cons c names ih =>
    rw [List.map_cons, List.flatMap_cons, ih fun d later => proper d (List.mem_cons_of_mem _ later), parts,
      String.toList_ofList, List.splitOn_eq_singleton (proper c List.mem_cons_self).no_separator, List.singleton_append]

/-- Elements that do not climb can be replaced by the names of the places they lead through. -/
theorem join_of_walk {dir : String} (named : dir ≠ "") {elems : List String} {kept : List Component}
    (walk : (elems.flatMap parts).foldlM descendStep [] = some kept) :
    (∀ c ∈ kept.reverse, Proper c) ∧ join (dir :: elems) = join (dir :: kept.reverse.map String.ofList) := by
  have clean : ∀ c ∈ elems.flatMap parts, '/' ∉ c := by
    intro c member
    obtain ⟨elem, -, part⟩ := List.mem_flatMap.mp member
    exact parts_clean part
  have fold (fromRoot : Bool) (before : List Component) :
      (elems.flatMap parts).foldl (cleanStep fromRoot) before = kept ++ before ∧ ∀ k ∈ kept, Proper k :=
    foldl_descend fromRoot before clean (fun _ none => by cases none) walk
  have proper : ∀ c ∈ kept.reverse, Proper c := fun c member => (fold true []).2 c (List.mem_reverse.mp member)
  refine ⟨proper, ?_⟩
  have same (fromRoot : Bool) (before : List Component) :
      kept.reverse.foldl (cleanStep fromRoot) before = kept ++ before := by
    have down := foldlM_proper proper []
    rw [List.reverse_reverse, List.append_nil] at down
    exact (foldl_descend fromRoot before (fun c member => (proper c member).no_separator)
      (fun _ none => by cases none) down).1
  rw [join_cons named, join_cons named, flatMap_parts proper, (fold _ _).1, same]

/-- Elements that do not climb, and lead somewhere, lead below the directory they are joined to. -/
theorem below_of_walk {dir : String} (named : dir ≠ "") {elems : List String} {kept : List Component}
    (walk : (elems.flatMap parts).foldlM descendStep [] = some kept) (somewhere : kept ≠ []) :
    Below dir (join (dir :: elems)) := by
  obtain ⟨proper, same⟩ := join_of_walk named walk
  exact ⟨kept.reverse, fun none => somewhere (List.reverse_eq_nil_iff.mp none), proper, same⟩

/-- A suffix without separators belongs to the last component. -/
theorem parts_append (path : String) {suffix : String} (clean : '/' ∉ suffix.toList) :
    ∃ init last, parts path = init ++ [last] ∧ parts (path ++ suffix) = init ++ [last ++ suffix.toList] := by
  have split (l : List Char) : ∃ init last, l.splitOn '/' = init ++ [last] ∧
      (l ++ suffix.toList).splitOn '/' = init ++ [last ++ suffix.toList] := by
    induction l with
    | nil => exact ⟨[], [], rfl, List.splitOn_eq_singleton clean⟩
    | cons x l ih =>
      obtain ⟨init, last, before, after⟩ := ih
      rw [List.cons_append, List.splitOn_cons_eq_if_modifyHead, List.splitOn_cons_eq_if_modifyHead, before, after]
      split
      · exact ⟨[] :: init, last, rfl, rfl⟩
      · cases init with
        | nil => exact ⟨[], x :: last, rfl, rfl⟩
        | cons first init => exact ⟨(x :: first) :: init, last, rfl, rfl⟩
  rw [parts, parts, String.toList_append]
  exact split path.toList

theorem foldlM_frame {steps kept kept' : List Component} (before : List Component)
    (walk : steps.foldlM descendStep kept = some kept') :
    steps.foldlM descendStep (kept ++ before) = some (kept' ++ before) := by
  induction steps generalizing kept with
  | nil =>
    cases walk
    rfl
  | cons c steps ih =>
    rw [List.foldlM_cons] at walk ⊢
    obtain ⟨next, step, walk⟩ := Option.bind_eq_some_iff.mp walk
    have framed : descendStep (kept ++ before) c = some (next ++ before) := by
      have taken := descendStep_taken kept c
      rw [step] at taken
      cases taken with
      | skipped _ nothing => exact if_pos nothing
      | back last rest parent =>
        subst parent
        rfl
      | named _ something other => exact (if_neg something).trans (if_neg other)
    rw [framed]
    exact ih walk

/-- A path that does not climb can be followed twice, with a suffix that makes its end a name. -/
theorem walk_twice {path suffix : String} {kept : List Component} (walk : descend path = some kept)
    (clean : '/' ∉ suffix.toList) (named : ∀ last : Component, '/' ∉ last → Proper (last ++ suffix.toList)) :
    ∃ more ≠ [], ([path, path ++ suffix].flatMap parts).foldlM descendStep [] = some (more ++ kept) := by
  obtain ⟨init, last, before, after⟩ := parts_append path clean
  have member : last ∈ parts path := by
    rw [before]
    exact List.mem_append_right _ List.mem_cons_self
  have fresh : ∀ c ∈ [last ++ suffix.toList], Proper c := by
    intro c single
    rw [List.mem_singleton.mp single]
    exact named last (parts_clean member)
  have again := walk
  rw [descend, before, List.foldlM_append] at again
  obtain ⟨front, inner, -⟩ := Option.bind_eq_some_iff.mp again
  refine ⟨(last ++ suffix.toList) :: front, List.cons_ne_nil _ _, ?_⟩
  rw [List.flatMap_cons, List.flatMap_cons, List.flatMap_nil, List.append_nil, after, List.foldlM_append,
    show (parts path).foldlM descendStep [] = some kept from walk]
  refine Eq.trans (show _ = (init ++ [last ++ suffix.toList]).foldlM descendStep kept from rfl) ?_
  rw [List.foldlM_append, show init.foldlM descendStep kept = some (front ++ kept) from foldlM_frame kept inner]
  exact foldlM_proper fresh _

/-- Joining to a clean path from the root. -/
theorem join_rooted_cons {p : List Component} (proper : ∀ c ∈ p, Proper c) (names : List String) :
    join (rooted p :: names) = rooted ((names.flatMap parts).foldl (cleanStep true) p.reverse).reverse := by
  have first : (rooted p).toList.head? = some '/' := by
    rw [rooted, String.toList_ofList]
    rfl
  have named : rooted p ≠ "" := by
    intro none
    rw [none] at first
    cases first
  have kept : (parts (rooted p)).foldl (cleanStep true) [] = p.reverse :=
    List.reverse_eq_iff.mp (components_rooted proper)
  rw [join_cons named]
  simp only [first, decide_true, kept, render, if_true]
  rfl

/-- Joining names to a clean path. -/
theorem join_rooted_names {p names : List Component} (proper : ∀ c ∈ p, Proper c) (named : ∀ c ∈ names, Proper c) :
    join (rooted p :: names.map String.ofList) = rooted (p ++ names) := by
  rw [join_rooted_cons proper, flatMap_parts named, foldl_cleanStep fun c member => .inr (named c member),
    filter_proper named, List.reverse_append, List.reverse_reverse, List.reverse_reverse]

theorem join_rooted {p : List Component} (proper : ∀ c ∈ p, Proper c) {name : Component} (named : Proper name) :
    join [rooted p, String.ofList name] = rooted (p ++ [name]) :=
  join_rooted_names proper (List.forall_mem_singleton.mpr named)

theorem below_rooted_iff {p : List Component} (proper : ∀ c ∈ p, Proper c) {path : String} :
    Below (rooted p) path ↔ ∃ names, names ≠ [] ∧ (∀ c ∈ names, Proper c) ∧ path = rooted (p ++ names) := by
  refine exists_congr fun names => and_congr_right fun _ => and_congr_right fun named => ?_
  rw [join_rooted_names proper named]

theorem replicate_proper (n : Nat) : Proper (List.replicate (n + 1) 'x') := by
  have first : (List.replicate (n + 1) 'x').head? = some 'x' := rfl
  have other {c : Component} (different : c.head? ≠ some 'x') : List.replicate (n + 1) 'x' ≠ c :=
    fun same => different (same ▸ first)
  refine ⟨other (by decide), other (by decide), other (by decide), fun inside => ?_⟩
  cases List.eq_of_mem_replicate inside

/-- A path that climbs, or leads nowhere, leads out of a directory whose name it does not have. -/
theorem exists_not_below {path : String} (stays : ∀ kept, descend path = some kept → kept = []) :
    ∃ dir, dir ≠ "" ∧ ¬ Below dir (join [dir, path]) := by
  obtain ⟨start, isStart⟩ : ∃ start, start = List.replicate (path.toList.length + 1) 'x' := ⟨_, rfl⟩
  have longer : ∀ c ∈ parts path, c ≠ start := by
    rintro c part rfl
    have short := (mem_of_mem_splitOn part).2.length_le
    rw [isStart, List.length_replicate] at short
    omega
  have proper : ∀ c ∈ [start], Proper c := by
    intro c member
    rw [List.mem_singleton.mp member, isStart]
    exact replicate_proper _
  refine ⟨rooted [start], fun none => ?_, fun below => ?_⟩
  · have chars := congrArg String.toList none
    rw [rooted, String.toList_ofList] at chars
    cases chars
  obtain ⟨names, somewhere, names_proper, same⟩ := (below_rooted_iff proper).mp below
  rw [join_rooted_cons proper, List.flatMap_cons, List.flatMap_nil, List.append_nil, List.reverse_singleton] at same
  have kept_proper : ∀ k ∈ (parts path).foldl (cleanStep true) [start], Proper k :=
    foldl_cleanStep_proper (fun _ part => parts_clean part) proper
  have walked := rooted_injective (fun c member => kept_proper c (List.mem_reverse.mp member))
    (fun c member => (List.mem_cons.mp member).elim (fun first => proper c (first ▸ List.mem_cons_self))
      (names_proper c)) same
  cases walk : descend path with
  | none =>
    refine foldl_climbs proper (fun _ part => parts_clean part) longer List.not_mem_nil walk ?_
    rw [List.nil_append, ← List.mem_reverse, walked]
    exact List.mem_cons_self
  | some kept =>
    have back := (foldl_descend true [start] (fun _ part => parts_clean part) (fun _ none => by cases none) walk).1
    rw [stays kept walk, List.nil_append] at back
    rw [back] at walked
    exact somewhere (List.cons.inj walked).2.symm

end FilePath
