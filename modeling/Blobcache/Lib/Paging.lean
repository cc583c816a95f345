import Mathlib.Algebra.Order.BigOperators.Group.List
import Mathlib.Data.List.Basic
import Mathlib.Tactic.Ring

/-!
# Paged byte strings

A sequence is cut into pages of `P` elements; a page table holds some of the pages,
possibly cut short. `read` says what a reader of a page table is for: element by element
from a position on, it stops at the first element that a page it has does not reach, and
fails at the first page it does not have. The laws are how a read splits in two
(`read_add`), how it consumes a page at a time (`read_take_page`), what it yields on the
pages of a sequence (`read_whole`, `read_whole_past_end`), and what a failing read has
seen before it failed (`read_eq_none`).
-/

namespace Paging
set_option autoImplicit false

variable {α : Type*} {P : Nat}

/-- Page `i` of a sequence, shorter than `P` only at its end. -/
def page (P i : Nat) (xs : List α) : List α := (xs.drop (i * P)).take P

/-- The pages at hand, by index. -/
abbrev Table (α : Type*) := Nat → Option (List α)

theorem page_length (i : Nat) (xs : List α) : (page P i xs).length = min P (xs.length - i * P) := by
  simp [page]

/-- The element at position `n` stands at `n % P` of page `n / P`. -/
theorem page_getElem? (positive : 0 < P) (n : Nat) (xs : List α) :
    (page P (n / P) xs)[n % P]? = xs[n]? := by
  have split : n / P * P + n % P = n := by rw [Nat.mul_comm]; exact Nat.div_add_mod n P
  simp [page, List.getElem?_drop, Nat.mod_lt n positive, split]

/-- A part of the sequence that begins where the page of position `n` begins has from `n` on what the
sequence has there. -/
theorem take_of_prefix_drop {xs pg : List α} {n k : Nat} (cut : pg <+: xs.drop (n / P * P))
    (room : n % P + k ≤ pg.length) : (pg.drop (n % P)).take k = (xs.drop n).take k := by
  have split : n / P * P + n % P = n := by rw [Nat.mul_comm]; exact Nat.div_add_mod n P
  rw [List.prefix_iff_eq_take.mp cut, List.drop_take, List.take_take, List.drop_drop, split]
  congr 1
  omega

theorem le_length_of_prefix_drop {xs pg : List α} {n k : Nat} (cut : pg <+: xs.drop (n / P * P))
    (room : n % P + k ≤ pg.length) (some_left : 0 < k) : n + k ≤ xs.length := by
  have split : n / P * P + n % P = n := by rw [Nat.mul_comm]; exact Nat.div_add_mod n P
  have length := cut.length_le
  rw [List.length_drop] at length
  omega

/-- The first pages, one after the other, are what the sequence begins with. -/
theorem flatten_pages (n : Nat) (xs : List α) : ((List.range n).map fun i => page P i xs).flatten = xs.take (n * P) := by
  induction n with
  | zero => simp
  | succ n ih =>
    have last : (xs.drop (n * P)).take P = page P n xs := rfl
    rw [List.range_succ, List.map_append, List.flatten_append, ih, Nat.add_mul, Nat.one_mul, List.take_add, last]
    simp

/-- Parts of the pages make up the sequence only if none of them is cut short. -/
theorem flatten_parts_iff {n : Nat} {xs : List α} (enough : xs.length ≤ n * P) {part : Nat → List α}
    (cut : ∀ i < n, part i <+: page P i xs) :
    ((List.range n).map part).flatten = xs ↔ ∀ i < n, part i = page P i xs := by
  have whole : ((List.range n).map fun i => page P i xs).flatten = xs := by
    rw [flatten_pages, List.take_of_length_le enough]
  constructor
  · intro same i inside
    refine (cut i inside).eq_of_length_le (Nat.le_of_not_lt fun short => ?_)
    -- one short part makes the whole shorter
    have fewer : (((List.range n).map part).map List.length).sum <
        (((List.range n).map fun i => page P i xs).map List.length).sum := by
      rw [List.map_map, List.map_map]
      exact List.sum_lt_sum _ _ (fun j member => (cut j (List.mem_range.mp member)).length_le)
        ⟨i, List.mem_range.mpr inside, short⟩
    rw [← List.length_flatten, ← List.length_flatten, same, whole] at fewer
    exact Nat.lt_irrefl _ fewer
  · intro all
    refine Eq.trans (congrArg List.flatten (List.map_congr_left fun i member => ?_)) whole
    exact all i (List.mem_range.mp member)

/-- Reading `len` elements from position `off`. -/
def read (P : Nat) (tbl : Table α) : Nat → Nat → Option (List α)
  | _, 0 => some []
  | off, len + 1 =>
    match tbl (off / P) with
    | none => none
    | some pg =>
      match pg[off % P]? with
      | none => some []
      | some x => (read P tbl (off + 1) len).map (x :: ·)

@[simp] theorem read_zero (tbl : Table α) (off : Nat) : read P tbl off 0 = some [] := by
  simp [read]

theorem read_missing {tbl : Table α} {off len : Nat} (missing : tbl (off / P) = none) (more : 0 < len) :
    read P tbl off len = none := by
  obtain ⟨n, rfl⟩ : ∃ n, len = n + 1 := ⟨len - 1, by omega⟩
  simp [read, missing]

theorem read_past {tbl : Table α} {off len : Nat} {pg : List α} (present : tbl (off / P) = some pg)
    (past : pg.length ≤ off % P) : read P tbl off len = some [] := by
  cases len with
  | zero => simp
  | succ n => simp [read, present, List.getElem?_eq_none past]

theorem read_length_le {tbl : Table α} {off len : Nat} {xs : List α} (done : read P tbl off len = some xs) :
    xs.length ≤ len := by
  induction len generalizing off xs with
  | zero => simp_all
  | succ n ih =>
    simp only [read] at done
    split at done
    · cases done
    · split at done
      · cases done; simp
      · obtain ⟨ys, rest, rfl⟩ := Option.map_eq_some_iff.mp done
        have := ih rest
        simp only [List.length_cons]; omega

/-- A read is a shorter read followed by one of the rest; a shorter read that came up
short, or failed, is the whole read. -/
theorem read_add (tbl : Table α) (off a b : Nat) :
    read P tbl off (a + b) =
      (read P tbl off a).bind fun xs =>
        if xs.length = a then (read P tbl (off + a) b).map (xs ++ ·) else some xs := by
  induction a generalizing off with
  | zero => simp
  | succ a ih =>
    rw [Nat.succ_add]
    simp only [read]
    split
    · rfl
    · split
      · simp
      · rename_i x _
        rw [ih (off + 1)]
        cases read P tbl (off + 1) a with
        | none => rfl
        | some xs =>
          have shift : off + 1 + a = off + (a + 1) := by omega
          by_cases full : xs.length = a <;> simp [full, shift, Option.map_map, Function.comp_def]

theorem next_on_page {P off : Nat} (inside : off % P + 1 < P) :
    (off + 1) / P = off / P ∧ (off + 1) % P = off % P + 1 := by
  have mod : (off + 1) % P = off % P + 1 := by
    rw [Nat.add_mod, Nat.mod_eq_of_lt (show 1 < P by omega), Nat.mod_eq_of_lt inside]
  have here := Nat.div_add_mod off P
  have next := Nat.div_add_mod (off + 1) P
  refine ⟨?_, mod⟩
  apply Nat.eq_of_mul_eq_mul_left (show 0 < P by omega)
  omega

theorem next_opens_page {P off : Nat} (positive : 0 < P) (last : off % P + 1 = P) :
    (off + 1) / P = off / P + 1 ∧ (off + 1) % P = 0 := by
  have mod : (off + 1) % P = 0 := by
    rw [Nat.add_mod_eq_add_mod_right 1 (Nat.mod_mod off P).symm, last, Nat.mod_self]
  have here := Nat.div_add_mod off P
  have next := Nat.div_add_mod (off + 1) P
  refine ⟨?_, mod⟩
  apply Nat.eq_of_mul_eq_mul_left positive
  rw [Nat.mul_add, Nat.mul_one]
  omega

/-- A page that does not exceed `P` is consumed in one piece. -/
theorem read_take_page {tbl : Table α} {off len k : Nat} {pg : List α}
    (present : tbl (off / P) = some pg) (within : pg.length ≤ P) (room : off % P + k ≤ pg.length)
    (need : k ≤ len) :
    read P tbl off len =
      (read P tbl (off + k) (len - k)).map (((pg.drop (off % P)).take k) ++ ·) := by
  induction k generalizing off len with
  | zero => simp
  | succ k ih =>
    obtain ⟨n, rfl⟩ : ∃ n, len = n + 1 := ⟨len - 1, by omega⟩
    have here : off % P < pg.length := by omega
    have head : pg[off % P]? = some pg[off % P] := List.getElem?_eq_getElem here
    simp only [read, present, head]
    have cut : (pg.drop (off % P)).take (k + 1) = pg[off % P] :: (pg.drop (off % P + 1)).take k := by
      rw [List.drop_eq_getElem_cons here, List.take_succ_cons]
    have shift : off + 1 + k = off + (k + 1) := by omega
    rw [cut]
    by_cases last : k = 0
    · subst last; simp
    · -- the next position is still on this page, so the induction hypothesis reads on there
      obtain ⟨div, mod⟩ := next_on_page (show off % P + 1 < P by omega)
      have rest := @ih (off + 1) n (by rw [div]; exact present) (by rw [mod]; omega) (by omega)
      rw [rest, mod, shift, Nat.add_sub_add_right, Option.map_map]
      rfl

/-- `tbl` holds exactly the pages of `xs`. -/
structure Holds (P : Nat) (tbl : Table α) (xs : List α) : Prop where
  inside : ∀ i, i * P < xs.length → tbl i = some (page P i xs)
  outside : ∀ i, xs.length ≤ i * P → tbl i = none

/-- The pages of a sequence. -/
def pages (P : Nat) (xs : List α) : Table α := fun i => if i * P < xs.length then some (page P i xs) else none

theorem pages_holds (P : Nat) (xs : List α) : Holds P (pages P xs) xs where
  inside _ start := if_pos start
  outside _ past := if_neg (by omega)

/-- Inside the sequence a read yields its elements. -/
theorem read_whole {tbl : Table α} {xs : List α} (positive : 0 < P)
    (pages : ∀ i, i * P < xs.length → tbl i = some (page P i xs)) {off len : Nat}
    (fits : off + len ≤ xs.length) : read P tbl off len = some ((xs.drop off).take len) := by
  induction len generalizing off with
  | zero => simp
  | succ len ih =>
    have here : off < xs.length := by omega
    have start : off / P * P < xs.length := Nat.lt_of_le_of_lt (Nat.div_mul_le_self off P) here
    have elem : (page P (off / P) xs)[off % P]? = some xs[off] := by
      rw [page_getElem? positive, List.getElem?_eq_getElem here]
    simp only [read, pages _ start, elem]
    rw [ih (by omega), Option.map_some, List.drop_eq_getElem_cons here, List.take_succ_cons]

/-- A read that crosses the end of the sequence stops there when the last page is short,
and fails when the sequence ends on a page boundary. -/
theorem read_whole_past_end {tbl : Table α} {xs : List α} (positive : 0 < P) (holds : Holds P tbl xs)
    {off len : Nat} (start : off ≤ xs.length) (past : xs.length < off + len) :
    read P tbl off len = if xs.length % P = 0 then none else some (xs.drop off) := by
  obtain ⟨b, rfl, more⟩ : ∃ b, len = (xs.length - off) + b ∧ 0 < b := ⟨len - (xs.length - off), by omega, by omega⟩
  have front : read P tbl off (xs.length - off) = _ := read_whole positive holds.inside (by omega)
  have all : (xs.drop off).take (xs.length - off) = xs.drop off := List.take_of_length_le (by simp)
  have join : off + (xs.length - off) = xs.length := by omega
  rw [read_add, front, all]
  simp only [Option.bind_some, List.length_drop, if_true, join]
  have base := Nat.div_add_mod xs.length P
  split
  · rename_i aligned
    rw [read_missing (holds.outside _ (by rw [Nat.mul_comm]; omega)) more]
    rfl
  · rename_i unaligned
    have last : xs.length / P * P < xs.length := by rw [Nat.mul_comm]; omega
    rw [read_past (holds.inside _ last)]
    · simp
    · rw [page_length, Nat.mul_comm]; omega

/-- The first page from index `i` on that the table does not have. -/
structure FirstMissing (tbl : Table α) (i m : Nat) : Prop where
  from_le : i ≤ m
  missing : tbl m = none
  before : ∀ j, i ≤ j → j < m → (tbl j).isSome

/-- What the table has of pages `off / P` to `m`, from position `off` on. -/
def stored (P : Nat) (tbl : Table α) (off m : Nat) : List α :=
  ((List.range' (off / P) (m - off / P)).flatMap fun i => (tbl i).getD []).drop (off % P)

/-- What is stored from a position on begins with the element there. -/
theorem stored_cons {tbl : Table α} {off m : Nat} {pg : List α} {x : α} (positive : 0 < P)
    (present : tbl (off / P) = some pg) (within : pg.length ≤ P) (here : pg[off % P]? = some x)
    (below : off / P < m) : stored P tbl off m = x :: stored P tbl (off + 1) m := by
  obtain ⟨inPage, element⟩ := List.getElem?_eq_some_iff.mp here
  have range : List.range' (off / P) (m - off / P) = off / P :: List.range' (off / P + 1) (m - (off / P + 1)) := by
    rw [show m - off / P = (m - (off / P + 1)) + 1 by omega, List.range'_succ]
  have front : stored P tbl off m = x :: ((pg ++ (List.range' (off / P + 1) (m - (off / P + 1))).flatMap
      fun i => (tbl i).getD []).drop (off % P + 1)) := by
    rw [stored, range, List.flatMap_cons, present, Option.getD_some, List.drop_eq_getElem_cons (by simp; omega),
      List.getElem_append_left inPage, element]
  rw [front, stored]
  congr 1
  by_cases last : off % P + 1 = P
  · -- the next position opens the next page
    obtain ⟨div, mod⟩ := next_opens_page positive last
    rw [mod, div, List.drop_zero, List.drop_append_of_le_length (by omega), List.drop_of_length_le (by omega),
      List.nil_append]
  · have onPage := Nat.mod_lt off positive
    obtain ⟨div, mod⟩ := next_on_page (show off % P + 1 < P by omega)
    rw [mod, div, range, List.flatMap_cons, present, Option.getD_some]

/-- **A failing read** has met a first missing page, and every shorter read yields what is
stored before it, as far as that goes. -/
theorem read_eq_none {tbl : Table α} (positive : 0 < P) (within : ∀ i pg, tbl i = some pg → pg.length ≤ P)
    {off len : Nat} (failed : read P tbl off len = none) :
    ∃ m, FirstMissing tbl (off / P) m ∧
      ∀ a, read P tbl off a = if a ≤ (stored P tbl off m).length then some ((stored P tbl off m).take a) else none := by
  induction len generalizing off with
  | zero => simp at failed
  | succ len ih =>
    cases present : tbl (off / P) with
    | none =>
      refine ⟨off / P, ⟨le_refl _, present, fun j low high => by omega⟩, fun a => ?_⟩
      have nothing : stored P tbl off (off / P) = [] := by simp [stored]
      rw [nothing]
      cases a with
      | zero => simp
      | succ a => simp [read_missing present (Nat.succ_pos a)]
    | some pg =>
      cases here : pg[off % P]? with
      | none => simp [read, present, here] at failed
      | some x =>
        have rest : read P tbl (off + 1) len = none := by simpa [read, present, here] using failed
        obtain ⟨m, missing, reads⟩ := ih rest
        have next : off / P ≤ (off + 1) / P := Nat.div_le_div_right (by omega)
        have below : off / P < m := by
          have := missing.from_le
          rcases Nat.lt_or_eq_of_le (next.trans this) with less | same
          · exact less
          · rw [same, missing.missing] at present
            cases present
        refine ⟨m, ⟨below.le, missing.missing, fun j low high => ?_⟩, fun a => ?_⟩
        · by_cases first : j = off / P
          · rw [first, present]; rfl
          · apply missing.before j _ high
            have : (off + 1) / P ≤ off / P + 1 := by
              rw [← Nat.add_div_right off positive]
              exact Nat.div_le_div_right (by omega)
            omega
        · rw [stored_cons positive present (within _ _ present) here below]
          cases a with
          | zero => simp
          | succ a =>
            simp only [read, present, here, reads a, List.length_cons, Nat.add_le_add_iff_right, List.take_succ_cons]
            split <;> rfl

end Paging
