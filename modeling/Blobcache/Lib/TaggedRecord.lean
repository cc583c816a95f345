import Mathlib.Algebra.Group.Nat.Defs
import Mathlib.Logic.Equiv.Defs

/-!
# Records with tagged fields

A record whose fields carry tags is written as a list of tags and texts and read back from
a map of texts, field by field, as the kind of the field says. A text that does not parse
is read as zero. What is read is the record that was written, whatever else the map has.
-/

namespace TaggedRecord
set_option autoImplicit false

/-- `strconv.ParseUint` in base 10. -/
def parseUint (bitSize : Nat) (text : String) : Option Nat :=
  let digits := text.toList
  if digits ≠ [] ∧ digits.all Char.isDigit ∧ Nat.ofDigitChars 10 digits 0 < 2 ^ bitSize
  then some (Nat.ofDigitChars 10 digits 0)
  else none

theorem parseUint_repr {bitSize n : Nat} (fits : n < 2 ^ bitSize) : parseUint bitSize n.repr = some n := by
  have digits : (Nat.toDigits 10 n).all Char.isDigit = true := by
    rw [List.all_eq_true]
    intro c member
    exact Nat.isDigit_of_mem_toDigits (by decide) (by decide) member
  unfold parseUint
  simp only [Nat.toList_repr, Nat.ofDigitChars_ten_toDigits]
  exact if_pos ⟨Nat.toDigits_ne_nil, digits, fits⟩

inductive Kind where
  | string
  | uint32
  | uint64

namespace Kind

abbrev type : Kind → Type
  | string => String
  | uint32 => UInt32
  | uint64 => UInt64

/-- `fmt.Sprintf("%v")`. -/
def print : (kind : Kind) → kind.type → String
  | string, text => text
  | uint32, n => n.toNat.repr
  | uint64, n => n.toNat.repr

def parse : (kind : Kind) → String → kind.type
  | string, text => text
  | uint32, text => .ofNat ((parseUint 32 text).getD 0)
  | uint64, text => .ofNat ((parseUint 64 text).getD 0)

theorem parse_print (kind : Kind) (value : kind.type) : kind.parse (kind.print value) = value := by
  cases kind with
  | string => rfl
  | uint32 =>
    simp only [parse, print, parseUint_repr value.toNat_lt, Option.getD_some]
    exact UInt32.ofNat_toNat
  | uint64 =>
    simp only [parse, print, parseUint_repr value.toNat_lt, Option.getD_some]
    exact UInt64.ofNat_toNat

end Kind

/-- The fields of a record, and a record as the values of its fields. -/
structure Layout (R ι : Type) where
  fields : List ι
  complete : ∀ i, i ∈ fields
  tag : ι → String
  tag_injective : Function.Injective tag
  kind : ι → Kind
  view : R ≃ ((i : ι) → (kind i).type)

namespace Layout

variable {R ι : Type} (layout : Layout R ι)

def toSlice (r : R) : List (String × String) :=
  layout.fields.map fun i => (layout.tag i, (layout.kind i).print (layout.view r i))

/-- A field whose tag is not in the map stays as it is. -/
def toStruct (m : List (String × String)) (out : R) : R :=
  layout.view.symm fun i =>
    match m.lookup (layout.tag i) with
    | none => layout.view out i
    | some text => (layout.kind i).parse text

/-- Every field is written, and under its tag nothing else. -/
theorem mem_toSlice (r : R) (i : ι) :
    (layout.tag i, (layout.kind i).print (layout.view r i)) ∈ layout.toSlice r ∧
      ∀ field ∈ layout.toSlice r, field.1 = layout.tag i → field.2 = (layout.kind i).print (layout.view r i) := by
  refine ⟨List.mem_map_of_mem (layout.complete i), ?_⟩
  rintro field member same
  obtain ⟨j, -, rfl⟩ := List.mem_map.mp member
  cases layout.tag_injective same
  rfl

/-- **A record is read as it was written.** -/
theorem toStruct_of_written {m : List (String × String)} {r : R}
    (written : ∀ i, m.lookup (layout.tag i) = some ((layout.kind i).print (layout.view r i))) (out : R) :
    layout.toStruct m out = r := by
  unfold toStruct
  rw [Equiv.symm_apply_eq]
  funext i
  simp only [written i]
  exact Kind.parse_print _ _

end Layout

end TaggedRecord
