import Mathlib.Data.List.Nodup

/-!
# Hexadecimal encoding

Two lower-case digits a byte. The encoding is injective and its characters are digits and
the letters `a` to `f`, so that a separator outside them can follow it.
-/

namespace Hex
set_option autoImplicit false

def digits : List Char :=
  ['0', '1', '2', '3', '4', '5', '6', '7', '8', '9', 'a', 'b', 'c', 'd', 'e', 'f']

def digit (n : Fin 16) : Char := digits.get n

def encodeByte (b : UInt8) : List Char :=
  [digit ⟨b.toNat / 16, by have := b.toNat_lt; omega⟩, digit ⟨b.toNat % 16, by omega⟩]

def encodeToString (bytes : List UInt8) : String := String.ofList (bytes.flatMap encodeByte)

def fromHexChar (c : Char) : Option Nat :=
  if '0' ≤ c ∧ c ≤ '9' then some (c.toNat - '0'.toNat)
  else if 'a' ≤ c ∧ c ≤ 'f' then some (c.toNat - 'a'.toNat + 10)
  else if 'A' ≤ c ∧ c ≤ 'F' then some (c.toNat - 'A'.toNat + 10)
  else none

def decodeString : List Char → Option (List UInt8)
  | [] => some []
  | [_] => none
  | high :: low :: rest => do
    let high ← fromHexChar high
    let low ← fromHexChar low
    return .ofNat (16 * high + low) :: (← decodeString rest)

theorem digit_injective : Function.Injective digit := by
  have distinct : digits.Nodup := by decide
  exact List.nodup_iff_injective_get.mp distinct

theorem encodeByte_injective {a b : UInt8} (same : encodeByte a = encodeByte b) : a = b := by
  simp only [encodeByte, List.cons.injEq, and_true] at same
  have high := congrArg Fin.val (digit_injective same.1)
  have low := congrArg Fin.val (digit_injective same.2)
  dsimp only at high low
  exact UInt8.toNat_inj.mp (by omega)

theorem encodeToString_injective : Function.Injective encodeToString := by
  intro xs ys same
  have chars : xs.flatMap encodeByte = ys.flatMap encodeByte := String.ofList_inj.mp same
  clear same
  induction xs generalizing ys with
  | nil =>
    cases ys with
    | nil => rfl
    | cons y ys => simp [encodeByte] at chars
  | cons x xs ih =>
    cases ys with
    | nil => simp [encodeByte] at chars
    | cons y ys =>
      rw [List.flatMap_cons, List.flatMap_cons] at chars
      obtain ⟨front, back⟩ := List.append_inj chars rfl
      rw [encodeByte_injective front, ih back]

theorem length_encodeToString (bytes : List UInt8) : (encodeToString bytes).toList.length = 2 * bytes.length := by
  rw [encodeToString, String.toList_ofList]
  induction bytes with
  | nil => rfl
  | cons b bytes ih =>
    have two : (encodeByte b).length = 2 := rfl
    rw [List.flatMap_cons, List.length_append, ih, two, List.length_cons]
    omega

/-- Every character of an encoding is a digit. -/
theorem mem_encodeToString {bytes : List UInt8} {c : Char} (member : c ∈ (encodeToString bytes).toList) :
    c ∈ digits := by
  rw [encodeToString, String.toList_ofList, List.mem_flatMap] at member
  obtain ⟨b, -, member⟩ := member
  simp only [encodeByte, List.mem_cons, List.not_mem_nil, or_false] at member
  rcases member with rfl | rfl
  · exact List.get_mem digits _
  · exact List.get_mem digits _

end Hex
