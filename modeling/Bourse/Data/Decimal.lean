import Mathlib.Algebra.Ring.Nat
import Mathlib.Data.List.Basic

/-!
# Decimal text

Writing a `u64` with leading zeros, and parsing it as `u64::from_str` does.
-/

namespace Bourse

namespace Decimal

/-- Decimal digits, padded with zeros to at least `width` characters. -/
def pad (width : Nat) (value : UInt64) : List Char :=
  let digits := Nat.toDigits 10 value.toNat
  List.replicate (width - digits.length) '0' ++ digits

/-- The value so far after one more digit. -/
def pushDigit (value : Nat) (char : Char) : Option Nat :=
  let next := 10 * value + (char.toNat - '0'.toNat)
  if char.isDigit ∧ next < 2 ^ 64 then some next else none

/-- `u64::from_str`: a plus sign may stand in front of the digits, of which there must
be one; a number that does not fit is an error. -/
def parseU64 (text : List Char) : Option UInt64 :=
  let digits := match text with
    | '+' :: digits => digits
    | _ => text
  if digits = [] then none else (digits.foldlM pushDigit 0).map UInt64.ofNat

theorem le_ofDigitChars (digits : List Char) (value : Nat) :
    value ≤ Nat.ofDigitChars 10 digits value := by
  rw [Nat.ofDigitChars_eq_ofDigitChars_zero]
  have scaled : value ≤ 10 ^ digits.length * value :=
    Nat.le_mul_of_pos_left value (Nat.pow_pos (by decide))
  exact Nat.le_add_right_of_le scaled

theorem foldlM_pushDigit {digits : List Char} {value : Nat}
    (valid : ∀ char ∈ digits, char.isDigit)
    (fits : Nat.ofDigitChars 10 digits value < 2 ^ 64) :
    digits.foldlM pushDigit value = some (Nat.ofDigitChars 10 digits value) := by
  induction digits generalizing value with
  | nil => rfl
  | cons char digits ih =>
      rw [Nat.ofDigitChars_cons] at fits ⊢
      have step : pushDigit value char =
          some (10 * value + (char.toNat - '0'.toNat)) :=
        if_pos ⟨valid char List.mem_cons_self,
          Nat.lt_of_le_of_lt (le_ofDigitChars digits _) fits⟩
      rw [List.foldlM_cons, step]
      exact ih (fun later member => valid later (List.mem_cons_of_mem _ member)) fits

theorem isDigit_of_mem_pad {width : Nat} {value : UInt64} {char : Char}
    (member : char ∈ pad width value) : char.isDigit := by
  rcases List.mem_append.mp member with zero | digit
  · rw [List.eq_of_mem_replicate zero]
    decide
  · exact Nat.isDigit_of_mem_toDigits (by decide) (by decide) digit

theorem pad_ne_nil (width : Nat) (value : UInt64) : pad width value ≠ [] := by
  intro empty
  have digits := (List.append_eq_nil_iff.mp empty).2
  exact absurd (congrArg List.length digits) (Nat.ne_of_gt Nat.length_toDigits_pos)

/-- Padded decimals are parsed back, whatever the width. -/
theorem parseU64_pad (width : Nat) (value : UInt64) :
    parseU64 (pad width value) = some value := by
  have valid : ∀ char ∈ pad width value, char.isDigit := fun _ => isDigit_of_mem_pad
  have number : Nat.ofDigitChars 10 (pad width value) 0 = value.toNat := by
    rw [pad, Nat.ofDigitChars_append, Nat.ofDigitChars_replicate_zero, Nat.mul_zero,
      Nat.ofDigitChars_ten_toDigits]
  have unsigned : ∀ digits, pad width value ≠ '+' :: digits := by
    intro digits signed
    have plus := valid '+' (by rw [signed]; exact List.mem_cons_self)
    exact absurd plus (by decide)
  have fits : Nat.ofDigitChars 10 (pad width value) 0 < 2 ^ 64 := by
    rw [number]
    exact value.toNat_lt
  rw [parseU64]
  · rw [if_neg (pad_ne_nil width value), foldlM_pushDigit valid fits, number,
      Option.map_some, UInt64.ofNat_toNat]
  · exact unsigned

end Decimal

end Bourse
