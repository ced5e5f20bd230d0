import Mathlib.Tactic.Common

/-!
# Decimal numbers in text

A number is written as its digits without leading zeros, and read back as far
as the digits go.
-/

namespace Decimal

/-- The digits of a number, as `%u` prints it. -/
def print (value : Nat) : List Char := Nat.toDigits 10 value

def value (digits : List Char) : Nat := Nat.ofDigitChars 10 digits 0

theorem value_print (number : Nat) : value (print number) = number :=
  Nat.ofDigitChars_toDigits (by decide) (by decide)

theorem print_injective {first second : Nat}
    (same : print first = print second) : first = second := by
  rw [← value_print first, ← value_print second, same]

theorem isDigit_of_mem_print {number : Nat} {char : Char}
    (member : char ∈ print number) : char.isDigit = true :=
  Nat.isDigit_of_mem_toDigits (by decide) (by decide) member

theorem split_at_separator {separator : Char} {first second rest rest' :
    List Char} (notFirst : separator ∉ first) (notSecond : separator ∉ second)
    (same : first ++ separator :: rest = second ++ separator :: rest') :
    first = second ∧ rest = rest' := by
  induction first generalizing second with
  | nil =>
      cases second with
      | nil => exact ⟨rfl, (List.cons.inj same).2⟩
      | cons char second =>
          obtain rfl := (List.cons.inj same).1
          exact absurd List.mem_cons_self notSecond
  | cons char first induction =>
      cases second with
      | nil =>
          obtain rfl := (List.cons.inj same).1
          exact absurd List.mem_cons_self notFirst
      | cons char' second =>
          obtain ⟨rfl, tails⟩ := List.cons.inj same
          obtain ⟨rfl, rests⟩ := induction
            (fun member => notFirst (List.mem_cons_of_mem _ member))
            (fun member => notSecond (List.mem_cons_of_mem _ member)) tails
          exact ⟨rfl, rests⟩

theorem separator_not_mem_print {number : Nat} {separator : Char}
    (notDigit : separator.isDigit = false) : separator ∉ print number := by
  intro member
  rw [isDigit_of_mem_print member] at notDigit
  cases notDigit

end Decimal
