import LmdGhost.Word
/-!
Decimal numerals: a number is written with its shortest digits and read from any string of ASCII
digits, leading zeros included.
-/

namespace LmdGhost.Decimal

/-- The number a list of decimal digits stands for; no digits stand for zero. -/
def read? (digits : List Char) : Option Nat :=
  if digits.all Char.isDigit then some (Nat.ofDigitChars 10 digits 0) else none

theorem read?_toDigits (n : Nat) : read? (Nat.toDigits 10 n) = some n := by
  have digits : (Nat.toDigits 10 n).all Char.isDigit = true :=
    List.all_eq_true.2 fun _ h => Nat.isDigit_of_mem_toDigits (by decide) (by decide) h
  rw [read?, if_pos digits, Nat.ofDigitChars_ten_toDigits]

/-- A word's numeral: at least one digit, after at most one plus sign. -/
def word? (text : String) : Option UInt64 :=
  let digits := match text.toList with
    | '+' :: digits => digits
    | digits => digits
  if digits.isEmpty then none else (read? digits).bind fun n => Word.ofInt? n

end LmdGhost.Decimal
