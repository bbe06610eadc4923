/-!
Hexadecimal numerals. They are written in lower case and read in either case, and reading takes the
digits in pairs: blanks are passed over, a text of odd length is read as if a zero stood in front,
and a last digit without a partner is left out. A numeral that is written with an even number of
digits reads back as its digits, and these stand for its number.
-/

namespace LmdGhost.Hex

/-- The value of a digit of either case. -/
def digit? (c : Char) : Option Nat :=
  if '0' ≤ c ∧ c ≤ '9' then some (c.toNat - 48)
  else if 'a' ≤ c ∧ c ≤ 'f' then some (c.toNat - 87)
  else if 'A' ≤ c ∧ c ≤ 'F' then some (c.toNat - 55)
  else none

/-- Spaces, tabs and line ends. -/
def isBlank (c : Char) : Bool :=
  c == ' ' || c == '\t' || c == '\n' || c == '\r'

/-- The last `width` digits of a number, leading zeros included. -/
def digits : (width : Nat) → Nat → List Nat
  | 0, _ => []
  | width + 1, n => digits width (n / 16) ++ [n % 16]

/-- How many numbers can be written with `width` digits. -/
def count : (width : Nat) → Nat
  | 0 => 1
  | width + 1 => 16 * count width

/-- The number that digits stand for. -/
def ofDigits (digits : List Nat) : Nat :=
  digits.foldl (16 * · + ·) 0

/-- The numeral of the last `width` digits of a number. -/
def padded (width n : Nat) : List Char :=
  (digits width n).map Nat.digitChar

/-- The digits of a number without leading zeros; zero is written as one digit. -/
def shortest (n : Nat) : List Char :=
  Nat.toDigits 16 n

/-- The digits of a text, read in pairs. Blanks count for its length. -/
def read? (text : List Char) : Option (List Nat) :=
  ((text.filter (!isBlank ·)).mapM digit?).map fun digits =>
    let digits := if text.length % 2 = 0 then digits else 0 :: digits
    digits.take (digits.length / 2 * 2)

/-- A numeral without its marker, if it has one. -/
def dropMarker : List Char → List Char
  | '0' :: 'x' :: digits => digits
  | digits => digits

@[simp]
theorem length_digits (width n : Nat) : (digits width n).length = width := by
  induction width generalizing n with
  | zero => rfl
  | succ width ih => simp [digits, ih]

@[simp]
theorem length_padded (width n : Nat) : (padded width n).length = width := by
  simp [padded]

theorem lt_of_mem_digits {width n d : Nat} (h : d ∈ digits width n) : d < 16 := by
  induction width generalizing n with
  | zero => cases h
  | succ width ih =>
    rcases List.mem_append.1 h with high | low
    · exact ih high
    · rw [List.mem_singleton.1 low]
      exact Nat.mod_lt n (by decide)

theorem ofDigits_digits {width n : Nat} (h : n < count width) : ofDigits (digits width n) = n := by
  induction width generalizing n with
  | zero =>
    rw [count] at h
    have zero : n = 0 := by omega
    rw [zero]
    rfl
  | succ width ih =>
    have high : ofDigits (digits width (n / 16)) = n / 16 := ih (by rw [count] at h; omega)
    rw [ofDigits] at high
    rw [ofDigits, digits, List.foldl_append, high]
    exact Nat.div_add_mod n 16

theorem digit?_digitChar {d : Nat} (h : d < 16) : digit? (Nat.digitChar d) = some d := by
  revert d
  decide

theorem isBlank_digitChar {d : Nat} (h : d < 16) : isBlank (Nat.digitChar d) = false := by
  revert d
  decide

theorem mapM_digit?_digitChar {ds : List Nat} (h : ∀ d ∈ ds, d < 16) :
    (ds.map Nat.digitChar).mapM digit? = some ds := by
  induction ds with
  | nil => rfl
  | cons d ds ih =>
    rw [List.map_cons, List.mapM_cons, digit?_digitChar (h d List.mem_cons_self),
      ih fun e he => h e (List.mem_cons_of_mem d he)]
    rfl

theorem read?_padded {width : Nat} (even : width % 2 = 0) (n : Nat) :
    read? (padded width n) = some (digits width n) := by
  have unblank : (padded width n).filter (!isBlank ·) = padded width n := by
    refine List.filter_eq_self.2 fun c hc => ?_
    obtain ⟨d, hd, rfl⟩ := List.mem_map.1 hc
    rw [isBlank_digitChar (lt_of_mem_digits hd)]
    rfl
  have whole : width / 2 * 2 = width := by omega
  rw [read?, unblank, length_padded, padded,
    mapM_digit?_digitChar fun d hd => lt_of_mem_digits hd, Option.map_some, if_pos even]
  simp only [length_digits, whole, List.take_of_length_le (Nat.le_of_eq (length_digits width n))]

end LmdGhost.Hex
