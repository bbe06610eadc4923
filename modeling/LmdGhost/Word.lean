/-!
Slots, epochs, amounts and times are 64-bit words. This module holds their arithmetic: sums and
products that stop at the largest word, sums that report overflow, and signed changes to unsigned
amounts. Each operation is tied to exact integers by one lemma.
-/

namespace LmdGhost

abbrev Slot := UInt64

abbrev Epoch := UInt64

abbrev Gwei := UInt64

abbrev UnixSeconds := UInt64

abbrev ValidatorIndex := UInt64

abbrev CommitteeIndex := UInt64

/-- Effective balances by validator index; an inactive validator has balance 0. -/
abbrev Balances := List Gwei

/-- The balance of a validator, 0 past the end of the list. -/
def Balances.of (balances : Balances) (validator : Nat) : Gwei :=
  balances[validator]?.getD 0

/-- A calculation whose exact result does not fit a word. -/
inductive Overflow where
  | addition
  | multiplication
deriving DecidableEq, Repr

def Overflow.message : Overflow → String
  | .addition => "attempt to add with overflow"
  | .multiplication => "attempt to multiply with overflow"

namespace Word

/-- The word of an exact integer, if it is in range. -/
def ofInt? (n : Int) : Option UInt64 :=
  if 0 ≤ n ∧ n < UInt64.size then some (UInt64.ofNat n.toNat) else none

theorem ofInt?_eq_some {n : Int} {w : UInt64} : ofInt? n = some w ↔ (w.toNat : Int) = n := by
  have bound := w.toNat_lt_size
  unfold ofInt?
  split
  · rename_i range
    rw [Option.some.injEq, ← UInt64.toNat_inj, UInt64.toNat_ofNat_of_lt' (by omega)]
    omega
  · simp only [reduceCtorEq, false_iff]
    omega

/-- The sum, or the largest word if the sum is larger. -/
def satAdd (a b : UInt64) : UInt64 :=
  UInt64.ofNat (min (a.toNat + b.toNat) (UInt64.size - 1))

@[simp]
theorem toNat_satAdd (a b : UInt64) :
    (satAdd a b).toNat = min (a.toNat + b.toNat) (UInt64.size - 1) :=
  UInt64.toNat_ofNat_of_lt' (by simp only [UInt64.size]; omega)

/-- The product, or the largest word if the product is larger. -/
def satMul (a b : UInt64) : UInt64 :=
  UInt64.ofNat (min (a.toNat * b.toNat) (UInt64.size - 1))

@[simp]
theorem toNat_satMul (a b : UInt64) :
    (satMul a b).toNat = min (a.toNat * b.toNat) (UInt64.size - 1) :=
  UInt64.toNat_ofNat_of_lt' (by simp only [UInt64.size]; omega)

/-- The exact sum. -/
def add (a b : UInt64) : Except Overflow UInt64 :=
  (ofInt? (a.toNat + b.toNat)).elim (.error .addition) .ok

theorem add_eq_ok {a b c : UInt64} : add a b = .ok c ↔ c.toNat = a.toNat + b.toNat := by
  rw [add, ← Int.natCast_inj, Int.natCast_add, ← ofInt?_eq_some]
  cases ofInt? (a.toNat + b.toNat) <;> simp

/-- The exact product. -/
def mul (a b : UInt64) : Except Overflow UInt64 :=
  (ofInt? (a.toNat * b.toNat)).elim (.error .multiplication) .ok

theorem mul_eq_ok {a b c : UInt64} : mul a b = .ok c ↔ c.toNat = a.toNat * b.toNat := by
  rw [mul, ← Int.natCast_inj, Int.natCast_mul, ← ofInt?_eq_some]
  cases ofInt? (a.toNat * b.toNat) <;> simp

/-- Whether `n` is a multiple of `factor`. -/
def isMultiple (n factor : UInt64) : Bool :=
  n % factor == 0

/-- The greatest multiple of `factor` that is not above `n`. -/
def roundDown (n factor : UInt64) : UInt64 :=
  n - n % factor

theorem toNat_roundDown (n factor : UInt64) :
    (roundDown n factor).toNat = n.toNat - n.toNat % factor.toNat := by
  have below : n % factor ≤ n := by
    rw [UInt64.le_iff_toNat_le, UInt64.toNat_mod]
    exact Nat.mod_le _ _
  rw [roundDown, UInt64.toNat_sub_of_le _ _ below, UInt64.toNat_mod]

end Word

/-- A signed change of an amount. -/
abbrev Delta := Int64

namespace Delta

/-- The change of an exact integer, if it is in range. -/
def ofInt? (n : Int) : Option Delta :=
  if Int64.minValue.toInt ≤ n ∧ n ≤ Int64.maxValue.toInt then some (Int64.ofInt n) else none

theorem ofInt?_eq_some {n : Int} {d : Delta} : ofInt? n = some d ↔ d.toInt = n := by
  have upper := d.toInt_lt
  have lower := d.le_toInt
  unfold ofInt?
  simp only [Int64.toInt_minValue, Int64.toInt_maxValue]
  split
  · rename_i range
    rw [Option.some.injEq, ← Int64.toInt_inj, Int64.toInt_ofInt_of_le range.1 (by omega)]
    exact eq_comm
  · simp only [reduceCtorEq, false_iff]
    omega

/-- An amount as a change that adds it. -/
def ofGwei? (amount : Gwei) : Option Delta :=
  ofInt? amount.toNat

def add? (a b : Delta) : Option Delta :=
  ofInt? (a.toInt + b.toInt)

def sub? (a b : Delta) : Option Delta :=
  ofInt? (a.toInt - b.toInt)

/-- An amount after a change, if neither too small nor too large. -/
def addTo? (change : Delta) (amount : Gwei) : Option Gwei :=
  Word.ofInt? (amount.toNat + change.toInt)

end Delta

end LmdGhost
