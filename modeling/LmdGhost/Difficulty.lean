import LmdGhost.Json
import LmdGhost.Text.Hex
import LmdGhost.Text.Decimal
/-!
Total difficulties of proof-of-work chains: numbers below 2^256. A chain configuration writes one in
decimal, a block in hexadecimal.
-/

namespace LmdGhost

structure Difficulty where
  bits : BitVec 256
deriving DecidableEq, Inhabited

namespace Difficulty

def toNat (difficulty : Difficulty) : Nat :=
  difficulty.bits.toNat

def ofNat (n : Nat) : Difficulty :=
  ⟨BitVec.ofNat 256 n⟩

/-- The first number that is no difficulty. -/
def bound : Nat :=
  0x10000000000000000000000000000000000000000000000000000000000000000

/-- The difficulty of a number that is in range. -/
def ofNat? (n : Nat) : Option Difficulty :=
  if n < bound then some (ofNat n) else none

instance : LT Difficulty := ⟨fun a b => a.toNat < b.toNat⟩

instance (a b : Difficulty) : Decidable (a < b) :=
  inferInstanceAs (Decidable (a.toNat < b.toNat))

theorem toNat_lt (difficulty : Difficulty) : difficulty.toNat < bound :=
  difficulty.bits.isLt

@[simp]
theorem ofNat?_toNat (difficulty : Difficulty) : ofNat? difficulty.toNat = some difficulty := by
  rw [ofNat?, if_pos difficulty.toNat_lt]
  simp [ofNat, toNat]

def toDecimal (difficulty : Difficulty) : String :=
  String.ofList (Nat.toDigits 10 difficulty.toNat)

/-- Reads decimal digits; the empty text stands for zero. -/
def ofDecimal? (text : String) : Option Difficulty :=
  (Decimal.read? text.toList).bind ofNat?

@[simp]
theorem ofDecimal?_toDecimal (difficulty : Difficulty) :
    ofDecimal? difficulty.toDecimal = some difficulty := by
  simp [ofDecimal?, toDecimal, Decimal.read?_toDigits]

/-- The text of a difficulty in a block: `0x` and the shortest digits. -/
def toHex (difficulty : Difficulty) : String :=
  String.ofList ('0' :: 'x' :: Hex.shortest difficulty.toNat)

/-- Reads a text of 1 to 64 characters, with or without the marker. -/
def ofHex? (text : String) : Option Difficulty :=
  let numeral := Hex.dropMarker text.toList
  if 1 ≤ numeral.length ∧ numeral.length ≤ 64 then
    (Hex.read? numeral).map fun digits => ofNat (Hex.ofDigits digits)
  else
    none

end Difficulty

end LmdGhost
