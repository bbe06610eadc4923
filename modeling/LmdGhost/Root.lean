import LmdGhost.Json
import LmdGhost.Text.Hex
import Std.Data.ExtTreeMap
/-!
Block roots and payload hashes: 32 bytes, ordered as bytes. The bytes are read as one number, most
significant first, so the order of roots is the order of numbers. A root is written as a marker and
64 digits, and what is written reads back.
-/

namespace LmdGhost

/-- A 32-byte hash: a block root, a state root or a payload's block hash. -/
structure Root where
  bits : BitVec 256
deriving DecidableEq, Inhabited

namespace Root

def zero : Root := ⟨0⟩

def isZero (root : Root) : Bool :=
  root == zero

def toNat (root : Root) : Nat :=
  root.bits.toNat

def ofNat (n : Nat) : Root :=
  ⟨BitVec.ofNat 256 n⟩

/-- A root has 64 digits. -/
theorem toNat_lt (root : Root) : root.toNat < Hex.count 64 :=
  Nat.lt_of_lt_of_eq root.bits.isLt (by decide)

@[simp]
theorem ofNat_toNat (root : Root) : ofNat root.toNat = root := by
  simp [ofNat, toNat]

theorem toNat_inj {a b : Root} : a.toNat = b.toNat ↔ a = b :=
  ⟨fun h => by rw [← ofNat_toNat a, h, ofNat_toNat], fun h => h ▸ rfl⟩

instance : LE Root := ⟨fun a b => a.toNat ≤ b.toNat⟩

instance (a b : Root) : Decidable (a ≤ b) :=
  inferInstanceAs (Decidable (a.toNat ≤ b.toNat))

instance : Ord Root := ⟨fun a b => compareOfLessAndEq a.toNat b.toNat⟩

instance : Std.TransOrd Root where
  eq_swap {a b} := @Std.OrientedCmp.eq_swap _ instOrdNat.compare _ a.toNat b.toNat
  isLE_trans {a b c} := @Std.TransCmp.isLE_trans _ instOrdNat.compare _ a.toNat b.toNat c.toNat

instance : Std.LawfulEqOrd Root where
  eq_of_compare {a b} h :=
    toNat_inj.1 (@Std.LawfulEqCmp.eq_of_compare _ instOrdNat.compare _ a.toNat b.toNat h)

/-- The text of a root: `0x` and 64 digits. -/
def toHex (root : Root) : String :=
  String.ofList ('0' :: 'x' :: Hex.padded 64 root.toNat)

/--
Reads a text of 64 characters, with or without the marker. Where it has fewer digits, because of
blanks, zeros follow those it has.
-/
def ofHex? (text : String) : Option Root :=
  let numeral := Hex.dropMarker text.toList
  if numeral.length = 64 then
    (Hex.read? numeral).map fun digits => ofNat (Hex.ofDigits (digits.rightpad 64 0))
  else
    none

@[simp]
theorem ofHex?_toHex (root : Root) : ofHex? root.toHex = some root := by
  simp [ofHex?, toHex, Hex.dropMarker, Hex.read?_padded (show 64 % 2 = 0 from rfl),
    List.rightpad, Hex.ofDigits_digits root.toNat_lt]

/-- The text of a root that may be missing. -/
def describe? : Option Root → String
  | none => "None"
  | some root => "Some(" ++ root.toHex ++ ")"

def toJson (root : Root) : Json :=
  .string root.toHex

def ofJson? (json : Json) : Option Root :=
  json.string?.bind ofHex?

end Root

end LmdGhost
