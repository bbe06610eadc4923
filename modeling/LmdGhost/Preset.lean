import LmdGhost.Json
/-!
The two presets of the chain and the slot arithmetic that depends on them: which epoch a slot is in,
where an epoch starts and how far into its epoch a slot is.
-/

namespace LmdGhost

inductive Preset where
  | mainnet
  | minimal
deriving DecidableEq, Repr

namespace Preset

instance : Inhabited Preset := ⟨mainnet⟩

def slotsPerEpoch : Preset → UInt64
  | mainnet => 32
  | minimal => 8

def name : Preset → String
  | mainnet => "mainnet"
  | minimal => "minimal"

def ofName? : String → Option Preset
  | "mainnet" => some mainnet
  | "minimal" => some minimal
  | _ => none

@[simp]
theorem ofName?_name (preset : Preset) : ofName? preset.name = some preset := by
  cases preset <;> rfl

def toJson (preset : Preset) : Json :=
  .string preset.name

def ofJson? (json : Json) : Option Preset :=
  json.string?.bind ofName?

/-- The epoch of a slot. -/
def epochOf (preset : Preset) (slot : Slot) : Epoch :=
  slot / preset.slotsPerEpoch

/-- The first slot of an epoch, or the last slot of all if that epoch is never reached. -/
def startSlot (preset : Preset) (epoch : Epoch) : Slot :=
  Word.satMul epoch preset.slotsPerEpoch

def isEpochStart (preset : Preset) (slot : Slot) : Bool :=
  Word.isMultiple slot preset.slotsPerEpoch

/-- The number of slots between the start of a slot's epoch and the slot. -/
def slotsIntoEpoch (preset : Preset) (slot : Slot) : UInt64 :=
  slot - Word.roundDown slot preset.slotsPerEpoch

end Preset

end LmdGhost
