import LmdGhost.Difficulty
import LmdGhost.Preset
import LmdGhost.Root
/-!
The parameters on which all nodes of a chain agree, with the values of the known chains and the
rules a configuration has to keep.
-/

namespace LmdGhost

structure ChainConfig where
  name : String
  preset : Preset
  secondsPerSlot : UInt64
  /-- The weight of a timely block, in percent of a committee. -/
  boostPercent : UInt64
  /-- For how many slots of an epoch the justified checkpoint may still move freely. -/
  safeSlots : UInt64
  terminalDifficulty : Difficulty
  /-- Zero where the terminal block is found by its difficulty. -/
  terminalHash : Root
  terminalHashEpoch : Epoch
  secondsPerSlot_ne_zero : secondsPerSlot ≠ 0
deriving DecidableEq

namespace ChainConfig

/-- A chain without a name of its own, whose terminal difficulty is out of reach. -/
def unnamed : ChainConfig where
  name := "default"
  preset := .mainnet
  secondsPerSlot := 12
  boostPercent := 40
  safeSlots := 8
  terminalDifficulty := .ofNat (Difficulty.bound - 1024)
  terminalHash := .zero
  terminalHashEpoch := 0xffffffffffffffff
  secondsPerSlot_ne_zero := by decide

instance : Inhabited ChainConfig := ⟨unnamed⟩

def mainnet : ChainConfig :=
  { unnamed with name := "mainnet", terminalDifficulty := .ofNat 58750000000000000000000 }

def minimal : ChainConfig :=
  { unnamed with
    name := "minimal"
    preset := .minimal
    secondsPerSlot := 6
    secondsPerSlot_ne_zero := by decide }

/-- The configuration of the chain a preset is made for. -/
def ofPreset : Preset → ChainConfig
  | .mainnet => mainnet
  | .minimal => minimal

/-- What is wrong with a configuration. -/
inductive Error where
  | emptyName
  | illegalName
  | boostTooLarge (percent : UInt64)
deriving DecidableEq, Repr

def Error.message : Error → String
  | .emptyName => "configuration name is empty"
  | .illegalName => "configuration name contains illegal characters"
  | .boostTooLarge percent =>
    s!"PROPOSER_SCORE_BOOST is a percentage and cannot exceed 100: {percent}"

/-- Names are made of lower-case letters, digits and dashes. -/
def isNameChar (c : Char) : Bool :=
  ('a' ≤ c && c ≤ 'z') || ('0' ≤ c && c ≤ '9') || c == '-'

def validate (config : ChainConfig) : Except Error Unit :=
  if config.name.toList.isEmpty then .error .emptyName
  else if !config.name.toList.all isNameChar then .error .illegalName
  else if config.boostPercent > 100 then .error (.boostTooLarge config.boostPercent)
  else .ok ()

/-- The hash that names the terminal block, if the configuration gives one. -/
def terminalHash? (config : ChainConfig) : Option Root :=
  if config.terminalHash.isZero then none else some config.terminalHash

end ChainConfig

end LmdGhost
