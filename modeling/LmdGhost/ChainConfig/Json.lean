import LmdGhost.ChainConfig.Basic
/-!
The JSON form of a chain configuration. Numbers are written natively and read natively or from
decimal strings, as configuration files have them; the terminal difficulty is written as a decimal
string. A missing key stands for the value of the unnamed chain, and unknown keys are passed over.
-/

namespace LmdGhost.ChainConfig

/-- A word, written natively or as a decimal string. -/
def word? : Json → Option UInt64
  | .string text => Decimal.word? text
  | json => json.word?

/-- A difficulty, written as a decimal string or, if it fits a word, natively. -/
def difficulty? : Json → Option Difficulty
  | .string text => Difficulty.ofDecimal? text
  | json => json.word?.map fun w => Difficulty.ofNat w.toNat

def toJson (config : ChainConfig) : Json :=
  .object [
    ("CONFIG_NAME", .string config.name),
    ("PRESET_BASE", config.preset.toJson),
    ("SECONDS_PER_SLOT", .word config.secondsPerSlot),
    ("PROPOSER_SCORE_BOOST", .word config.boostPercent),
    ("SAFE_SLOTS_TO_UPDATE_JUSTIFIED", .word config.safeSlots),
    ("TERMINAL_TOTAL_DIFFICULTY", .string config.terminalDifficulty.toDecimal),
    ("TERMINAL_BLOCK_HASH", config.terminalHash.toJson),
    ("TERMINAL_BLOCK_HASH_ACTIVATION_EPOCH", .word config.terminalHashEpoch)]

def ofJson? (json : Json) : Option ChainConfig := do
  let fields ← json.fields?
  let name ← fields.orDefault "CONFIG_NAME" unnamed.name Json.string?
  let preset ← fields.orDefault "PRESET_BASE" unnamed.preset Preset.ofJson?
  let secondsPerSlot ← fields.orDefault "SECONDS_PER_SLOT" unnamed.secondsPerSlot word?
  let boostPercent ← fields.orDefault "PROPOSER_SCORE_BOOST" unnamed.boostPercent word?
  let safeSlots ← fields.orDefault "SAFE_SLOTS_TO_UPDATE_JUSTIFIED" unnamed.safeSlots word?
  let terminalDifficulty ←
    fields.orDefault "TERMINAL_TOTAL_DIFFICULTY" unnamed.terminalDifficulty difficulty?
  let terminalHash ← fields.orDefault "TERMINAL_BLOCK_HASH" unnamed.terminalHash Root.ofJson?
  let terminalHashEpoch ←
    fields.orDefault "TERMINAL_BLOCK_HASH_ACTIVATION_EPOCH" unnamed.terminalHashEpoch word?
  if nonzero : secondsPerSlot ≠ 0 then
    some {
      name, preset, secondsPerSlot, boostPercent, safeSlots, terminalDifficulty, terminalHash
      terminalHashEpoch
      secondsPerSlot_ne_zero := nonzero }
  else
    none

end LmdGhost.ChainConfig
