import LmdGhost.BeaconBlock
import LmdGhost.ForkChoice.Error
/-!
The first block with a payload has to build on the terminal block of the proof-of-work chain. That
is the block named by the configuration or, if it names none, the first to reach the terminal
difficulty.
-/

namespace LmdGhost.MergeTransition

open ForkChoice (Error)

/-- Whether a block reaches the terminal difficulty and its parent does not. -/
def checkTerminal (config : ChainConfig) (block parent : PowBlock) : Except Error Unit :=
  if block.difficulty < config.terminalDifficulty then
    .error (.invalidBlock (.terminalDifficultyNotReached block config.terminalDifficulty))
  else if parent.difficulty < config.terminalDifficulty then
    .ok ()
  else
    .error (.invalidBlock (.terminalDifficultyReachedByParent block parent))

/-- A block that the engine does not know is tolerated only by an optimistic engine. -/
def checkUnknown (engine : ExecutionEngine) (hash : Root) : Except Error Unit :=
  if engine.isOptimistic then .ok () else .error (.invalidBlock (.powBlockUnavailable hash))

/-- The check by a terminal hash that the configuration names. -/
def checkHash (preset : Preset) (config : ChainConfig) (block : BeaconBlock) (terminal : Root) :
    Except Error Unit :=
  if preset.epochOf block.slot < config.terminalHashEpoch then
    .error (.invalidBlock
      (.mergeTooEarly (preset.epochOf block.slot) config.terminalHashEpoch))
  else if block.payload.parentHash ≠ terminal then
    .error (.invalidBlock (.terminalHashMismatch terminal block.payload.parentHash))
  else
    .ok ()

/-- The check by difficulty, with the block and its parent as the engine knows them. -/
def checkDifficulty (config : ChainConfig) (block : BeaconBlock) (engine : ExecutionEngine) :
    Except Error Unit := do
  match ← (engine.powBlock? block.payload.parentHash).mapError .engine with
  | none => checkUnknown engine block.payload.parentHash
  | some terminal =>
    match ← (engine.powBlock? terminal.parent).mapError .engine with
    | none => checkUnknown engine terminal.parent
    | some parent => checkTerminal config terminal parent

/-- Whether a block builds on the terminal block; without an engine only a named hash is checked. -/
def validate (preset : Preset) (config : ChainConfig) (block : BeaconBlock)
    (engine : ExecutionEngine) : Except Error Unit :=
  match config.terminalHash? with
  | some terminal => checkHash preset config block terminal
  | none => if engine.isAbsent then .ok () else checkDifficulty config block engine

end LmdGhost.MergeTransition
