import LmdGhost.BlockTree.Error
import LmdGhost.ChainConfig.Basic
import LmdGhost.ExecutionEngine
import LmdGhost.Store
/-!
Why fork choice refuses a block, an attestation or another call. Refusing an input that breaks the
rules is the regular case; every other cause is internal.
-/

namespace LmdGhost

/-- The rules that a block may break. -/
inductive InvalidBlock where
  | unknownParent (root parent : Root)
  | futureSlot (block current : Slot)
  | finalizedSlot (block finalized : Slot)
  | notFinalizedDescendant (finalized : Root) (ancestor : Option Root)
  | mergeTooEarly (epoch activation : Epoch)
  | terminalHashMismatch (expected actual : Root)
  | terminalDifficultyNotReached (block : PowBlock) (terminal : Difficulty)
  | terminalDifficultyReachedByParent (block parent : PowBlock)
  | powBlockUnavailable (hash : Root)
deriving DecidableEq

def InvalidBlock.message : InvalidBlock → String
  | unknownParent root parent =>
    s!"parent of block is unknown (root: {root.toHex}, parent root: {parent.toHex})"
  | futureSlot block current =>
    s!"block is from a future slot (block slot: {block}, current slot: {current})"
  | finalizedSlot block finalized =>
    s!"block is not later than finalized block (block slot: {block}, " ++
      s!"finalized slot: {finalized})"
  | notFinalizedDescendant finalized ancestor =>
    s!"block does not descend from finalized block (finalized root: {finalized.toHex}, " ++
      s!"ancestor at finalized slot: {Root.describe? ancestor})"
  | mergeTooEarly epoch activation =>
    s!"merge block proposed before activation epoch (epoch: {epoch}, " ++
      s!"activation epoch: {activation})"
  | terminalHashMismatch expected actual =>
    s!"terminal PoW block has incorrect hash (expected: {expected.toHex}, " ++
      s!"actual: {actual.toHex})"
  | terminalDifficultyNotReached block terminal =>
    s!"terminal PoW block did not reach terminal total difficulty " ++
      s!"(pow_block: {block.describe}, terminal total difficulty: {terminal.toDecimal})"
  | terminalDifficultyReachedByParent block parent =>
    s!"parent of terminal PoW block reached terminal total difficulty " ++
      s!"(pow_block: {block.describe}, parent: {parent.describe})"
  | powBlockUnavailable hash =>
    s!"PoW block is not available from execution engine: {hash.toHex}"

/-- The rules that an attestation may break. -/
inductive InvalidAttestation where
  | noValidators
  | unknownHead (head : Root)
  | unknownTarget (target : Root)
  | targetEpochMismatch (target slot : Epoch)
  | futureEpoch (target current : Epoch)
  | pastEpoch (target current : Epoch)
  | targetMismatch (target expected : Root)
  | unknownValidator (validator : ValidatorIndex) (count : Nat)
  | futureBlock (block attestation : Slot)
deriving DecidableEq

def InvalidAttestation.message : InvalidAttestation → String
  | noValidators => "attestation has no attesting indices"
  | unknownHead head => s!"attestation votes for an unknown block: {head.toHex}"
  | unknownTarget target => s!"attestation targets an unknown block: {target.toHex}"
  | targetEpochMismatch target slot =>
    s!"attestation target epoch does not match its slot (target epoch: {target}, " ++
      s!"slot epoch: {slot})"
  | futureEpoch target current =>
    s!"attestation targets a future epoch (target epoch: {target}, current epoch: {current})"
  | pastEpoch target current =>
    s!"attestation targets an epoch that is too old (target epoch: {target}, " ++
      s!"current epoch: {current})"
  | targetMismatch target expected =>
    s!"attestation target is inconsistent with its LMD GHOST vote " ++
      s!"(attestation target: {target.toHex}, expected target: {expected.toHex})"
  | unknownValidator validator count =>
    s!"attestation includes an unknown validator (validator index: {validator}, " ++
      s!"validator count: {count})"
  | futureBlock block attestation =>
    s!"attestation votes for a block from the future (block slot: {block}, " ++
      s!"attestation slot: {attestation})"

namespace ForkChoice

inductive Error where
  | invalidBlock (cause : InvalidBlock)
  | invalidAttestation (cause : InvalidAttestation)
  /-- The justified checkpoint would move behind the slot of a block's state. -/
  | justificationReverted (justified block : Slot)
  /-- A tick that does not lead to the same or to the next slot. -/
  | slotSkipped (previous slot : Slot)
  | missingBlock (root : Root)
  /-- The state does not know the block at the start of the block's epoch. -/
  | missingTarget (slot : Slot)
  /-- A checkpoint advanced, but the balances of its state were not supplied. -/
  | missingBalances (justified : Root)
  | config (cause : ChainConfig.Error)
  | tree (cause : BlockTree.Error)
  | store (cause : Store.Error)
  | engine (cause : ExecutionEngine.Error)
  | overflow (cause : Overflow)
deriving DecidableEq

namespace Error

def message : Error → String
  | invalidBlock cause => cause.message
  | invalidAttestation cause => cause.message
  | justificationReverted justified block =>
    s!"attempted to revert justification (justified slot: {justified}, block slot: {block})"
  | slotSkipped previous slot =>
    s!"time went backwards or skipped a slot (previous slot: {previous}, slot: {slot})"
  | missingBlock root => s!"block is missing from proto-array: {root.toHex}"
  | missingTarget slot =>
    s!"post-state has no block root for the first slot of the block's epoch: {slot}"
  | missingBalances justified =>
    s!"no validator balances supplied for justified checkpoint: {justified.toHex}"
  | config cause => cause.message
  | tree cause => cause.message
  | store cause => cause.message
  | engine cause => cause.message
  | overflow cause => cause.message

/-- Whether the cause is something else than an input that breaks the rules. -/
def isInternal : Error → Bool
  | invalidBlock _ | invalidAttestation _ => false
  | _ => true

/-- What is reported when a call fails. -/
def notices : Error → List Notice
  | justificationReverted justified block => [.justificationReverted justified block]
  | _ => []

/-- A failure of a walk over the tree, where an unknown block is one that should be there. -/
def ofTree : BlockTree.Error → Error
  | .unknownBlock root => missingBlock root
  | .unknownJustified root => missingBlock root
  | cause => tree cause

end Error

end ForkChoice

end LmdGhost
