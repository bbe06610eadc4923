import LmdGhost.PayloadStatus
import LmdGhost.Root
/-!
Why an operation on the block tree fails.
-/

namespace LmdGhost.BlockTree

inductive Error where
  | deltaOverflow (index : Nat)
  | deltaUnderflow (index : Nat)
  | deltaCount (deltas nodes : Nat)
  | indexOutOfBounds (index : Nat)
  | unknownBlock (root : Root)
  | unknownJustified (root : Root)
  | unknownFinalized (root : Root)
  | headNotViable (root : Root)
  | statusFixed (root : Root) (old new : PayloadStatus)
deriving DecidableEq

def Error.message : Error → String
  | deltaOverflow index => s!"delta overflowed weight of node {index}"
  | deltaUnderflow index => s!"delta underflowed weight of node {index}"
  | deltaCount deltas nodes =>
    s!"number of deltas ({deltas}) does not match number of nodes ({nodes})"
  | indexOutOfBounds index => s!"node index is out of bounds: {index}"
  | unknownBlock root => s!"block is not in proto-array: {root.toHex}"
  | unknownJustified root => s!"justified block is not in proto-array: {root.toHex}"
  | unknownFinalized root => s!"finalized block is not in proto-array: {root.toHex}"
  | headNotViable root => s!"head found in proto-array is not viable: {root.toHex}"
  | statusFixed root old new =>
    s!"execution status of block cannot change (root: {root.toHex}, from: {old.name}, " ++
      s!"to: {new.name})"

end LmdGhost.BlockTree
