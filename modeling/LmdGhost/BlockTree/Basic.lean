import LmdGhost.BlockTree.Error
import LmdGhost.Checkpoint
import LmdGhost.RootIndex
/-!
The tree of imported blocks. Its nodes are kept in the order of import, so a parent stands before
its children, and refer to one another by position. A node carries the weight of the votes for its
subtree and a link to the best leaf below it, both as of the last change of scores.
-/

namespace LmdGhost

/-- A block as it is entered into the tree. -/
structure Block where
  slot : Slot
  root : Root
  /-- Missing for the block that fork choice starts from. -/
  parent : Option Root
  stateRoot : Root
  /-- The block that stands for the epoch of this one. -/
  target : Root
  justified : Checkpoint
  finalized : Checkpoint
  status : PayloadStatus
  payload : Option Root
deriving DecidableEq, Inhabited

/-- A block in the tree. -/
structure Node extends Block where
  parentIndex : Option Nat := none
  weight : Gwei := 0
  bestChild : Option Nat := none
  bestDescendant : Option Nat := none
deriving DecidableEq, Inhabited

/-- Weight lent to a timely block. -/
structure Boost where
  root : Root
  score : Gwei
deriving DecidableEq, Inhabited

structure BlockTree where
  /-- How many nodes pruning has to find before it removes any. -/
  pruneThreshold : UInt64
  justifiedEpoch : Epoch
  finalizedEpoch : Epoch
  /-- The boost that is part of the weights. -/
  boost : Option Boost
  nodes : List Node
  index : RootIndex

namespace BlockTree

def empty (pruneThreshold : UInt64) (justifiedEpoch finalizedEpoch : Epoch) : BlockTree where
  pruneThreshold
  justifiedEpoch
  finalizedEpoch
  boost := none
  nodes := []
  index := ∅

def size (tree : BlockTree) : Nat :=
  tree.nodes.length

def contains (tree : BlockTree) (root : Root) : Bool :=
  tree.index.contains root

/-- The node of a root. -/
def node? (tree : BlockTree) (root : Root) : Option Node :=
  tree.index[root]?.bind (tree.nodes[·]?)

def weight? (tree : BlockTree) (root : Root) : Option Gwei :=
  (tree.node? root).map (·.weight)

/-- The node at a position. -/
def nodeAt (tree : BlockTree) (position : Nat) : Except Error Node :=
  match tree.nodes[position]? with
  | some node => .ok node
  | none => .error (.indexOutOfBounds position)

/-- The position of a root. -/
def indexOf (tree : BlockTree) (root : Root) : Except Error Nat :=
  match tree.index[root]? with
  | some position => .ok position
  | none => .error (.unknownBlock root)

/--
Appends a block, linked to its parent if the tree has it. A block that is there is not replaced.
-/
def insert (tree : BlockTree) (block : Block) : BlockTree :=
  if tree.contains block.root then
    tree
  else
    let parentIndex := block.parent.bind (tree.index[·]?)
    { tree with
      nodes := tree.nodes ++ [{ block with parentIndex }]
      index := tree.index.insert block.root tree.nodes.length }

end BlockTree

end LmdGhost
