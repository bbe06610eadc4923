import LmdGhost.BlockTree.Basic
/-!
Which nodes may become the head: those whose payload is not invalid and whose state has justified
and finalized what the tree has. The epoch of genesis agrees with every state.
-/

namespace LmdGhost.BlockTree

def isViable (tree : BlockTree) (node : Node) : Bool :=
  !node.status.isInvalid &&
    (node.justified.epoch == tree.justifiedEpoch || tree.justifiedEpoch == 0) &&
    (node.finalized.epoch == tree.finalizedEpoch || tree.finalizedEpoch == 0)

/-- Whether a node or its best descendant is viable. -/
def leadsToHead (tree : BlockTree) (node : Node) : Except Error Bool :=
  match node.bestDescendant with
  | none => .ok (tree.isViable node)
  | some position => do
    let best ← tree.nodeAt position
    return tree.isViable best || tree.isViable node

/-- The best descendant of a justified block, or that block itself. -/
def findHead (tree : BlockTree) (justified : Root) : Except Error Root :=
  match tree.index[justified]? with
  | none => .error (.unknownJustified justified)
  | some position => do
    let node ← tree.nodeAt position
    let best ← tree.nodeAt (node.bestDescendant.getD position)
    if tree.isViable best then return best.root else throw (.headNotViable best.root)

end LmdGhost.BlockTree
