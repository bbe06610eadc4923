import LmdGhost.BlockTree.Basic
import LmdGhost.Outcome
/-!
Pruning: the nodes in front of the finalized block leave the tree, and the positions of the others
move down. A node whose parent is gone has no parent any more. Only a tree that was read from
outside can have a best link in front of the finalized block; pruning it fails at that link, with
the nodes before it moved and those after it not.
-/

namespace LmdGhost

/-- A position after `count` nodes in front are gone. -/
def shiftDown? (count position : Nat) : Option Nat :=
  if count ≤ position then some (position - count) else none

namespace Node

/-- A best link after `count` nodes in front are gone; the node it leads to must still be there. -/
def shiftLink (count : Nat) : Option Nat → Except BlockTree.Error (Option Nat)
  | none => .ok none
  | some position =>
    match shiftDown? count position with
    | some position => .ok (some position)
    | none => .error (.indexOutOfBounds position)

/-- A node with its links moved down. -/
def shiftLinks (count : Nat) (node : Node) : Outcome Node BlockTree.Error Unit :=
  let node := { node with parentIndex := node.parentIndex.bind (shiftDown? count) }
  match shiftLink count node.bestChild with
  | .error cause => .fail node cause
  | .ok bestChild =>
    let node := { node with bestChild }
    match shiftLink count node.bestDescendant with
    | .error cause => .fail node cause
    | .ok bestDescendant => .done { node with bestDescendant } ()

/-- Nodes with their links moved down, in order. -/
def shiftAllLinks (count : Nat) : List Node → Outcome (List Node) BlockTree.Error Unit
  | [] => .done [] ()
  | node :: nodes =>
    let moved := node.shiftLinks count
    match moved.result with
    | .error cause => .fail (moved.state :: nodes) cause
    | .ok () => (shiftAllLinks count nodes).lift (moved.state :: ·) id

end Node

namespace BlockTree

def setPruneThreshold (tree : BlockTree) (pruneThreshold : UInt64) : BlockTree :=
  { tree with pruneThreshold }

/-- Removes the nodes in front of the finalized block if there are enough of them. -/
def prune (tree : BlockTree) (finalized : Root) : Outcome BlockTree Error (List Node) :=
  match tree.index[finalized]? with
  | none => .fail tree (.unknownFinalized finalized)
  | some count =>
    if count < tree.pruneThreshold.toNat then
      .done tree []
    else
      let removed := tree.nodes.take count
      let tree : BlockTree := { tree with
        nodes := tree.nodes.drop count
        index := tree.index.forget (removed.map (·.root)) }
      match tree.index.entries.find? (·.2 < count) with
      | some (_, position) => .fail tree (.indexOutOfBounds position)
      | none =>
        let moved := Node.shiftAllLinks count tree.nodes
        let tree := { tree with index := tree.index.shiftDown count }
        (moved.lift (fun nodes => { tree with nodes }) id).bind fun tree _ =>
          (Outcome.done tree removed).report
            (if removed.isEmpty then [] else [.pruned removed.length finalized])

end BlockTree

end LmdGhost
