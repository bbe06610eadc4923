import LmdGhost.BlockTree.Viability
import LmdGhost.Outcome
/-!
Changes of scores. A first pass, from the newest node to the oldest, adds to every weight the
change of the node and of all nodes below it; a second pass in the same order chooses the best
child of every node, once all weights are final. The boost of the last change is taken back on the
way. Where a pass fails, what it has done so far stays.
-/

namespace LmdGhost.BlockTree

/-- New scores: a change of weight for every node, the boost and the epochs of the checkpoints. -/
structure ScoreChange where
  deltas : List Delta
  boost : Option Boost
  justifiedEpoch : Epoch
  finalizedEpoch : Epoch

/-- The nodes and the changes in weight that are still to be passed on to parents. -/
structure Tally where
  nodes : List Node
  deltas : List Delta

/-- A change with the score of a boost entered, if the boost is for this node. -/
def enterBoost (combine : Delta → Delta → Option Delta) (boost : Option Boost) (node : Node)
    (delta : Delta) : Option Delta :=
  match boost with
  | none => some delta
  | some boost =>
    if boost.root = node.root then (Delta.ofGwei? boost.score).bind (combine delta) else some delta

namespace Tally

/-- Passes the change of a node on to its parent. -/
def passUp (tally : Tally) (parent : Option Nat) (delta : Delta) : Outcome Tally Error Unit :=
  match parent with
  | none => .done tally ()
  | some parent =>
    match tally.deltas[parent]? with
    | none => .fail tally (.indexOutOfBounds parent)
    | some sum =>
      match sum.add? delta with
      | none => .fail tally (.deltaOverflow parent)
      | some sum => .done { tally with deltas := tally.deltas.set parent sum } ()

/-- Changes the weight of the node at a position. -/
def weigh (boost previous : Option Boost) (position : Nat) (tally : Tally) :
    Outcome Tally Error Unit :=
  match tally.nodes[position]?, tally.deltas[position]? with
  | some node, some delta =>
    match (enterBoost Delta.add? boost node delta).bind (enterBoost Delta.sub? previous node) with
    | none => .fail tally (.deltaOverflow position)
    | some delta =>
      match delta.addTo? node.weight with
      | none =>
        .fail tally (if delta < 0 then .deltaUnderflow position else .deltaOverflow position)
      | some weight =>
        passUp { tally with nodes := tally.nodes.set position { node with weight } }
          node.parentIndex delta
  | _, _ => .fail tally (.indexOutOfBounds position)

/-- Changes the weights of the first `count` nodes, from the last of them to the first. -/
def weighAll (boost previous : Option Boost) : (count : Nat) → Tally → Outcome Tally Error Unit
  | 0, tally => .done tally ()
  | count + 1, tally =>
    (tally.weigh boost previous count).bind fun tally _ => weighAll boost previous count tally

end Tally

/-- Whether a node comes before a sibling that leads to a head just as it does. -/
def outranks (node sibling : Node) : Bool :=
  sibling.weight < node.weight || (sibling.weight == node.weight && sibling.root ≤ node.root)

/-- A node after its child at a position was considered for its best child. -/
def consider (tree : BlockTree) (parent child : Node) (position : Nat) : Except Error Node := do
  let leads ← tree.leadsToHead child
  let chosen : Node :=
    { parent with
      bestChild := some position
      bestDescendant := some (child.bestDescendant.getD position) }
  match parent.bestChild with
  | none => return if leads then chosen else parent
  | some bestChild =>
    if bestChild = position then
      return if leads then chosen else { parent with bestChild := none, bestDescendant := none }
    else do
      let best ← tree.nodeAt bestChild
      let bestLeads ← tree.leadsToHead best
      if leads && !bestLeads then return chosen
      else if !leads && bestLeads then return parent
      else return if outranks child best then chosen else parent

/-- Considers the node at a position for the best child of its parent. -/
def choose (tree : BlockTree) (position : Nat) : Outcome BlockTree Error Unit :=
  match tree.nodeAt position with
  | .error cause => .fail tree cause
  | .ok child =>
    match child.parentIndex with
    | none => .done tree ()
    | some parentIndex =>
      match tree.nodeAt parentIndex >>= fun parent => tree.consider parent child position with
      | .error cause => .fail tree cause
      | .ok parent => .done { tree with nodes := tree.nodes.set parentIndex parent } ()

/-- Considers the first `count` nodes, from the last of them to the first. -/
def chooseAll : (count : Nat) → BlockTree → Outcome BlockTree Error Unit
  | 0, tree => .done tree ()
  | count + 1, tree => (tree.choose count).bind fun tree _ => chooseAll count tree

/-- Changes weights and chooses the best children again. -/
def applyScores (tree : BlockTree) (change : ScoreChange) : Outcome BlockTree Error Unit :=
  if change.deltas.length ≠ tree.nodes.length then
    .fail tree (.deltaCount change.deltas.length tree.nodes.length)
  else
    let tree := { tree with
      justifiedEpoch := change.justifiedEpoch
      finalizedEpoch := change.finalizedEpoch }
    let weighed := Tally.weighAll change.boost tree.boost tree.nodes.length
      { nodes := tree.nodes, deltas := change.deltas }
    (weighed.lift (fun tally => { tree with nodes := tally.nodes }) id).bind fun tree _ =>
      (chooseAll tree.nodes.length tree).bind fun tree _ =>
        .done { tree with boost := change.boost } ()

end LmdGhost.BlockTree
