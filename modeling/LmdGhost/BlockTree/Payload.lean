import LmdGhost.BlockTree.Basic
import LmdGhost.Outcome
/-!
Verdicts on payloads. A valid payload confirms the syncing blocks of its chain down to the first
that was confirmed before; an invalid one rejects its block and the syncing blocks below it. A
verdict that contradicts an earlier one fails, and the statuses it has changed so far stay
changed.
-/

namespace LmdGhost.BlockTree

/-- Confirms at most `steps` nodes of the chain that starts at a position. -/
def confirmFrom : (steps position : Nat) → List Node → Outcome (List Node) Error Unit
  | 0, _, nodes => .done nodes ()
  | steps + 1, position, nodes =>
    match nodes[position]? with
    | none => .fail nodes (.indexOutOfBounds position)
    | some node =>
      match node.status with
      | .valid | .preMerge => .done nodes ()
      | .invalid => .fail nodes (.statusFixed node.root .invalid .valid)
      | .syncing =>
        let nodes := nodes.set position { node with status := .valid }
        match node.parentIndex with
        | none => .done nodes ()
        | some parent => confirmFrom steps parent nodes

/--
Marks a block's payload and those of its syncing ancestors as valid. Every step but the last
confirms a node, so there are no more steps than nodes and one.
-/
def confirm (tree : BlockTree) (root : Root) : Outcome BlockTree Error Unit :=
  match tree.indexOf root with
  | .error cause => .fail tree cause
  | .ok position =>
    (confirmFrom (tree.nodes.length + 1) position tree.nodes).lift
      (fun nodes => { tree with nodes }) id

/-- Rejects the node at a position if its parent is invalid and stands at `start` or after it. -/
def rejectAt (start position : Nat) (nodes : List Node) : Outcome (List Node) Error (List Root) :=
  match nodes[position]? with
  | none => .fail nodes (.indexOutOfBounds position)
  | some node =>
    match node.parentIndex with
    | none => .done nodes []
    | some parentIndex =>
      if parentIndex < start then
        .done nodes []
      else
        match nodes[parentIndex]? with
        | none => .fail nodes (.indexOutOfBounds parentIndex)
        | some parent =>
          if parent.status.isInvalid then
            match node.status with
            | .syncing => .done (nodes.set position { node with status := .invalid }) [node.root]
            | .invalid => .done nodes []
            | .valid => .fail nodes (.statusFixed node.root .valid .invalid)
            | .preMerge => .fail nodes (.statusFixed node.root .preMerge .invalid)
          else
            .done nodes []

/--
Rejects what has to be rejected among the `count` nodes from a position on, and lists the roots.
-/
def rejectFrom (start : Nat) :
    (count position : Nat) → List Node → Outcome (List Node) Error (List Root)
  | 0, _, nodes => .done nodes []
  | count + 1, position, nodes =>
    (rejectAt start position nodes).bind fun nodes rejected =>
      (rejectFrom start count (position + 1) nodes).bind fun nodes others =>
        .done nodes (rejected ++ others)

/-- Marks a block's payload and those of its descendants as invalid, and lists the roots. -/
def reject (tree : BlockTree) (root : Root) : Outcome BlockTree Error (List Root) :=
  match tree.indexOf root with
  | .error cause => .fail tree cause
  | .ok start =>
    match tree.nodeAt start with
    | .error cause => .fail tree cause
    | .ok node =>
      match node.status with
      | .invalid => .done tree []
      | .valid => .fail tree (.statusFixed root .valid .invalid)
      | .preMerge => .fail tree (.statusFixed root .preMerge .invalid)
      | .syncing =>
        let nodes := tree.nodes.set start { node with status := .invalid }
        let swept := rejectFrom start (nodes.length - (start + 1)) (start + 1) nodes
        (swept.lift (fun nodes => { tree with nodes }) id).bind fun tree rejected =>
          (Outcome.done tree (root :: rejected)).report [.invalidated (rejected.length + 1) root]

end LmdGhost.BlockTree
