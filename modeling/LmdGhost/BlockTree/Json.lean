import LmdGhost.BlockTree.Basic
/-!
The JSON form of the block tree. The index is not written; reading builds it from the nodes, and
the last of several nodes with one root is the one that is indexed. A tree is read only if its
links stay within the nodes and every parent stands before its child.
-/

namespace LmdGhost

namespace Node

def toJson (node : Node) : Json :=
  .object [
    ("slot", .word node.slot),
    ("root", node.root.toJson),
    ("parent_root", .option Root.toJson node.parent),
    ("parent", .option (.integer ·) node.parentIndex),
    ("state_root", node.stateRoot.toJson),
    ("target_root", node.target.toJson),
    ("justified_checkpoint", node.justified.toJson),
    ("finalized_checkpoint", node.finalized.toJson),
    ("weight", .word node.weight),
    ("best_child", .option (.integer ·) node.bestChild),
    ("best_descendant", .option (.integer ·) node.bestDescendant),
    ("execution_status", node.status.toJson),
    ("execution_payload_block_hash", .option Root.toJson node.payload)]

def ofJson? (json : Json) : Option Node := do
  let fields ← json.fields?
  return {
    slot := ← fields.required "slot" Json.word?
    root := ← fields.required "root" Root.ofJson?
    parent := ← fields.optional "parent_root" Root.ofJson?
    parentIndex := ← fields.optional "parent" Json.index?
    stateRoot := ← fields.required "state_root" Root.ofJson?
    target := ← fields.required "target_root" Root.ofJson?
    justified := ← fields.required "justified_checkpoint" Checkpoint.ofJson?
    finalized := ← fields.required "finalized_checkpoint" Checkpoint.ofJson?
    weight := ← fields.required "weight" Json.word?
    bestChild := ← fields.optional "best_child" Json.index?
    bestDescendant := ← fields.optional "best_descendant" Json.index?
    status := ← fields.required "execution_status" PayloadStatus.ofJson?
    payload := ← fields.optional "execution_payload_block_hash" Root.ofJson? }

/--
The first link of a node, out of `count`, that leaves the tree, or a parent that is no earlier.
-/
def linkFault? (count position : Nat) (node : Node) : Option Nat :=
  let links := [node.parentIndex, node.bestChild, node.bestDescendant].filterMap id
  match links.find? (count ≤ ·) with
  | some link => some link
  | none => if node.parentIndex.any (position ≤ ·) then some position else none

end Node

namespace Boost

def toJson (boost : Boost) : Json :=
  .object [("root", boost.root.toJson), ("score", .word boost.score)]

def ofJson? (json : Json) : Option Boost := do
  let fields ← json.fields?
  return {
    root := ← fields.required "root" Root.ofJson?
    score := ← fields.required "score" Json.word? }

end Boost

namespace RootIndex

/-- The positions of roots in a list; of equal roots the last one counts. -/
def ofRoots (roots : List Root) : RootIndex :=
  roots.zipIdx.foldl (fun index (root, position) => index.insert root position) ∅

end RootIndex

namespace BlockTree

/-- Why a JSON value is no block tree. -/
inductive DecodeError where
  | malformed
  /-- The value has the form of a tree, but a link leads nowhere. -/
  | link (position : Nat)
deriving DecidableEq

def DecodeError.message? : DecodeError → Option String
  | malformed => none
  | link position => some (Error.message (.indexOutOfBounds position))

def toJson (tree : BlockTree) : Json :=
  .object [
    ("prune_threshold", .word tree.pruneThreshold),
    ("justified_epoch", .word tree.justifiedEpoch),
    ("finalized_epoch", .word tree.finalizedEpoch),
    ("previous_proposer_boost", .option Boost.toJson tree.boost),
    ("nodes", .list Node.toJson tree.nodes)]

/-- Reads the fields of a tree without looking at the links. -/
def ofFields? (json : Json) : Option BlockTree := do
  let fields ← json.fields?
  let nodes ← fields.required "nodes" (Json.list? Node.ofJson?)
  return {
    pruneThreshold := ← fields.required "prune_threshold" Json.word?
    justifiedEpoch := ← fields.required "justified_epoch" Json.word?
    finalizedEpoch := ← fields.required "finalized_epoch" Json.word?
    boost := ← fields.optional "previous_proposer_boost" Boost.ofJson?
    nodes
    index := .ofRoots (nodes.map (·.root)) }

/-- The first fault in the links, in the order of the nodes. -/
def linkFault? (tree : BlockTree) : Option Nat :=
  tree.nodes.zipIdx.findSome? fun (node, position) => node.linkFault? tree.size position

def ofJson (json : Json) : Except DecodeError BlockTree :=
  match ofFields? json with
  | none => .error .malformed
  | some tree =>
    match tree.linkFault? with
    | some position => .error (.link position)
    | none => .ok tree

end BlockTree

end LmdGhost
