import LmdGhost.BlockTree.Basic
/-!
The chain of a block: the block and its ancestors, newest first. Questions about ancestry are
questions about chains. A chain has no more nodes than the tree, since parents stand before their
children. Only where pruning has failed, in a tree that was read from outside, may parents lead in a
circle; as many steps as the tree has nodes then still reach all that can be reached.
-/

namespace LmdGhost.BlockTree

/-- At most `steps` nodes of the chain that starts at a position. -/
def chainFrom (nodes : List Node) : (steps position : Nat) → List Node
  | 0, _ => []
  | steps + 1, position =>
    match nodes[position]? with
    | none => []
    | some node =>
      match node.parentIndex with
      | none => [node]
      | some parent => node :: chainFrom nodes steps parent

/-- The chain of a root, empty for a root that is not in the tree. -/
def chain (tree : BlockTree) (root : Root) : List Node :=
  match tree.index[root]? with
  | none => []
  | some position => chainFrom tree.nodes tree.nodes.length position

/--
The block of a chain at a slot, or the last one before it where the slot is empty. There is none if
the chain starts later.
-/
def ancestor (tree : BlockTree) (root : Root) (slot : Slot) : Except Error (Option Root) :=
  if tree.contains root then
    .ok (((tree.chain root).find? (·.slot ≤ slot)).map (·.root))
  else
    .error (.unknownBlock root)

/-- Whether `ancestor` is `descendant` or one of its ancestors. -/
def isDescendant (tree : BlockTree) (ancestor descendant : Root) : Bool :=
  match tree.node? ancestor with
  | none => false
  | some node =>
    ((tree.chain descendant).takeWhile (node.slot ≤ ·.slot)).any (·.root == ancestor)

/--
The first block that two chains share, found by stepping down the chain that is at the later slot.
-/
def meet : List Node → List Node → Option Root
  | a :: as, b :: bs =>
    if a.root = b.root then some a.root
    else if b.slot < a.slot then meet as (b :: bs)
    else if a.slot < b.slot then meet (a :: as) bs
    else meet as bs
  | _, _ => none
termination_by as bs => as.length + bs.length

/--
The last block that is on the chains of both roots. Two walks that meet do so before they come to
the same two positions again, hence within as many steps as there are pairs of nodes.
-/
def commonAncestor (tree : BlockTree) (a b : Root) : Option Root :=
  match tree.index[a]?, tree.index[b]? with
  | some i, some j =>
    let steps := tree.size * tree.size
    meet (chainFrom tree.nodes steps i) (chainFrom tree.nodes steps j)
  | _, _ => none

end LmdGhost.BlockTree
