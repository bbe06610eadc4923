import LmdGhost.Proofs.BlockTree.WellFormed
/-!
Links within bounds. All that the operations on a tree need in order to find every node they look
for: an indexed position is that of a node with the root, a parent stands before its child, and a
best link leads to some node. A well-formed tree has more than that, since its best links lead to
nodes below; a tree that was read from outside may have just that.
-/

namespace LmdGhost

def Node.LinksTo (node : Node) (position : Nat) : Prop :=
  node.bestChild = some position ∨ node.bestDescendant = some position

namespace BlockTree

structure Bounded (tree : BlockTree) : Prop where
  indexed : ∀ {root : Root} {i : Nat}, tree.index[root]? = some i →
    ∃ node : Node, tree.nodes[i]? = some node ∧ node.root = root
  first : ParentsFirst (parents tree.nodes)
  links : ∀ {node : Node} {link : Nat}, node ∈ tree.nodes → node.LinksTo link →
    link < tree.nodes.length

namespace Bounded

variable {tree tree' : BlockTree} {node : Node} {root : Root} {i p : Nat}

theorem index_lt (bounded : tree.Bounded) (index : tree.index[root]? = some i) :
    i < tree.nodes.length := by
  obtain ⟨node, at_i, -⟩ := bounded.indexed index
  exact (List.getElem?_eq_some_iff.mp at_i).1

theorem exists_parent (bounded : tree.Bounded) (at_i : tree.nodes[i]? = some node)
    (link : node.parentIndex = some p) :
    p < i ∧ ∃ parent, tree.nodes[p]? = some parent := by
  have before := bounded.first (parents_of_getElem? at_i link)
  have bound := (List.getElem?_eq_some_iff.mp at_i).1
  exact ⟨before, _, List.getElem?_eq_getElem (Nat.lt_trans before bound)⟩

theorem exists_linked (bounded : tree.Bounded) (at_i : tree.nodes[i]? = some node) {link : Nat}
    (links : node.LinksTo link) : ∃ linked, tree.nodes[link]? = some linked :=
  ⟨_, List.getElem?_eq_getElem (bounded.links (List.mem_of_getElem? at_i) links)⟩

theorem of_places (bounded : tree.Bounded)
    (nodes : tree'.nodes.map Node.place = tree.nodes.map Node.place)
    (index : tree'.index = tree.index) : tree'.Bounded where
  indexed := by
    intro root i at_root
    rw [index] at at_root
    obtain ⟨node, at_i, rfl⟩ := bounded.indexed at_root
    obtain ⟨node', at_i', same⟩ := getElem?_of_map_eq nodes.symm at_i
    exact ⟨node', at_i', congrArg (·.1) same⟩
  first := by
    rw [parents_eq_of_places nodes]
    exact bounded.first
  links := by
    intro node link member links
    obtain ⟨i, at_i⟩ := List.mem_iff_getElem?.mp member
    obtain ⟨node', at_i', same⟩ := getElem?_of_map_eq nodes at_i
    simp only [Node.place, Prod.mk.injEq] at same
    obtain ⟨-, -, -, child, descendant⟩ := same
    have length : tree'.nodes.length = tree.nodes.length := by
      simpa using congrArg List.length nodes
    rw [length]
    refine bounded.links (List.mem_of_getElem? at_i') ?_
    rw [Node.LinksTo, child, descendant]
    exact links

end Bounded

theorem WellFormed.lt_of_linksTo {tree : BlockTree} (wf : tree.WellFormed) {node : Node}
    {i link : Nat} (at_i : tree.nodes[i]? = some node) (leads : node.LinksTo link) :
    i < link ∧ link < tree.nodes.length := by
  have links := wf.best at_i
  rw [← length_parents]
  rcases leads with child | descendant
  · rw [child] at links
    exact ⟨links.child_gt wf.first, (List.getElem?_eq_some_iff.mp links.childOf).1⟩
  · generalize node.bestChild = best at links
    rw [descendant] at links
    cases links with
    | set childOf below =>
      have after_child := below.le wf.first
      exact ⟨Nat.lt_of_lt_of_le (wf.first childOf) after_child, below.lt_length⟩

theorem WellFormed.bounded {tree : BlockTree} (wf : tree.WellFormed) : tree.Bounded where
  indexed := wf.indexed.mp
  first := wf.first
  links := by
    intro node link member leads
    obtain ⟨i, at_i⟩ := List.mem_iff_getElem?.mp member
    exact (wf.lt_of_linksTo at_i leads).2

end BlockTree

end LmdGhost
