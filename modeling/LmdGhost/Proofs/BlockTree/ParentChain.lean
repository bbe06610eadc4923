import LmdGhost.Proofs.BlockTree.Slots
/-!
The chain of a block, link by link: the block itself and the chain of its parent. In a well-formed
tree the walks go along this chain and miss nothing of it, and from any of its blocks on they go
along the chain of that block. Where slots grow, all blocks of a chain but the first are earlier
than that, so no two blocks are on the chains of one another.
-/

namespace LmdGhost.BlockTree

def parentOf? (tree : BlockTree) (node : Node) : Option Node :=
  node.parentIndex.bind (tree.nodes[·]?)

/-- The nodes of a root's chain: the node of the root, and those of the chain of its parent. -/
inductive OnChain (tree : BlockTree) (node : Node) : Root → Prop where
  | self {root : Root} : tree.node? root = some node → OnChain tree node root
  | up {root : Root} {child parent : Node} : tree.node? root = some child →
      tree.parentOf? child = some parent → OnChain tree node parent.root → OnChain tree node root

variable {tree : BlockTree} {root : Root} {node top parent : Node} {i : Nat}

theorem parentOf?_eq_some : tree.parentOf? node = some parent ↔
    ∃ p, node.parentIndex = some p ∧ tree.nodes[p]? = some parent :=
  Option.bind_eq_some_iff

namespace OnChain

theorem exists_top (on_chain : tree.OnChain node root) : ∃ top, tree.node? root = some top := by
  cases on_chain with
  | self found => exact ⟨node, found⟩
  | up found => exact ⟨_, found⟩

theorem not_of_node? (unknown : tree.node? root = none) : ¬tree.OnChain node root := by
  intro on_chain
  obtain ⟨top, found⟩ := on_chain.exists_top
  rw [unknown] at found
  contradiction

theorem iff_of_node? (found : tree.node? root = some top) : tree.OnChain node root ↔
    node = top ∨ ∃ parent, tree.parentOf? top = some parent ∧ tree.OnChain node parent.root := by
  constructor
  · intro on_chain
    cases on_chain with
    | self found' => exact .inl (Option.some.inj (found'.symm.trans found))
    | up found' linked above =>
      obtain rfl := Option.some.inj (found'.symm.trans found)
      exact .inr ⟨_, linked, above⟩
  · rintro (rfl | ⟨parent, linked, above⟩)
    · exact .self found
    · exact .up found linked above

end OnChain

/-- Links to earlier blocks can be told by looking at every node. -/
theorem climbs_iff : tree.Climbs ↔
    ∀ node ∈ tree.nodes, (tree.parentOf? node).all (·.slot < node.slot) = true := by
  constructor
  · intro climbs node member
    obtain ⟨i, at_i⟩ := List.mem_iff_getElem?.mp member
    cases linked : tree.parentOf? node with
    | none => rfl
    | some parent =>
      obtain ⟨p, link, at_p⟩ := parentOf?_eq_some.mp linked
      simpa using climbs at_i link at_p
  · intro later i p node parent at_i link at_p
    have checked := later node (List.mem_of_getElem? at_i)
    rw [parentOf?_eq_some.mpr ⟨p, link, at_p⟩] at checked
    simpa using checked

instance (tree : BlockTree) : Decidable tree.Climbs :=
  decidable_of_iff (∀ node ∈ tree.nodes, (tree.parentOf? node).all (·.slot < node.slot) = true)
    climbs_iff.symm

namespace WellFormed

theorem root_of_node? (wf : tree.WellFormed) (found : tree.node? root = some node) :
    node.root = root := by
  obtain ⟨i, -, named⟩ := wf.node?_eq_some.mp found
  exact named

theorem not_onChain_of_not_contains (wf : tree.WellFormed)
    (unknown : tree.contains root = false) : ¬tree.OnChain node root := by
  intro on_chain
  obtain ⟨top, found⟩ := on_chain.exists_top
  obtain ⟨i, at_i, rfl⟩ := wf.node?_eq_some.mp found
  rw [wf.contains_root at_i] at unknown
  contradiction

/-- The list that walks go along starts with the node and goes on with the list of its parent. -/
theorem chain_eq_cons (wf : tree.WellFormed) (at_i : tree.nodes[i]? = some node) :
    tree.chain node.root =
      node :: (tree.parentOf? node).elim [] fun parent => tree.chain parent.root := by
  cases link : node.parentIndex with
  | none => simp [wf.chain_eq at_i, parentOf?, link]
  | some p =>
    obtain ⟨-, parent, at_p, -⟩ := wf.parent at_i link
    simp [wf.chain_of_link at_i link at_p, parentOf?, link, at_p]

theorem chain_eq_nil (wf : tree.WellFormed) (unknown : tree.node? root = none) :
    tree.chain root = [] := by
  cases index : tree.index[root]? with
  | none => simp [chain, index]
  | some i =>
    obtain ⟨node, at_i, rfl⟩ := wf.indexed.mp index
    rw [wf.node?_root at_i] at unknown
    contradiction

theorem mem_chain (wf : tree.WellFormed) : node ∈ tree.chain root ↔ tree.OnChain node root := by
  cases found : tree.node? root with
  | none =>
    rw [wf.chain_eq_nil found]
    exact iff_of_false List.not_mem_nil (OnChain.not_of_node? found)
  | some top =>
    obtain ⟨i, at_i, rfl⟩ := wf.node?_eq_some.mp found
    induction i using Nat.strongRecOn generalizing top with
    | ind i ih =>
      rw [OnChain.iff_of_node? found, wf.chain_eq_cons at_i, List.mem_cons]
      cases linked : tree.parentOf? top with
      | none => simp
      | some parent =>
        obtain ⟨p, link, at_p⟩ := parentOf?_eq_some.mp linked
        have above := ih p (wf.parent at_i link).1 parent at_p (wf.node?_root at_p)
        simp [above]

theorem node?_of_onChain (wf : tree.WellFormed) (on_chain : tree.OnChain node root) :
    tree.node? node.root = some node :=
  wf.node?_of_mem_chain (wf.mem_chain.mpr on_chain)

/-- From a node of a chain on, a walk goes along the chain of that node. -/
theorem chain_of_suffix (wf : tree.WellFormed) {before rest : List Node}
    (split : tree.chain root = before ++ node :: rest) : tree.chain node.root = node :: rest := by
  have on_chain : tree.OnChain node root := wf.mem_chain.mp (by simp [split])
  obtain ⟨top, found⟩ := on_chain.exists_top
  obtain ⟨i, at_i, rfl⟩ := wf.node?_eq_some.mp found
  clear on_chain found
  induction before generalizing i top with
  | nil =>
    have begins := wf.chain_eq_cons at_i
    rw [split, List.nil_append, List.cons.injEq] at begins
    rw [begins.1, split, begins.1, List.nil_append]
  | cons first before ih =>
    rw [wf.chain_eq_cons at_i, List.cons_append, List.cons.injEq] at split
    cases linked : tree.parentOf? top with
    | none => simp [linked] at split
    | some parent =>
      obtain ⟨p, -, at_p⟩ := parentOf?_eq_some.mp linked
      rw [linked] at split
      exact ih parent p at_p split.2

/-- Where slots grow, the other blocks of a chain are earlier than the one it is the chain of. -/
theorem slot_lt_of_onChain (wf : tree.WellFormed) (climbs : tree.Climbs)
    (on_chain : tree.OnChain node root) (found : tree.node? root = some top) (other : node ≠ top) :
    node.slot < top.slot := by
  induction on_chain generalizing top with
  | self found' => exact absurd (Option.some.inj (found'.symm.trans found)) other
  | @up root child parent found' linked _ ih =>
    obtain rfl := Option.some.inj (found'.symm.trans found)
    obtain ⟨i, at_i, -⟩ := wf.node?_eq_some.mp found
    obtain ⟨p, link, at_p⟩ := parentOf?_eq_some.mp linked
    have later : parent.slot < child.slot := climbs at_i link at_p
    by_cases here : node = parent
    · rwa [here]
    · exact UInt64.lt_trans (ih (wf.node?_root at_p) here) later

theorem onChain_antisymm (wf : tree.WellFormed) (climbs : tree.Climbs)
    (there : tree.OnChain node top.root) (back : tree.OnChain top node.root) : node = top := by
  apply Decidable.byContradiction
  intro other
  have earlier := wf.slot_lt_of_onChain climbs there (wf.node?_of_onChain back) other
  have later := wf.slot_lt_of_onChain climbs back (wf.node?_of_onChain there) (Ne.symm other)
  exact UInt64.lt_irrefl _ (UInt64.lt_trans earlier later)

end WellFormed

def slotBlock (slot : Slot) (root : Nat) (parent : Option Nat) : Block :=
  { plainBlock root parent with slot }

/-- Two branches with empty slots whose common start is pruned, and a late child of what is gone. -/
def sparseTree : BlockTree :=
  [.insert (slotBlock 1 1 none), .insert (slotBlock 2 2 (some 1)), .insert (slotBlock 4 3 (some 2)),
    .insert (slotBlock 5 4 (some 2)), .insert (slotBlock 8 5 (some 3)),
    .insert (slotBlock 6 6 (some 4)), .prune (.ofNat 2),
    .insert (slotBlock 9 7 (some 1))].foldl after (empty 0 1 1)

theorem run_sparseTree :
    ∃ history, Run after (fun _ _ _ => True) (empty 0 1 1) history sparseTree := by
  have outset : Run after (fun _ _ _ => True) (empty 0 1 1) [] (empty 0 1 1) := .start
  exact outset.calls _

theorem climbs_sparseTree : sparseTree.Climbs := by
  decide +kernel

end LmdGhost.BlockTree
