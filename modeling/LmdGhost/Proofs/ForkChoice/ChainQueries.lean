import LmdGhost.ForkChoice.Basic
import LmdGhost.Proofs.BlockTree.ParentChain
import Mathlib.Order.Defs.Unbundled
/-!
Questions about chains. Each is answered by a walk of its own: to the first node that is not after a
slot, down to the slot of a block while looking for that block, or to the node at exactly a slot.
Where slots grow, the walks agree on what the chain of a block is, also if older blocks were pruned
or slots have no block.
-/

namespace LmdGhost

variable {tree : BlockTree} {root ancestor found : Root} {node : Node} {slot early late : Slot}

namespace BlockTree

/-- The answer to what a chain has at a slot: its latest block that is not after the slot. -/
def LatestBy (tree : BlockTree) (root : Root) (slot : Slot) : Option Root → Prop
  | some found => ∃ node, tree.OnChain node root ∧ node.root = found ∧ node.slot ≤ slot ∧
      ∀ other, tree.OnChain other root → other.slot ≤ slot → other.slot ≤ node.slot
  | none => ∀ node, tree.OnChain node root → slot < node.slot

namespace WellFormed

theorem latestBy_iff (wf : tree.WellFormed) (climbs : tree.Climbs) {answer : Option Root} :
    tree.LatestBy root slot answer ↔
      ((tree.chain root).find? (·.slot ≤ slot)).map (·.root) = answer := by
  cases answer with
  | none =>
    rw [Option.map_eq_none_iff, List.find?_eq_none]
    simp only [LatestBy, wf.mem_chain, decide_eq_true_eq, UInt64.not_le]
  | some found =>
    rw [Option.map_eq_some_iff]
    simp only [LatestBy, find?_slot (wf.falling_chain climbs root), wf.mem_chain]
    constructor
    · rintro ⟨node, on_chain, named, fits, latest⟩
      refine ⟨node, ⟨on_chain, fits, fun other member later => UInt64.not_le.mp fun fits' => ?_⟩,
        named⟩
      exact UInt64.not_lt.mpr (latest other member fits') later
    · rintro ⟨node, ⟨on_chain, fits, between⟩, named⟩
      refine ⟨node, on_chain, named, fits, fun other member fits' => UInt64.not_lt.mp ?_⟩
      exact fun later => UInt64.not_lt.mpr fits' (between other member later)

theorem ancestor_latestBy (wf : tree.WellFormed) (climbs : tree.Climbs)
    (known : tree.contains root = true) (slot : Slot) : ∃ answer,
      tree.ancestor root slot = .ok answer ∧
        ∀ other, tree.LatestBy root slot other ↔ other = answer := by
  refine ⟨_, if_pos known, fun other => ?_⟩
  rw [wf.latestBy_iff climbs]
  exact eq_comm

/-- A walk may stop at a slot and go on from the block it has come to. -/
theorem ancestor_of_ancestor (wf : tree.WellFormed) (order : early ≤ late)
    (reaches : tree.ancestor root late = .ok (some found)) :
    tree.ancestor found early = tree.ancestor root early := by
  have known := contains_of_ancestor reaches
  rw [BlockTree.ancestor, if_pos known, Except.ok.injEq] at reaches
  obtain ⟨node, search, rfl⟩ := Option.map_eq_some_iff.mp reaches
  have member := List.mem_of_find?_eq_some search
  obtain ⟨-, before, rest, split, passed⟩ := List.find?_eq_some_iff_append.mp search
  have goes_on := wf.chain_of_suffix split
  have known' : tree.contains node.root = true := by
    obtain ⟨i, at_i, -⟩ := wf.node?_eq_some.mp (wf.node?_of_mem_chain member)
    exact wf.contains_root at_i
  have skipped : before.find? (·.slot ≤ early) = none := by
    refine List.find?_eq_none.mpr fun other listed => ?_
    have after_late : late < other.slot := by simpa using passed other listed
    simpa using UInt64.lt_of_le_of_lt order after_late
  rw [BlockTree.ancestor, BlockTree.ancestor, if_pos known, if_pos known', goes_on, split,
    List.find?_append, skipped, Option.none_or]

theorem isDescendant_iff_onChain (wf : tree.WellFormed) (climbs : tree.Climbs)
    (found : tree.node? ancestor = some node) :
    tree.isDescendant ancestor root = true ↔ tree.OnChain node root := by
  rw [wf.isDescendant_eq climbs, wf.descends_iff_mem found, wf.mem_chain]

/-- A block descends from another if that is what its chain has at the slot of the other. -/
theorem isDescendant_iff_ancestor (wf : tree.WellFormed) (climbs : tree.Climbs)
    (known : tree.contains root = true) (found : tree.node? ancestor = some node) :
    tree.isDescendant ancestor root = true ↔
      tree.ancestor root node.slot = .ok (some ancestor) := by
  rw [wf.ancestor_eq_iff climbs known found, wf.isDescendant_eq climbs]
  exact (and_iff_left ⟨UInt64.le_refl _, fun _ _ later => later⟩).symm

theorem isPartialOrder_isDescendant (wf : tree.WellFormed) (climbs : tree.Climbs) :
    IsPartialOrder { root : Root // tree.contains root = true } fun ancestor root =>
      tree.isDescendant ancestor root = true where
  refl root := by
    rw [wf.isDescendant_eq climbs]
    exact wf.descends_refl root.2
  trans a b c := by
    simp only [wf.isDescendant_eq climbs]
    exact wf.descends_trans
  antisymm a b there back := by
    obtain ⟨i, node, at_i, named⟩ := wf.contains_iff.mp a.2
    obtain ⟨j, node', at_j, named'⟩ := wf.contains_iff.mp b.2
    rw [← named, ← named'] at there back
    rw [wf.isDescendant_iff_onChain climbs (wf.node?_root at_i)] at there
    rw [wf.isDescendant_iff_onChain climbs (wf.node?_root at_j)] at back
    rw [Subtype.ext_iff, ← named, ← named', wf.onChain_antisymm climbs there back]

end WellFormed

end BlockTree

namespace ForkChoice

/-- The canonical block at a slot is the node of the head's chain that has this slot. -/
theorem canonicalBlock?_eq_some {fc : ForkChoice} (wf : fc.tree.WellFormed)
    (climbs : fc.tree.Climbs) : fc.canonicalBlock? slot = some node ↔
      fc.tree.OnChain node fc.head.root ∧ node.slot = slot := by
  rw [canonicalBlock?, Option.filter_eq_some_iff, find?_slot (wf.falling_chain climbs _),
    wf.mem_chain, beq_iff_eq]
  constructor
  · rintro ⟨⟨on_chain, -⟩, exactly⟩
    exact ⟨on_chain, exactly⟩
  · rintro ⟨on_chain, rfl⟩
    exact ⟨⟨on_chain, UInt64.le_refl _, fun _ _ later => later⟩, rfl⟩

end ForkChoice

namespace BlockTree

variable {history : List (Event BlockTree Call)} {pruneThreshold : UInt64}
  {justifiedEpoch finalizedEpoch : Epoch}

/--
In every tree that calls lead to, where slots grow along links, and for every known block: its
ancestor at a slot is the latest block of its chain that is not after the slot, it descends from
the blocks of its chain, which are those that its chain has at their own slots, descent is a partial
order, an ancestor of an ancestor is the ancestor, and if it is the head then the canonical block at
a slot is the one of its chain that has the slot.
-/
theorem chain_queries_agree
    (run : Run after (fun _ _ _ => True) (empty pruneThreshold justifiedEpoch finalizedEpoch)
      history tree)
    (climbs : tree.Climbs) (known : tree.contains root = true) :
    (∀ slot, ∃ answer, tree.ancestor root slot = .ok answer ∧
      ∀ other, tree.LatestBy root slot other ↔ other = answer) ∧
    (∀ ancestor node, tree.node? ancestor = some node →
      (tree.isDescendant ancestor root = true ↔ tree.OnChain node root) ∧
      (tree.isDescendant ancestor root = true ↔
        tree.ancestor root node.slot = .ok (some ancestor))) ∧
    (IsPartialOrder { root : Root // tree.contains root = true } fun ancestor root =>
      tree.isDescendant ancestor root = true) ∧
    (∀ early late found, early ≤ late → tree.ancestor root late = .ok (some found) →
      tree.ancestor found early = tree.ancestor root early) ∧
    ∀ fc : ForkChoice, fc.tree = tree → fc.head.root = root → ∀ slot node,
      fc.canonicalBlock? slot = some node ↔ tree.OnChain node root ∧ node.slot = slot := by
  have wf := wellFormed_of_run run
  refine ⟨wf.ancestor_latestBy climbs known, fun ancestor node found => ⟨?_, ?_⟩,
    wf.isPartialOrder_isDescendant climbs, fun _ _ _ => wf.ancestor_of_ancestor, ?_⟩
  · exact wf.isDescendant_iff_onChain climbs found
  · exact wf.isDescendant_iff_ancestor climbs known found
  · rintro fc rfl rfl slot node
    exact ForkChoice.canonicalBlock?_eq_some wf climbs

/-- On a branch with empty slots, down to the block at which the tree was pruned. -/
theorem chain_queries_agree_on_sparse_branch :
    (∃ history, Run after (fun _ _ _ => True) (empty 0 1 1) history sparseTree) ∧
    sparseTree.Climbs ∧ sparseTree.contains (.ofNat 5) = true ∧
    sparseTree.LatestBy (.ofNat 5) 7 (some (.ofNat 3)) ∧ sparseTree.LatestBy (.ofNat 5) 1 none ∧
    sparseTree.ancestor (.ofNat 3) 3 = sparseTree.ancestor (.ofNat 5) 3 ∧
    ∃ node, sparseTree.node? (.ofNat 3) = some node ∧ sparseTree.OnChain node (.ofNat 5) ∧
      ∀ fc : ForkChoice, fc.tree = sparseTree → fc.head.root = .ofNat 5 →
        fc.canonicalBlock? 4 = some node := by
  obtain ⟨history, run⟩ := run_sparseTree
  have known : sparseTree.contains (.ofNat 5) = true := by decide +kernel
  obtain ⟨walks, descent, -, again, canonical⟩ := chain_queries_agree run climbs_sparseTree known
  have latest {slot : Slot} {answer : Option Root}
      (reaches : sparseTree.ancestor (.ofNat 5) slot = .ok answer) :
      sparseTree.LatestBy (.ofNat 5) slot answer := by
    obtain ⟨_, reaches', unique⟩ := walks slot
    rw [reaches, Except.ok.injEq] at reaches'
    exact (unique answer).mpr reaches'
  obtain ⟨node, found, at_slot⟩ : ∃ node, sparseTree.node? (.ofNat 3) = some node ∧ node.slot = 4 :=
    Option.map_eq_some_iff.mp (by decide +kernel)
  have on_chain := (descent _ node found).1.mp (by decide +kernel)
  refine ⟨⟨history, run⟩, climbs_sparseTree, known, latest (by decide +kernel),
    latest (by decide +kernel), again 3 4 _ (by decide) (by decide +kernel), node, found, on_chain,
    fun fc same head => ?_⟩
  exact (canonical fc same head 4 node).mpr ⟨on_chain, at_slot⟩

end BlockTree

end LmdGhost
