import LmdGhost.Proofs.BlockTree.Scores
import LmdGhost.Proofs.VoteTable.Support
/-!
What new scores do to the weight of a block, told by roots: it gains the changes of all its
descendants and the boost of one of them, and loses the boost that one of them had.
-/

namespace LmdGhost.BlockTree

open Finset

variable {tree : BlockTree} {change : ScoreChange} {node : Node} {root : Root} {i j : Nat}

/-- Whether a position is that of a block or of one of its descendants. -/
def under (tree : BlockTree) (root : Root) (position : Nat) : Bool :=
  tree.nodes[position]?.any (tree.descends root ·.root)

/-- What a boost lends to a block: its score if it is for the block or one of its descendants. -/
def lent (tree : BlockTree) (boost : Option Boost) (root : Root) : Nat :=
  match boost with
  | none => 0
  | some boost => if tree.descends root boost.root then boost.score.toNat else 0

theorem node_of_mem_range (member : j ∈ range tree.nodes.length) :
    ∃ node, tree.nodes[j]? = some node :=
  ⟨_, List.getElem?_eq_getElem (mem_range.mp member)⟩

namespace WellFormed

theorem under_iff (wf : tree.WellFormed) (at_i : tree.nodes[i]? = some node)
    (bound : j < tree.nodes.length) :
    tree.under node.root j = true ↔ Below (parents tree.nodes) i j := by
  have at_j := List.getElem?_eq_getElem bound
  rw [under, at_j, Option.any_some, wf.descends_roots at_i at_j]

theorem any_under (wf : tree.WellFormed) (root other : Root) :
    tree.index[other]?.any (tree.under root) = tree.descends root other := by
  cases index : tree.index[other]? with
  | none =>
    rw [Option.any_none]
    cases descends : tree.descends root other with
    | false => rfl
    | true =>
      obtain ⟨_, _, -, index', -⟩ := wf.descends_iff.mp descends
      rw [index] at index'
      contradiction
  | some j =>
    obtain ⟨node, at_j, rfl⟩ := wf.indexed.mp index
    rw [Option.any_some, under, at_j, Option.any_some]

/-- What a boost lends to a set of positions: its score if its block is at one of them. -/
theorem sum_lentAt (wf : tree.WellFormed) (boost : Option Boost) (P : Nat → Bool) :
    ∑ j ∈ range tree.nodes.length, (if P j then lentAt boost tree.nodes j else 0) =
      match boost with
      | none => 0
      | some boost => if tree.index[boost.root]?.any P then (boost.score.toNat : Int) else 0 := by
  cases boost with
  | none =>
    refine Finset.sum_eq_zero fun j _ => ?_
    rw [lentAt]
    cases tree.nodes[j]? <;> simp [lentTo]
  | some boost =>
    dsimp only
    cases index : tree.index[boost.root]? with
    | none =>
      refine (Finset.sum_eq_zero fun j member => ?_).trans rfl
      obtain ⟨node, at_j⟩ := node_of_mem_range member
      have other : boost.root ≠ node.root := by
        intro named
        rw [named, wf.index_root at_j] at index
        contradiction
      simp [lentAt_of_getElem? at_j, lentTo, other]
    | some k =>
      obtain ⟨node, at_k, named⟩ := wf.indexed.mp index
      rw [Finset.sum_eq_single k, lentAt_of_getElem? at_k, lentTo, if_pos named.symm]
      · rfl
      · intro j member apart
        obtain ⟨node', at_j⟩ := node_of_mem_range member
        have other : boost.root ≠ node'.root := by
          intro same
          exact apart (wf.root_unique at_j at_k (same.symm.trans named.symm))
        simp [lentAt_of_getElem? at_j, lentTo, other]
      · intro past
        exact absurd (mem_range.mpr (wf.index_lt index)) past

/-- What a boost lends to all positions under a block comes to what it lends to the block. -/
theorem sum_lentAt_under (wf : tree.WellFormed) (boost : Option Boost) (root : Root) :
    ∑ j ∈ range tree.nodes.length,
      (if tree.under root j then lentAt boost tree.nodes j else 0) = tree.lent boost root := by
  rw [wf.sum_lentAt]
  cases boost with
  | none => rfl
  | some boost =>
    simp only [wf.any_under, lent]
    split <;> rfl

open Classical in
theorem sum_due (wf : tree.WellFormed) (count : change.deltas.length = tree.nodes.length)
    (at_i : tree.nodes[i]? = some node) :
    ∑ j ∈ range tree.nodes.length, (if Below (parents tree.nodes) i j then
        Tally.due change.boost tree.boost ⟨tree.nodes, change.deltas⟩ j else 0) =
      changeUnder (tree.under node.root) change.deltas + tree.lent change.boost node.root -
        tree.lent tree.boost node.root := by
  rw [changeUnder, count, ← wf.sum_lentAt_under, ← wf.sum_lentAt_under, ← sum_add_distrib,
    ← sum_sub_distrib]
  apply sum_congr rfl
  intro j member
  simp only [← wf.under_iff at_i (mem_range.mp member), Tally.due]
  split <;> omega

/-- The new weight of a block, with the boost taken back and the new one entered. -/
theorem weight_rescored (wf : tree.WellFormed) (count : change.deltas.length = tree.nodes.length)
    (passed : (tree.weighed change).result = .ok ()) (at_i : tree.nodes[i]? = some node) :
    ∃ node', (tree.rescored change).nodes[i]? = some node' ∧ node'.root = node.root ∧
      (node'.weight.toNat : Int) + tree.lent tree.boost node.root =
        node.weight.toNat + changeUnder (tree.under node.root) change.deltas +
          tree.lent change.boost node.root := by
  obtain ⟨node', at_i', named, weight⟩ := rescored_weight wf passed at_i
  refine ⟨node', at_i', named, ?_⟩
  rw [weight, wf.sum_due count at_i]
  omega

end WellFormed

end LmdGhost.BlockTree
