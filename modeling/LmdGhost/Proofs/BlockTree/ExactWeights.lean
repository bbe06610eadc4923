import LmdGhost.Proofs.BlockTree.Calls
import LmdGhost.Proofs.BlockTree.Headroom
/-!
New scores in exact integers. Where they succeed, the weight of every block is the old one with the
changes of its whole subtree, the new boost entered and the last one taken back, if their blocks are
in the subtree; the boost is remembered, and but for scores and epochs the tree is what it was. They
succeed as soon as there is a change for every node, all changes and both boosts together fit a
change, whatever their signs, and the weights that should come out are in range.
-/

namespace LmdGhost

open Finset

def Node.unscored (node : Node) : Node :=
  node.weightless.unlinked

/-- What changes come to if their signs are left out. -/
def magnitude (deltas : List Delta) : Nat :=
  (deltas.map (·.toInt.natAbs)).sum

theorem sum_natAbs_deltaAt (deltas : List Delta) :
    ∑ j ∈ range deltas.length, ((deltaAt deltas j).natAbs : Int) = magnitude deltas := by
  induction deltas with
  | nil => rfl
  | cons delta deltas ih =>
    rw [List.length_cons, sum_range_succ', magnitude, List.map_cons, List.sum_cons, ← magnitude,
      Nat.cast_add, ← ih, Int.add_comm]
    rfl

/-- Changes gain and lose no more than they come to without their signs. -/
theorem Spread.of_magnitude (deltas : List Delta) :
    Spread deltas deltas.length (magnitude deltas) (magnitude deltas) := by
  have bounded (part : Int → Int) (le : ∀ n, part n ≤ n.natAbs) :
      ∑ j ∈ range deltas.length, part (deltaAt deltas j) ≤ magnitude deltas := by
    rw [← sum_natAbs_deltaAt]
    exact sum_le_sum fun j _ => le (deltaAt deltas j)
  refine ⟨Nat.le_refl _, fun j => max (deltaAt deltas j) 0, fun j => max (-(deltaAt deltas j)) 0,
    fun j => le_max_right _ _, fun j => le_max_right _ _, fun j _ => ?_, ?_, ?_⟩
  · dsimp only
    omega
  · exact bounded (fun n => max n 0) fun n => by omega
  · exact bounded (fun n => max (-n) 0) fun n => by omega

namespace BlockTree

variable {tree : BlockTree} {change : ScoreChange}

/--
The weight that new scores should give to a node: the changes of its subtree are added, and of the
new boost and the last one what they lend to the subtree.
-/
def weightAfter (tree : BlockTree) (change : ScoreChange) (node : Node) : Int :=
  node.weight.toNat + changeUnder (tree.under node.root) change.deltas +
    tree.lent change.boost node.root - tree.lent tree.boost node.root

namespace WellFormed

theorem weights_rescored (wf : tree.WellFormed)
    (count : change.deltas.length = tree.nodes.length)
    (passed : (tree.weighed change).result = .ok ()) :
    (tree.rescored change).nodes.map (fun node => (node.weight.toNat : Int)) =
      tree.nodes.map (tree.weightAfter change) := by
  apply List.ext_getElem?
  intro i
  rw [List.getElem?_map, List.getElem?_map]
  cases at_i : tree.nodes[i]? with
  | none =>
    cases at_i' : (tree.rescored change).nodes[i]? with
    | none => rfl
    | some node' =>
      obtain ⟨node, was_there⟩ := exists_of_rescored wf at_i'
      rw [at_i] at was_there
      contradiction
  | some node =>
    obtain ⟨node', at_i', -, weight⟩ := wf.weight_rescored count passed at_i
    rw [at_i', Option.map_some, Option.map_some, weightAfter, Option.some.injEq]
    omega

/-- Where new scores succeed, nothing but scores, epochs and the boost is new. -/
theorem applyScores_unscored (wf : tree.WellFormed)
    (ok : (tree.applyScores change).result = .ok ()) :
    ∃ nodes, (tree.applyScores change).state = { tree with
        nodes
        justifiedEpoch := change.justifiedEpoch
        finalizedEpoch := change.finalizedEpoch
        boost := change.boost } ∧
      nodes.map Node.unscored = tree.nodes.map Node.unscored := by
  have unscored : (tree.applyScores change).state.nodes.map Node.unscored =
      tree.nodes.map Node.unscored := map_applyScores (fun _ => rfl) (fun _ => rfl) wf change
  obtain ⟨-, state, -⟩ := wf.applyScores_ok ok
  obtain ⟨nodes, chosen, -⟩ := (wf.chooseAll_reweighed change).2.1
  rw [state, BlockTree.rescored, chosen] at unscored
  rw [state, BlockTree.rescored, chosen]
  exact ⟨nodes, rfl, unscored⟩

end WellFormed

/--
In every tree built from the empty one, new scores that succeed give every node its exact weight and
change nothing else but best links, epochs and the boost. They succeed if there is a change for
every node, if all changes and both boosts fit a change together, and if the exact weights are in
range.
-/
theorem applyScores_exact {history : List (Event BlockTree Call)} {pruneThreshold : UInt64}
    {justifiedEpoch finalizedEpoch : Epoch}
    (run : Run after (fun _ _ _ => True) (empty pruneThreshold justifiedEpoch finalizedEpoch)
      history tree)
    (change : ScoreChange) :
    ((tree.applyScores change).result = .ok () →
      ∃ nodes, (tree.applyScores change).state = { tree with
          nodes
          justifiedEpoch := change.justifiedEpoch
          finalizedEpoch := change.finalizedEpoch
          boost := change.boost } ∧
        nodes.map Node.unscored = tree.nodes.map Node.unscored ∧
        nodes.map (fun node => (node.weight.toNat : Int)) =
          tree.nodes.map (tree.weightAfter change)) ∧
    (change.deltas.length = tree.nodes.length →
      (magnitude change.deltas + scoreOf change.boost + scoreOf tree.boost : Int) ≤ Delta.limit →
      (∀ node ∈ tree.nodes, 0 ≤ tree.weightAfter change node ∧
        tree.weightAfter change node < UInt64.size) →
      (tree.applyScores change).result = .ok ()) := by
  have wf := wellFormed_of_run run
  constructor
  · intro ok
    obtain ⟨passed, state, count⟩ := wf.applyScores_ok ok
    have weights := wf.weights_rescored count passed
    obtain ⟨nodes, rest, unscored⟩ := wf.applyScores_unscored ok
    rw [← state, rest] at weights
    exact ⟨nodes, rest, unscored, weights⟩
  · intro count fits in_range
    have spread := Spread.of_magnitude change.deltas
    rw [count] at spread
    refine wf.applyScores_of_spread count spread (by omega) (by omega) fun {i node} at_i => ?_
    obtain ⟨lower, upper⟩ := in_range node (List.mem_of_getElem? at_i)
    rw [weightAfter] at lower upper
    refine ⟨.ofNat (tree.weightAfter change node).toNat, ?_⟩
    rw [UInt64.toNat_ofNat_of_lt' (by rw [weightAfter]; omega), weightAfter]
    omega

/-- Two branches, one of them boosted, of which pruning leaves one without its parent. -/
def orphaned : List Call :=
  [.insert (plainBlock 1 none), .insert (plainBlock 2 (some 1)), .insert (plainBlock 3 (some 1)),
    .insert (plainBlock 4 (some 2)), .insert (plainBlock 5 (some 3)),
    .applyScores ⟨[0, 0, 30, 20, 10], some ⟨.ofNat 4, 50⟩, 1, 1⟩, .prune (.ofNat 3)]

theorem orphaned_weights :
    ∃ history tree, Run after (fun _ _ _ => True) (empty 0 1 1) history tree ∧
      tree.nodes.map (fun node => (node.root, node.weight)) =
        [(.ofNat 3, 40), (.ofNat 4, 70), (.ofNat 5, 10)] ∧
      (tree.applyScores ⟨[5, -20, 7], some ⟨.ofNat 5, 40⟩, 2, 1⟩).result = .ok () ∧
      (tree.applyScores ⟨[5, -20, 7], some ⟨.ofNat 5, 40⟩, 2, 1⟩).state.nodes.map
        (fun node => (node.weight.toNat : Int)) = [92, 0, 57] := by
  have outset : Run after (fun _ _ _ => True) (empty 0 1 1) [] (empty 0 1 1) := .start
  obtain ⟨history, run⟩ := outset.calls orphaned
  obtain ⟨exact_weights, succeeds⟩ :=
    applyScores_exact run ⟨[5, -20, 7], some ⟨.ofNat 5, 40⟩, 2, 1⟩
  have ok := succeeds (by decide +kernel) (by decide +kernel) (by decide +kernel)
  obtain ⟨nodes, state, -, weights⟩ := exact_weights ok
  refine ⟨history, _, run, by decide +kernel, ok, ?_⟩
  rw [state, weights]
  decide +kernel

end BlockTree

end LmdGhost
