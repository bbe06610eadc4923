import LmdGhost.Proofs.BlockTree.Choice
import LmdGhost.Proofs.BlockTree.Weighing
/-!
Changes of scores as a whole. Where links are within bounds, they fail only for a wrong number of
changes, which leaves the tree as it is, or in the pass over the weights, which leaves the best
links as they are. Where they succeed, the new weight of a node is the old one and all that is due
below it.
-/

namespace LmdGhost.BlockTree

open Finset

variable {tree : BlockTree} {change : ScoreChange} {node : Node} {i : Nat}

def weighed (tree : BlockTree) (change : ScoreChange) : Outcome Tally Error Unit :=
  Tally.weighAll change.boost tree.boost tree.nodes.length
    { nodes := tree.nodes, deltas := change.deltas }

def reweighed (tree : BlockTree) (change : ScoreChange) : BlockTree :=
  { tree with
    justifiedEpoch := change.justifiedEpoch
    finalizedEpoch := change.finalizedEpoch
    nodes := (tree.weighed change).state.nodes }

def rescored (tree : BlockTree) (change : ScoreChange) : BlockTree :=
  { (chooseAll tree.nodes.length (tree.reweighed change)).state with boost := change.boost }

theorem reweighed_weightless (tree : BlockTree) (change : ScoreChange) :
    (tree.reweighed change).nodes.map Node.weightless = tree.nodes.map Node.weightless :=
  Tally.weighAll_weightless _ _ _ _

theorem length_reweighed (tree : BlockTree) (change : ScoreChange) :
    (tree.reweighed change).nodes.length = tree.nodes.length := by
  simpa using congrArg List.length (reweighed_weightless tree change)

theorem parents_reweighed (tree : BlockTree) (change : ScoreChange) :
    parents (tree.reweighed change).nodes = parents tree.nodes :=
  parents_eq_of_places (places_of_weightless (reweighed_weightless tree change))

namespace Bounded

theorem reweighed (bounded : tree.Bounded) (change : ScoreChange) :
    (tree.reweighed change).Bounded :=
  bounded.of_places (places_of_weightless (reweighed_weightless tree change)) rfl

theorem chooseAll_reweighed (bounded : tree.Bounded) (change : ScoreChange) :
    (BlockTree.chooseAll tree.nodes.length (tree.reweighed change)).result = .ok () ∧
      SameButLinks (tree.reweighed change)
        (BlockTree.chooseAll tree.nodes.length (tree.reweighed change)).state ∧
      (BlockTree.chooseAll tree.nodes.length (tree.reweighed change)).state.Bounded :=
  (bounded.reweighed change).chooseAll (Nat.le_of_eq (length_reweighed tree change).symm)

theorem rescored (bounded : tree.Bounded) (change : ScoreChange) :
    (tree.rescored change).Bounded :=
  (bounded.chooseAll_reweighed change).2.2.of_places rfl rfl

theorem applyScores_cases (bounded : tree.Bounded) (change : ScoreChange) :
    (change.deltas.length ≠ tree.nodes.length ∧ tree.applyScores change =
      .fail tree (.deltaCount change.deltas.length tree.nodes.length)) ∨
    (change.deltas.length = tree.nodes.length ∧ ∃ cause,
      (tree.weighed change).result = .error cause ∧
        (tree.applyScores change).result = .error cause ∧
        (tree.applyScores change).state = tree.reweighed change) ∨
    (change.deltas.length = tree.nodes.length ∧ (tree.weighed change).result = .ok () ∧
      (tree.applyScores change).result = .ok () ∧
      (tree.applyScores change).state = tree.rescored change) := by
  rw [applyScores]
  by_cases count : change.deltas.length = tree.nodes.length
  · right
    simp only [count, ne_eq, not_true_eq_false, if_false, true_and]
    have lifted : ((tree.weighed change).lift (fun tally => { tree with
        justifiedEpoch := change.justifiedEpoch
        finalizedEpoch := change.finalizedEpoch
        nodes := tally.nodes }) id).result = (tree.weighed change).result := by
      rw [Outcome.result_lift, Outcome.mapError_id]
    cases passed : (tree.weighed change).result with
    | error cause =>
      left
      rw [passed] at lifted
      exact ⟨cause, rfl, Outcome.result_bind_of_error _ lifted,
        Outcome.state_bind_of_error _ lifted⟩
    | ok value =>
      right
      rw [passed] at lifted
      have chosen := (bounded.chooseAll_reweighed change).1
      rw [← length_reweighed tree change] at chosen
      refine ⟨rfl, ?_, ?_⟩
      · apply (Outcome.result_bind_of_ok _ lifted).trans
        exact Outcome.result_bind_of_ok _ chosen
      · apply (Outcome.state_bind_of_ok _ lifted).trans
        apply (Outcome.state_bind_of_ok _ chosen).trans
        rw [BlockTree.rescored, ← length_reweighed tree change]
        rfl
  · exact .inl ⟨count, by rw [if_pos count]⟩

theorem applyScores (bounded : tree.Bounded) (change : ScoreChange) :
    (tree.applyScores change).state.Bounded := by
  rcases bounded.applyScores_cases change with
    ⟨-, failed⟩ | ⟨-, cause, -, -, state⟩ | ⟨-, -, -, state⟩
  · rwa [failed]
  · rw [state]
    exact bounded.reweighed change
  · rw [state]
    exact bounded.rescored change

end Bounded

namespace WellFormed

theorem reweighed (wf : tree.WellFormed) (change : ScoreChange) :
    (tree.reweighed change).WellFormed :=
  wf.of_places (places_of_weightless (reweighed_weightless tree change)) rfl

theorem chooseAll_reweighed (wf : tree.WellFormed) (change : ScoreChange) :
    (BlockTree.chooseAll tree.nodes.length (tree.reweighed change)).result = .ok () ∧
      SameButLinks (tree.reweighed change)
        (BlockTree.chooseAll tree.nodes.length (tree.reweighed change)).state ∧
      (BlockTree.chooseAll tree.nodes.length (tree.reweighed change)).state.WellFormed :=
  (wf.reweighed change).chooseAll (Nat.le_of_eq (length_reweighed tree change).symm)

theorem rescored (wf : tree.WellFormed) (change : ScoreChange) :
    (tree.rescored change).WellFormed :=
  (wf.chooseAll_reweighed change).2.2.of_places rfl rfl

theorem applyScores_ok (wf : tree.WellFormed) (ok : (tree.applyScores change).result = .ok ()) :
    (tree.weighed change).result = .ok () ∧ (tree.applyScores change).state = tree.rescored change ∧
      change.deltas.length = tree.nodes.length := by
  rcases wf.bounded.applyScores_cases change with
    ⟨-, failed⟩ | ⟨-, cause, -, failed, -⟩ | ⟨count, passed, -, state⟩
  · rw [failed] at ok
    contradiction
  · rw [failed] at ok
    contradiction
  · exact ⟨passed, state, count⟩

theorem applyScores (wf : tree.WellFormed) (change : ScoreChange) :
    (tree.applyScores change).state.WellFormed := by
  rcases wf.bounded.applyScores_cases change with
    ⟨-, failed⟩ | ⟨-, cause, -, -, state⟩ | ⟨-, -, -, state⟩
  · rwa [failed]
  · rw [state]
    exact wf.reweighed change
  · rw [state]
    exact wf.rescored change

end WellFormed

/-- The boost is replaced at the end, so a failure leaves the last one in place. -/
theorem WellFormed.boost_applyScores (wf : tree.WellFormed) {cause : Error}
    (failed : (tree.applyScores change).result = .error cause) :
    (tree.applyScores change).state.boost = tree.boost := by
  rcases wf.bounded.applyScores_cases change with
    ⟨-, failed'⟩ | ⟨-, _, -, -, state⟩ | ⟨-, -, passed, -⟩
  · rw [failed']
    rfl
  · rw [state]
    rfl
  · rw [passed] at failed
    contradiction

/-- Between the passes over weights and links, nodes differ in their best links only. -/
theorem rescored_unlinked (wf : tree.WellFormed) (change : ScoreChange) :
    (tree.rescored change).nodes.map Node.unlinked =
      (tree.reweighed change).nodes.map Node.unlinked := by
  obtain ⟨nodes, chosen, same⟩ := (wf.chooseAll_reweighed change).2.1
  rw [rescored, chosen]
  exact same

theorem parents_rescored (wf : tree.WellFormed) (change : ScoreChange) :
    parents (tree.rescored change).nodes = parents tree.nodes :=
  (parents_of_unlinked (rescored_unlinked wf change)).trans (parents_reweighed tree change)

theorem exists_of_rescored (wf : tree.WellFormed)
    (at_i : (tree.rescored change).nodes[i]? = some node) : ∃ old, tree.nodes[i]? = some old := by
  have placed : (parents tree.nodes)[i]? = some node.parentIndex := by
    rw [← parents_rescored wf change, getElem?_parents, at_i, Option.map_some]
  obtain ⟨old, at_old, -⟩ := exists_of_parents placed
  exact ⟨old, at_old⟩

theorem index_rescored (wf : tree.WellFormed) (change : ScoreChange) :
    (tree.rescored change).index = tree.index := by
  obtain ⟨nodes, chosen, -⟩ := (wf.chooseAll_reweighed change).2.1
  rw [rescored, chosen]
  rfl

theorem pruneThreshold_rescored (wf : tree.WellFormed) (change : ScoreChange) :
    (tree.rescored change).pruneThreshold = tree.pruneThreshold := by
  obtain ⟨nodes, chosen, -⟩ := (wf.chooseAll_reweighed change).2.1
  rw [rescored, chosen]
  rfl

theorem epochs_rescored (wf : tree.WellFormed) (change : ScoreChange) :
    (tree.rescored change).justifiedEpoch = change.justifiedEpoch ∧
      (tree.rescored change).finalizedEpoch = change.finalizedEpoch := by
  obtain ⟨nodes, chosen, -⟩ := (wf.chooseAll_reweighed change).2.1
  rw [rescored, chosen]
  exact ⟨rfl, rfl⟩

theorem shape_applyScores (wf : tree.WellFormed) (change : ScoreChange) :
    (tree.applyScores change).state.index = tree.index ∧
      parents (tree.applyScores change).state.nodes = parents tree.nodes := by
  rcases wf.bounded.applyScores_cases change with
    ⟨-, failed⟩ | ⟨-, cause, -, -, state⟩ | ⟨-, -, -, state⟩
  · rw [failed]
    exact ⟨rfl, rfl⟩
  · rw [state]
    exact ⟨rfl, parents_reweighed tree change⟩
  · rw [state]
    exact ⟨index_rescored wf change, parents_rescored wf change⟩

/-- New scores keep all that is seen neither in weights nor in best links. -/
theorem map_applyScores {f : Node → β} (weightless : ∀ node : Node, f node.weightless = f node)
    (unlinked : ∀ node : Node, f node.unlinked = f node) (wf : tree.WellFormed)
    (change : ScoreChange) :
    (tree.applyScores change).state.nodes.map f = tree.nodes.map f := by
  have reweighed := map_eq_of_map_eq (reweighed_weightless tree change) weightless
  rcases wf.bounded.applyScores_cases change with
    ⟨-, failed⟩ | ⟨-, cause, -, -, state⟩ | ⟨-, -, -, state⟩
  · rw [failed]
    rfl
  · rw [state, reweighed]
  · rw [state, map_eq_of_map_eq (rescored_unlinked wf change) unlinked, reweighed]

open Classical in
theorem rescored_weight (wf : tree.WellFormed) (passed : (tree.weighed change).result = .ok ())
    (at_i : tree.nodes[i]? = some node) :
    ∃ node', (tree.rescored change).nodes[i]? = some node' ∧ node'.root = node.root ∧
      (node'.weight.toNat : Int) = node.weight.toNat +
        ∑ j ∈ range tree.nodes.length, if Below (parents tree.nodes) i j then
          Tally.due change.boost tree.boost { nodes := tree.nodes, deltas := change.deltas } j
          else 0 := by
  obtain ⟨weighed, at_i', total⟩ :=
    Tally.weighAll_ok wf.first passed at_i
  obtain ⟨node', at_end, same⟩ := getElem?_of_map_eq (rescored_unlinked wf change).symm at_i'
  obtain ⟨old, at_i'', same'⟩ := getElem?_of_map_eq (reweighed_weightless tree change) at_i'
  rw [at_i] at at_i''
  cases at_i''
  refine ⟨node', at_end, ?_, ?_⟩
  · have outer : node'.root = weighed.root := congrArg (·.root) same
    have inner : node.root = weighed.root := congrArg (·.root) same'
    rw [outer, inner]
  · rw [show node'.weight = weighed.weight from congrArg (·.weight) same, total]

end LmdGhost.BlockTree
