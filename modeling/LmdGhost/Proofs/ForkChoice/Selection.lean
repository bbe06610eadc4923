import LmdGhost.Proofs.BlockTree.Heads
import LmdGhost.Proofs.ForkChoice.Calls
/-!
The head that is selected. It is the leaf below the justified block, if that is in the tree and the
leaf is viable; nothing else makes the selection fail.
-/

namespace LmdGhost.ForkChoice

variable {fc : ForkChoice}

/-- Where the justified block is in the tree, its leaf is selected if it is viable. -/
theorem selectHead_of_known (wf : fc.tree.WellFormed) {i : Nat} {justified : Node}
    (at_i : fc.tree.nodes[i]? = some justified) (named : justified.root = fc.store.justified.root) :
    ∃ leaf, fc.tree.nodes[fc.tree.leafAt i]? = some leaf ∧ fc.selectHead.result =
      if fc.tree.isViable leaf then .ok leaf else .error (.tree (.headNotViable leaf.root)) := by
  obtain ⟨leaf, at_leaf, answer⟩ := wf.findHead_eq at_i
  refine ⟨leaf, at_leaf, ?_⟩
  rw [selectHead, ← named, answer]
  cases fc.tree.isViable leaf with
  | false => rfl
  | true =>
    have required : fc.requiredNode leaf.root = .ok leaf := by
      rw [requiredNode, wf.node?_root at_leaf]
    simp only [if_true, Outcome.mapError_ok, bind, Except.bind, required]
    rfl

/--
The justified block is missing, or its leaf is the head if it is viable, and an error names the leaf
if it is not.
-/
theorem selectHead_cases (wf : fc.tree.WellFormed) :
    fc.selectHead.result = .error (.missingBlock fc.store.justified.root) ∨
    ∃ (i : Nat) (justified leaf : Node), fc.tree.nodes[i]? = some justified ∧
      justified.root = fc.store.justified.root ∧ fc.tree.nodes[fc.tree.leafAt i]? = some leaf ∧
      fc.selectHead.result =
        if fc.tree.isViable leaf then .ok leaf else .error (.tree (.headNotViable leaf.root)) := by
  cases index : fc.tree.index[fc.store.justified.root]? with
  | none =>
    left
    simp only [selectHead, BlockTree.findHead, index]
    rfl
  | some i =>
    obtain ⟨justified, at_i, named⟩ := wf.indexed.mp index
    obtain ⟨leaf, at_leaf, answer⟩ := selectHead_of_known wf at_i named
    exact .inr ⟨i, justified, leaf, at_i, named, at_leaf, answer⟩

/-- A head that is selected is the leaf below the justified block, and viable. -/
theorem selectHead_ok (wf : fc.tree.WellFormed) {head : Node}
    (selected : fc.selectHead.result = .ok head) :
    ∃ (i : Nat) (justified : Node), fc.tree.nodes[i]? = some justified ∧
      justified.root = fc.store.justified.root ∧ fc.tree.nodes[fc.tree.leafAt i]? = some head ∧
      fc.tree.isViable head = true := by
  rcases selectHead_cases wf with missing | ⟨i, justified, leaf, at_i, named, at_leaf, answer⟩
  · rw [missing] at selected
    contradiction
  · rw [answer] at selected
    split at selected
    · cases selected
      exact ⟨i, justified, at_i, named, at_leaf, ‹_›⟩
    · contradiction

theorem selectHead_congr {fc' : ForkChoice} (store : fc'.store = fc.store)
    (tree : fc'.tree = fc.tree) : fc'.selectHead.result = fc.selectHead.result := by
  have required : fc'.requiredNode = fc.requiredNode := by
    funext root
    rw [requiredNode, requiredNode, tree]
  rw [selectHead, selectHead, required, store, tree]
  cases (fc.tree.findHead fc.store.justified.root).mapError Error.ofTree >>= fc.requiredNode <;> rfl

theorem selectHead_again (fc : ForkChoice) :
    fc.selectHead.state.selectHead.result = fc.selectHead.result := by
  obtain ⟨_, state⟩ := fc.selectHead_state
  rw [state]
  exact selectHead_congr rfl rfl

theorem updateHead_of_synced (synced : fc.synced = true) : fc.updateHead = fc.selectHead := by
  rw [updateHead, if_pos synced]

theorem updateHead_of_unsynced (unsynced : fc.synced = false) :
    fc.updateHead = fc.reweigh.bind fun fc _ => fc.selectHead := by
  rw [updateHead, unsynced, if_neg Bool.false_ne_true]

theorem updateHead_ok {head : Node} (updated : fc.updateHead.result = .ok head) :
    fc.updateHead.state.selectHead.result = .ok head ∧ fc.updateHead.state.store = fc.store := by
  have selected {fc : ForkChoice} (ok : fc.selectHead.result = .ok head) :
      fc.selectHead.state.selectHead.result = .ok head ∧ fc.selectHead.state.store = fc.store := by
    refine ⟨fc.selectHead_again.trans ok, ?_⟩
    obtain ⟨_, state⟩ := fc.selectHead_state
    rw [state]
  rw [updateHead] at updated ⊢
  split
  · rename_i synced
    rw [if_pos synced] at updated
    exact selected updated
  · rename_i outdated
    rw [if_neg outdated] at updated
    obtain ⟨_, reweighed, ok⟩ := Outcome.bind_eq_ok_iff.mp updated
    rw [Outcome.state_bind_of_ok _ reweighed, ← fc.reweigh_chain.2.1]
    exact selected ok

end LmdGhost.ForkChoice
