import LmdGhost.BlockTree.Payload
import LmdGhost.Proofs.BlockTree.Bounds
import LmdGhost.Proofs.Outcome
/-!
Verdicts on payloads change statuses and nothing else, whether they succeed or fail, so a tree stays
well-formed under them, and links that are within bounds stay there.
-/

namespace LmdGhost

def Node.unjudged (node : Node) : Node :=
  { node with status := .syncing }

@[simp]
theorem Node.unjudged_status (node : Node) (status : PayloadStatus) :
    Node.unjudged { node with status } = node.unjudged :=
  rfl

theorem places_of_unjudged {nodes nodes' : List Node}
    (same : nodes.map Node.unjudged = nodes'.map Node.unjudged) :
    nodes.map Node.place = nodes'.map Node.place :=
  map_eq_of_map_eq same fun _ => rfl

theorem parents_of_unjudged {nodes nodes' : List Node}
    (same : nodes.map Node.unjudged = nodes'.map Node.unjudged) : parents nodes = parents nodes' :=
  parents_eq_of_places (places_of_unjudged same)

namespace BlockTree

def SameButStatuses (tree tree' : BlockTree) : Prop :=
  ∃ nodes, tree' = { tree with nodes } ∧ nodes.map Node.unjudged = tree.nodes.map Node.unjudged

namespace SameButStatuses

variable {tree tree' : BlockTree}

theorem wellFormed (same : SameButStatuses tree tree') (wf : tree.WellFormed) :
    tree'.WellFormed := by
  obtain ⟨nodes, rfl, same⟩ := same
  exact wf.of_places (places_of_unjudged same) rfl

theorem bounded (same : SameButStatuses tree tree') (bounded : tree.Bounded) : tree'.Bounded := by
  obtain ⟨nodes, rfl, same⟩ := same
  exact bounded.of_places (places_of_unjudged same) rfl

theorem boost_eq (same : SameButStatuses tree tree') : tree'.boost = tree.boost := by
  obtain ⟨nodes, rfl, -⟩ := same
  rfl

theorem index_eq (same : SameButStatuses tree tree') : tree'.index = tree.index := by
  obtain ⟨nodes, rfl, -⟩ := same
  rfl

theorem parents_eq (same : SameButStatuses tree tree') :
    parents tree'.nodes = parents tree.nodes := by
  obtain ⟨nodes, rfl, same⟩ := same
  exact parents_of_unjudged same

end SameButStatuses

/-- What does not change when a syncing node is confirmed does not change at all. -/
theorem confirmFrom_map {f : Node → β}
    (blind : ∀ node : Node, node.status = .syncing → f { node with status := .valid } = f node)
    (steps position : Nat) (nodes : List Node) :
    (confirmFrom steps position nodes).state.map f = nodes.map f := by
  induction steps generalizing position nodes with
  | zero => rfl
  | succ steps ih =>
    rw [confirmFrom]
    cases h : nodes[position]? with
    | none => rfl
    | some node =>
      have confirmed (syncing : node.status = .syncing) := map_set_of_eq h (blind node syncing)
      dsimp only
      generalize { node with status := .valid } = changed at confirmed ⊢
      cases status : node.status with
      | valid | preMerge | invalid => rfl
      | syncing =>
        cases node.parentIndex with
        | none => exact confirmed status
        | some parent => exact (ih parent _).trans (confirmed status)

theorem confirm_map {f : Node → β}
    (blind : ∀ node : Node, node.status = .syncing → f { node with status := .valid } = f node)
    (tree : BlockTree) (root : Root) :
    ∃ nodes, (tree.confirm root).state = { tree with nodes } ∧ nodes.map f = tree.nodes.map f := by
  rw [confirm]
  cases tree.indexOf root with
  | error cause => exact ⟨tree.nodes, rfl, rfl⟩
  | ok position => exact ⟨_, rfl, confirmFrom_map blind _ _ _⟩

theorem confirm_sameButStatuses (tree : BlockTree) (root : Root) :
    SameButStatuses tree (tree.confirm root).state :=
  confirm_map (fun node _ => node.unjudged_status .valid) tree root

/-- What does not change when a syncing node is rejected does not change at all. -/
theorem rejectAt_map {f : Node → β}
    (blind : ∀ node : Node, node.status = .syncing → f { node with status := .invalid } = f node)
    (start position : Nat) (nodes : List Node) :
    (rejectAt start position nodes).state.map f = nodes.map f := by
  rw [rejectAt]
  cases h : nodes[position]? with
  | none => rfl
  | some node =>
    have rejected (syncing : node.status = .syncing) := map_set_of_eq h (blind node syncing)
    dsimp only
    generalize { node with status := .invalid } = changed at rejected ⊢
    cases node.parentIndex with
    | none => rfl
    | some parentIndex =>
      dsimp only
      split
      · rfl
      · cases nodes[parentIndex]? with
        | none => rfl
        | some parent =>
          dsimp only
          split
          · cases status : node.status with
            | syncing => exact rejected status
            | invalid | valid | preMerge => rfl
          · rfl

theorem rejectFrom_map {f : Node → β}
    (blind : ∀ node : Node, node.status = .syncing → f { node with status := .invalid } = f node)
    (start count position : Nat) (nodes : List Node) :
    (rejectFrom start count position nodes).state.map f = nodes.map f := by
  induction count generalizing position nodes with
  | zero => rfl
  | succ count ih =>
    rw [rejectFrom]
    let P (swept : List Node) : Prop := swept.map f = nodes.map f
    apply Outcome.state_bind (P := P)
    · exact rejectAt_map blind start position nodes
    · intro rejected _
      apply Outcome.state_bind (P := P)
      · exact (ih _ _).trans (rejectAt_map blind start position nodes)
      · intro others _
        exact (ih _ _).trans (rejectAt_map blind start position nodes)

theorem reject_map {f : Node → β}
    (blind : ∀ node : Node, node.status = .syncing → f { node with status := .invalid } = f node)
    (tree : BlockTree) (root : Root) :
    ∃ nodes, (tree.reject root).state = { tree with nodes } ∧ nodes.map f = tree.nodes.map f := by
  rw [reject]
  cases tree.indexOf root with
  | error cause => exact ⟨tree.nodes, rfl, rfl⟩
  | ok start =>
    cases at_start : tree.nodeAt start with
    | error cause =>
      simp only [at_start]
      exact ⟨tree.nodes, rfl, rfl⟩
    | ok node =>
      have found : tree.nodes[start]? = some node := by
        rw [nodeAt] at at_start
        split at at_start
        · rename_i h
          cases at_start
          exact h
        · contradiction
      simp only [at_start]
      cases status : node.status with
      | invalid | valid | preMerge => exact ⟨tree.nodes, rfl, rfl⟩
      | syncing =>
        have marked := map_set_of_eq found (blind node status)
        let P (tree' : BlockTree) : Prop :=
          ∃ nodes, tree' = { tree with nodes } ∧ nodes.map f = tree.nodes.map f
        apply Outcome.state_bind (P := P)
        · exact ⟨_, rfl, (rejectFrom_map blind _ _ _ _).trans marked⟩
        · intro rejected _
          exact ⟨_, rfl, (rejectFrom_map blind _ _ _ _).trans marked⟩

theorem reject_sameButStatuses (tree : BlockTree) (root : Root) :
    SameButStatuses tree (tree.reject root).state :=
  reject_map (fun node _ => node.unjudged_status .invalid) tree root

theorem WellFormed.confirm {tree : BlockTree} (wf : tree.WellFormed) (root : Root) :
    (tree.confirm root).state.WellFormed :=
  (confirm_sameButStatuses tree root).wellFormed wf

theorem WellFormed.reject {tree : BlockTree} (wf : tree.WellFormed) (root : Root) :
    (tree.reject root).state.WellFormed :=
  (reject_sameButStatuses tree root).wellFormed wf

end BlockTree

end LmdGhost
