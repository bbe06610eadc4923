import LmdGhost.Proofs.BlockTree.Insertion
import LmdGhost.Proofs.BlockTree.Pruning
import LmdGhost.Proofs.BlockTree.Scores
import LmdGhost.Proofs.BlockTree.Verdicts
import LmdGhost.Proofs.Run
/-!
The calls that change a tree, and what holds in every tree they lead to from the empty one. A call
that fails may have changed the tree, so what it leaves behind counts in both cases.
-/

namespace LmdGhost.BlockTree

inductive Call where
  | insert (block : Block)
  | applyScores (change : ScoreChange)
  | prune (finalized : Root)
  | setPruneThreshold (pruneThreshold : UInt64)
  | confirm (root : Root)
  | reject (root : Root)

def after (tree : BlockTree) : Call → BlockTree
  | .insert block => tree.insert block
  | .applyScores change => (tree.applyScores change).state
  | .prune finalized => (tree.prune finalized).state
  | .setPruneThreshold pruneThreshold => tree.setPruneThreshold pruneThreshold
  | .confirm root => (tree.confirm root).state
  | .reject root => (tree.reject root).state

def cause? (tree : BlockTree) : Call → Option Error
  | .insert _ | .setPruneThreshold _ => none
  | .applyScores change => (tree.applyScores change).cause?
  | .prune finalized => (tree.prune finalized).cause?
  | .confirm root => (tree.confirm root).cause?
  | .reject root => (tree.reject root).cause?

namespace WellFormed

variable {tree : BlockTree}

theorem setPruneThreshold (wf : tree.WellFormed) (pruneThreshold : UInt64) :
    (tree.setPruneThreshold pruneThreshold).WellFormed :=
  wf.of_places rfl rfl

theorem after (wf : tree.WellFormed) (call : Call) : (tree.after call).WellFormed := by
  cases call with
  | insert block => exact wf.insert block
  | applyScores change => exact wf.applyScores change
  | prune finalized => exact wf.prune finalized
  | setPruneThreshold pruneThreshold => exact wf.setPruneThreshold pruneThreshold
  | confirm root => exact wf.confirm root
  | reject root => exact wf.reject root

end WellFormed

theorem wellFormed_of_run {allowed : List (Event BlockTree Call) → BlockTree → Call → Prop}
    {history : List (Event BlockTree Call)} {tree : BlockTree} {pruneThreshold : UInt64}
    {justifiedEpoch finalizedEpoch : Epoch}
    (run : Run after allowed (empty pruneThreshold justifiedEpoch finalizedEpoch) history tree) :
    tree.WellFormed := by
  let P (_ : List (Event BlockTree Call)) (tree : BlockTree) : Prop := tree.WellFormed
  refine Run.invariant (P := P) (empty_wellFormed _ _ _) ?_ run
  intro _ _ call wf _
  exact wf.after call

theorem forall_blocks_insert {tree : BlockTree} {P : Block → Prop} {block : Block}
    (all : ∀ node ∈ tree.nodes, P node.toBlock) (fits : P block) :
    ∀ node ∈ (tree.insert block).nodes, P node.toBlock := by
  cases known : tree.contains block.root with
  | true => rwa [insert_of_contains known]
  | false =>
    simp only [nodes_insert_of_new known, List.forall_mem_append, List.forall_mem_singleton]
    exact ⟨all, fits⟩

/-- What holds of all blocks whatever their verdicts is kept by every call that enters no other. -/
theorem forall_blocks_after {tree : BlockTree} {P : Block → Prop} {call : Call}
    (blind : ∀ block status, P block → P { block with status })
    (all : ∀ node ∈ tree.nodes, P node.toBlock) (wf : tree.WellFormed)
    (enters : ∀ block, call = .insert block → P block) :
    ∀ node ∈ (tree.after call).nodes, P node.toBlock := by
  have of_map {f : Block → Block} {nodes : List Node}
      (same : nodes.map (fun node => f node.toBlock) = tree.nodes.map (fun node => f node.toBlock))
      (there : ∀ {block}, P block → P (f block)) (back : ∀ {block}, P (f block) → P block) :
      ∀ node ∈ nodes, P node.toBlock := by
    intro node member
    obtain ⟨i, at_i⟩ := List.mem_iff_getElem?.mp member
    obtain ⟨old, at_i', eq⟩ := getElem?_of_map_eq same at_i
    apply back
    rw [← eq]
    exact there (all old (List.mem_of_getElem? at_i'))
  have of_verdict {tree' : BlockTree} (same : SameButStatuses tree tree') :
      ∀ node ∈ tree'.nodes, P node.toBlock := by
    obtain ⟨nodes, rfl, same⟩ := same
    apply of_map (f := fun block => { block with status := .syncing })
      (map_eq_of_map_eq same fun _ => rfl) (blind _ _)
    intro block known
    exact blind { block with status := .syncing } block.status known
  cases call with
  | insert block => exact forall_blocks_insert all (enters block rfl)
  | applyScores change =>
    exact of_map (f := id) (map_applyScores (fun _ => rfl) (fun _ => rfl) wf change) id id
  | prune finalized =>
    rcases wf.prune_cases finalized with ⟨same, -⟩ | ⟨count, -, dropped, -⟩
    · rwa [after, same]
    · rw [after, dropped]
      intro node member
      obtain ⟨old, kept, rfl⟩ := List.mem_map.mp member
      exact all old (List.mem_of_mem_drop kept)
  | setPruneThreshold => exact all
  | confirm root => exact of_verdict (confirm_sameButStatuses tree root)
  | reject root => exact of_verdict (reject_sameButStatuses tree root)

/-- A block that stays in a tree stays what it is, up to the verdict on it. -/
theorem WellFormed.block_after {tree : BlockTree} (wf : tree.WellFormed) {call : Call}
    {root : Root} {node node' : Node} (found : tree.node? root = some node)
    (stays : (tree.after call).node? root = some node') :
    { node'.toBlock with status := node.status } = node.toBlock := by
  by_cases repeated : ∃ block, call = .insert block ∧ tree.contains block.root = true
  · obtain ⟨block, rfl, known⟩ := repeated
    rw [BlockTree.after, insert_of_contains known, found] at stays
    obtain rfl := Option.some.inj stays
    rfl
  · obtain ⟨i, at_i, rfl⟩ := wf.node?_eq_some.mp found
    obtain ⟨j, at_j, named⟩ := (wf.after call).node?_eq_some.mp stays
    refine forall_blocks_after (P := fun block => block.root = node.root →
      { block with status := node.status } = node.toBlock) (fun _ _ same => same) ?_ wf ?_ node'
      (List.mem_of_getElem? at_j) named
    · intro other member same
      obtain ⟨k, at_k⟩ := List.mem_iff_getElem?.mp member
      obtain rfl := wf.root_unique at_k at_i same
      obtain rfl := Option.some.inj (at_k.symm.trans at_i)
      rfl
    · intro block entered same
      refine absurd ⟨block, entered, ?_⟩ repeated
      rw [same]
      exact wf.contains_root at_i

/-- A syncing block of epoch 1, for runs that are written out. -/
def plainBlock (root : Nat) (parent : Option Nat) : Block :=
  { (default : Block) with
    root := .ofNat root
    parent := parent.map .ofNat
    justified := ⟨1, .zero⟩
    finalized := ⟨1, .zero⟩
    status := .syncing }

end LmdGhost.BlockTree
