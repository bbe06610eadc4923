import LmdGhost.Proofs.BlockTree.Calls
import LmdGhost.Proofs.BlockTree.Heads
/-!
When a head is found. After new scores, every block with a viable block in its subtree leads to a
head, unless there is a block that is viable itself but whose children have all lost their heads at
a time when a later child had come to outrank its best one.
-/

namespace LmdGhost.BlockTree

variable {tree : BlockTree} {change : ScoreChange} {node : Node} {root : Root} {p : Nat}

/--
A viable block no child of which carries a head any more, with a child imported after the one that
was best before and now ranked above it.
-/
def Stranded (before after : BlockTree) (root : Root) : Prop :=
  (after.node? root).any after.isViable = true ∧
    (∀ child ∈ after.children root, after.carriesHead child.root = false) ∧
    ∃ (b c : Nat) (best later : Node), (before.node? root).bind (·.bestChild) = some b ∧
      after.nodes[b]? = some best ∧ b < c ∧ after.nodes[c]? = some later ∧
      later ∈ after.children root ∧ best.rank < later.rank

theorem WellFormed.stranded_iff (wf : tree.WellFormed) (change : ScoreChange)
    (at_p : tree.nodes[p]? = some node) :
    Stranded tree (tree.rescored change) node.root ↔
      (tree.rescored change).StrandedAt p node.bestChild := by
  have wf' := wf.rescored change
  have index : (tree.rescored change).index[node.root]? = some p := by
    rw [index_rescored wf, wf.index_root at_p]
  obtain ⟨node', at_p', named⟩ := wf'.indexed.mp index
  have held : (tree.node? node.root).bind (·.bestChild) = node.bestChild := by
    rw [wf.node?_root at_p, Option.bind_some]
  rw [Stranded, held, ← named, wf'.node?_root at_p', Option.any_some, ← viableAt_eq at_p']
  constructor
  · rintro ⟨viable, none_carries, b, c, best, later, was_best, at_b, after, at_c, child, rank⟩
    refine ⟨viable, fun e childOf carries => ?_, b, c, was_best, after, ?_, ?_⟩
    · obtain ⟨child, at_e, -⟩ := exists_of_parents childOf
      have idle := none_carries child ((wf'.childOf_iff at_p' at_e).mp childOf)
      rw [(wf'.carriesHead_iff at_e).mpr carries] at idle
      contradiction
    · exact (wf'.childOf_iff at_p' at_c).mpr child
    · rwa [rankAt_eq at_b, rankAt_eq at_c]
  · rintro ⟨viable, none_carries, b, c, was_best, after, childOf, rank⟩
    obtain ⟨later, at_c, -⟩ := exists_of_parents childOf
    have bound := (List.getElem?_eq_some_iff.mp at_c).1
    have at_b := List.getElem?_eq_getElem (Nat.lt_trans after bound)
    rw [rankAt_eq at_b, rankAt_eq at_c] at rank
    refine ⟨viable, fun child member => ?_, b, c, _, later, was_best, at_b, after, at_c, ?_, rank⟩
    · obtain ⟨e, at_e, link⟩ := (wf'.mem_children at_p').mp member
      rw [← Bool.not_eq_true, wf'.carriesHead_iff at_e]
      exact none_carries e (parents_of_getElem? at_e link)
    · exact (wf'.childOf_iff at_p' at_c).mp childOf

/--
Every block of a subtree finds a head where there is one exactly when none of them is stranded.
-/
theorem WellFormed.heads_found_iff (wf : tree.WellFormed) (change : ScoreChange) (root : Root) :
    (∀ below, (tree.rescored change).descends root below = true →
      ((tree.rescored change).findHead below).isOk = (tree.rescored change).carriesHead below) ↔
    ∀ below, (tree.rescored change).descends root below = true →
      ¬Stranded tree (tree.rescored change) below := by
  have wf' := wf.rescored change
  have descends_iff : ∀ {below}, (tree.rescored change).descends root below = true ↔
      ∃ p, tree.index[root]? = some p ∧ ∃ s node, Below (parents tree.nodes) p s ∧
        tree.nodes[s]? = some node ∧ node.root = below := by
    intro below
    rw [wf'.descends_iff, index_rescored wf, parents_rescored wf]
    constructor
    · rintro ⟨p, s, index, index_s, path⟩
      obtain ⟨node, at_s, named⟩ := wf.indexed.mp index_s
      exact ⟨p, index, s, node, path, at_s, named⟩
    · rintro ⟨p, index, s, node, path, at_s, rfl⟩
      exact ⟨p, s, index, wf.index_root at_s, path⟩
  have found_iff : ∀ {s node}, tree.nodes[s]? = some node →
      (((tree.rescored change).findHead node.root).isOk =
        (tree.rescored change).carriesHead node.root ↔ (tree.rescored change).Sound s) := by
    intro s node at_s
    have index : (tree.rescored change).index[node.root]? = some s := by
      rw [index_rescored wf, wf.index_root at_s]
    obtain ⟨node', at_s', named⟩ := wf'.indexed.mp index
    rw [← named]
    exact wf'.isOk_findHead_iff at_s'
  constructor
  · intro found below descends
    obtain ⟨p, index, s, node, path, at_s, rfl⟩ := descends_iff.mp descends
    rw [wf.stranded_iff change at_s]
    refine (wf.sound_below_iff change p).mp (fun s' path' => ?_) s node path at_s
    obtain ⟨node', at_s'⟩ := path'.exists_node
    exact (found_iff at_s').mp
      (found _ (descends_iff.mpr ⟨p, index, s', node', path', at_s', rfl⟩))
  · intro unstranded below descends
    obtain ⟨p, index, s, node, path, at_s, rfl⟩ := descends_iff.mp descends
    rw [found_iff at_s]
    refine (wf.sound_below_iff change p).mpr (fun s' node' path' at_s' => ?_) s path
    rw [← wf.stranded_iff change at_s']
    exact unstranded _ (descends_iff.mpr ⟨p, index, s', node', path', at_s', rfl⟩)

/--
After new scores, all blocks of a subtree find a head exactly where there is one, if and only if no
block of the subtree is stranded.
-/
theorem isOk_findHead_iff_not_stranded {pruneThreshold : UInt64}
    {justifiedEpoch finalizedEpoch : Epoch}
    {history : List (Event BlockTree Call)}
    (run : Run after (fun _ _ _ => True) (empty pruneThreshold justifiedEpoch finalizedEpoch)
      history tree)
    (ok : (tree.applyScores change).result = .ok ()) (root : Root) :
    (∀ below, (tree.applyScores change).state.descends root below = true →
      ((tree.applyScores change).state.findHead below).isOk =
        (tree.applyScores change).state.carriesHead below) ↔
    ∀ below, (tree.applyScores change).state.descends root below = true →
      ¬Stranded tree (tree.applyScores change).state below := by
  have wf := wellFormed_of_run run
  rw [(wf.applyScores_ok ok).2.1]
  exact wf.heads_found_iff change root

/-- A viable block with two children, the first of which was better before both were rejected. -/
def forsaken : List Call :=
  [.insert (plainBlock 1 none), .insert (plainBlock 2 (some 1)), .insert (plainBlock 3 (some 1)),
    .applyScores ⟨[0, 10, 0], none, 1, 1⟩, .reject (.ofNat 2), .reject (.ofNat 3)]

theorem forsaken_head_missed :
    ∃ history tree change, Run after (fun _ _ _ => True) (empty 0 1 1) history tree ∧
      (tree.applyScores change).result = .ok () ∧
      (tree.applyScores change).state.carriesHead (.ofNat 1) = true ∧
      (tree.applyScores change).state.findHead (.ofNat 1) =
        .error (.headNotViable (.ofNat 3)) := by
  have outset : Run after (fun _ _ _ => True) (empty 0 1 1) [] (empty 0 1 1) := .start
  obtain ⟨history, run⟩ := outset.calls forsaken
  refine ⟨history, _, ⟨[0, 0, 20], none, 1, 1⟩, run, ?_, ?_, ?_⟩ <;> decide +kernel

theorem forsaken_stranded :
    ∃ history tree change, Run after (fun _ _ _ => True) (empty 0 1 1) history tree ∧
      (tree.applyScores change).result = .ok () ∧
      ∃ root, Stranded tree (tree.applyScores change).state root := by
  have outset : Run after (fun _ _ _ => True) (empty 0 1 1) [] (empty 0 1 1) := .start
  obtain ⟨history, run⟩ := outset.calls forsaken
  have ok : ((forsaken.foldl after (empty 0 1 1)).applyScores ⟨[0, 0, 20], none, 1, 1⟩).result =
      .ok () := by decide +kernel
  refine ⟨history, _, _, run, ok, ?_⟩
  by_contra none_stranded
  have found := (isOk_findHead_iff_not_stranded run ok (.ofNat 1)).mpr
    (fun below _ stranded => none_stranded ⟨below, stranded⟩) (.ofNat 1) (by decide +kernel)
  revert found
  decide +kernel

end LmdGhost.BlockTree
