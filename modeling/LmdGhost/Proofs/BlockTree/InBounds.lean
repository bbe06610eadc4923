import LmdGhost.BlockTree.Chain
import LmdGhost.Proofs.BlockTree.Calls
/-!
Positions that no operation leaves. As long as links are within bounds, every operation finds each
node that it looks for and leaves links within bounds; the one exception is pruning that severs a
best link. A tree built by its own operations has no such link, so none of them ever looks for a
node where there is none.
-/

namespace LmdGhost.BlockTree

variable {α β σ : Type} {tree tree' : BlockTree} {nodes : List Node} {i k : Nat}

/-- No node was looked for at a position where there is none. -/
def InBounds (result : Except Error α) : Prop :=
  ∀ position, result ≠ .error (.indexOutOfBounds position)

namespace InBounds

theorem ok (a : α) : InBounds (.ok a) :=
  nofun

theorem bind {first : Outcome σ Error α} {next : σ → α → Outcome σ Error β}
    (left : InBounds first.result)
    (right : ∀ a, first.result = .ok a → InBounds (next first.state a).result) :
    InBounds (first.bind next).result := by
  cases result : first.result with
  | error cause =>
    rw [Outcome.result_bind_of_error next result]
    rw [result] at left
    intro position failed
    exact left position (congrArg Except.error (Except.error.inj failed))
  | ok a =>
    rw [Outcome.result_bind_of_ok next result]
    exact right a result

end InBounds

namespace Tally

variable {boost previous : Option Boost} {tally : Tally}

theorem inBounds_passUp {parent : Option Nat}
    (found : ∀ p, parent = some p → p < tally.deltas.length) (delta : Delta) :
    InBounds (tally.passUp parent delta).result := by
  cases parent with
  | none => exact .ok ()
  | some p =>
    simp only [passUp, List.getElem?_eq_getElem (found p rfl)]
    split <;> simp [InBounds]

theorem inBounds_weigh (first : ParentsFirst (parents tally.nodes))
    (same : tally.deltas.length = tally.nodes.length) (bound : k < tally.nodes.length) :
    InBounds (tally.weigh boost previous k).result := by
  have at_k := List.getElem?_eq_getElem bound
  rw [weigh, at_k, List.getElem?_eq_getElem (same ▸ bound)]
  dsimp only
  split
  · simp [InBounds]
  · split
    · split <;> simp [InBounds]
    · refine inBounds_passUp (fun p link => ?_) _
      have before := first (parents_of_getElem? at_k link)
      dsimp only
      omega

theorem inBounds_weighAll (first : ParentsFirst (parents tally.nodes))
    (same : tally.deltas.length = tally.nodes.length) {count : Nat}
    (bound : count ≤ tally.nodes.length) :
    InBounds (tally.weighAll boost previous count).result := by
  induction count generalizing tally with
  | zero => exact .ok ()
  | succ k ih =>
    have links := parents_weigh boost previous k tally
    have length := congrArg List.length links
    rw [length_parents, length_parents] at length
    rw [weighAll]
    refine (inBounds_weigh first same bound).bind fun _ _ => ih ?_ ?_ ?_
    · rwa [links]
    · rw [length_deltas_weigh, length, same]
    · omega

end Tally

theorem inBounds_confirmFrom (first : ParentsFirst (parents nodes)) (bound : i < nodes.length)
    (steps : Nat) : InBounds (confirmFrom steps i nodes).result := by
  induction steps generalizing i nodes with
  | zero => exact .ok ()
  | succ steps ih =>
    have at_i := List.getElem?_eq_getElem bound
    have links := parents_of_unjudged (map_set_of_eq at_i (Node.unjudged_status _ .valid))
    rw [confirmFrom, at_i]
    dsimp only
    split
    · simp [InBounds]
    · simp [InBounds]
    · simp [InBounds]
    · split
      · simp [InBounds]
      · rename_i p link
        have before := first (parents_of_getElem? at_i link)
        exact ih (by rwa [links]) (by rw [List.length_set]; omega)

theorem inBounds_rejectAt (first : ParentsFirst (parents nodes)) (bound : i < nodes.length)
    (start : Nat) : InBounds (rejectAt start i nodes).result := by
  have at_i := List.getElem?_eq_getElem bound
  rw [rejectAt, at_i]
  dsimp only
  split
  · simp [InBounds]
  · rename_i p link
    have before := first (parents_of_getElem? at_i link)
    rw [List.getElem?_eq_getElem (Nat.lt_trans before bound)]
    dsimp only
    split
    · simp [InBounds]
    · split
      · split <;> simp [InBounds]
      · simp [InBounds]

theorem inBounds_rejectFrom (first : ParentsFirst (parents nodes)) (start : Nat) {count : Nat}
    (bound : i + count ≤ nodes.length) : InBounds (rejectFrom start count i nodes).result := by
  induction count generalizing i nodes with
  | zero => exact .ok []
  | succ count ih =>
    have links : parents (rejectAt start i nodes).state = parents nodes :=
      rejectAt_map (fun _ _ => rfl) start i nodes
    have length := congrArg List.length links
    rw [length_parents, length_parents] at length
    rw [rejectFrom]
    refine (inBounds_rejectAt first (by omega) start).bind fun rejected _ => ?_
    refine (ih ?_ ?_).bind fun _ _ => .ok _
    · rwa [links]
    · omega

namespace Bounded

theorem inBounds_confirm (bounded : tree.Bounded) (root : Root) :
    InBounds (tree.confirm root).result := by
  rw [confirm, indexOf]
  cases index : tree.index[root]? with
  | none => simp [InBounds]
  | some i =>
    dsimp only
    rw [Outcome.result_lift, Outcome.mapError_id]
    exact inBounds_confirmFrom bounded.first (bounded.index_lt index) _

theorem inBounds_reject (bounded : tree.Bounded) (root : Root) :
    InBounds (tree.reject root).result := by
  rw [reject, indexOf]
  cases index : tree.index[root]? with
  | none => simp [InBounds]
  | some start =>
    obtain ⟨node, at_start, -⟩ := bounded.indexed index
    have position := bounded.index_lt index
    have links := parents_of_unjudged (map_set_of_eq at_start (node.unjudged_status .invalid))
    simp only [nodeAt, at_start]
    split
    · simp [InBounds]
    · simp [InBounds]
    · simp [InBounds]
    · refine InBounds.bind ?_ fun _ _ => .ok _
      rw [Outcome.result_lift, Outcome.mapError_id]
      refine inBounds_rejectFrom ?_ _ ?_
      · rw [links]
        exact bounded.first
      · rw [List.length_set]
        omega

theorem inBounds_applyScores (bounded : tree.Bounded) (change : ScoreChange) :
    InBounds (tree.applyScores change).result := by
  rcases bounded.applyScores_cases change with
    ⟨-, failed⟩ | ⟨count, cause, weighed, failed, -⟩ | ⟨-, -, passed, -⟩
  · rw [failed]
    simp [InBounds]
  · rw [failed, ← weighed]
    exact Tally.inBounds_weighAll bounded.first count (Nat.le_refl _)
  · rw [passed]
    exact .ok ()

theorem inBounds_findHead (bounded : tree.Bounded) (justified : Root) :
    InBounds (tree.findHead justified) := by
  rw [findHead]
  cases index : tree.index[justified]? with
  | none => simp [InBounds]
  | some i =>
    obtain ⟨node, at_i, -⟩ := bounded.indexed index
    obtain ⟨best, at_best⟩ : ∃ best, tree.nodes[node.bestDescendant.getD i]? = some best := by
      cases linked : node.bestDescendant with
      | none => exact ⟨node, at_i⟩
      | some d => exact bounded.exists_linked at_i (.inr linked)
    simp only [nodeAt, at_i, at_best, bind, Except.bind]
    split
    · exact .ok best.root
    · simp [InBounds, throw, throwThe, MonadExceptOf.throw]

end Bounded

theorem inBounds_ancestor (tree : BlockTree) (root : Root) (slot : Slot) :
    InBounds (tree.ancestor root slot) := by
  rw [ancestor]
  split <;> simp [InBounds]

/-- The call prunes, removes nodes and severs a best link. -/
def Breaks (tree : BlockTree) (call : Call) : Prop :=
  ∃ finalized count, call = .prune finalized ∧ tree.index[finalized]? = some count ∧
    tree.pruneThreshold.toNat ≤ count ∧ tree.Severs count

namespace Bounded

/-- Pruning that does not break the tree succeeds for known blocks and keeps links within bounds. -/
theorem prune (bounded : tree.Bounded) {finalized : Root}
    (whole : ¬ tree.Breaks (.prune finalized)) :
    InBounds (tree.prune finalized).result ∧ (tree.prune finalized).state.Bounded := by
  cases known : tree.index[finalized]? with
  | none =>
    rw [BlockTree.prune, known]
    exact ⟨by simp [InBounds], bounded⟩
  | some count =>
    by_cases enough : tree.pruneThreshold.toNat ≤ count
    · rcases bounded.prune_of_enough known enough with ⟨unsevered, state, result⟩ | ⟨severs, -⟩
      · rw [state, result]
        exact ⟨.ok _, bounded.dropFirst unsevered⟩
      · exact absurd ⟨finalized, count, rfl, known, enough, severs⟩ whole
    · rw [BlockTree.prune, known]
      simp only [Nat.lt_of_not_le enough, if_true]
      exact ⟨.ok _, bounded⟩

theorem after (bounded : tree.Bounded) {call : Call} (whole : ¬ tree.Breaks call) :
    (tree.after call).Bounded := by
  cases call with
  | insert block => exact bounded.insert block
  | applyScores change => exact bounded.applyScores change
  | prune finalized => exact (bounded.prune whole).2
  | setPruneThreshold pruneThreshold => exact bounded.of_places rfl rfl
  | confirm root => exact (confirm_sameButStatuses tree root).bounded bounded
  | reject root => exact (reject_sameButStatuses tree root).bounded bounded

/-- Only a call that breaks the tree looks for a node where there is none. -/
theorem cause?_iff (bounded : tree.Bounded) {call : Call} :
    (∃ position, tree.cause? call = some (.indexOutOfBounds position)) ↔ tree.Breaks call := by
  constructor
  · rintro ⟨position, failed⟩
    apply Classical.byContradiction
    intro whole
    cases call with
    | insert | setPruneThreshold => contradiction
    | applyScores change =>
      exact bounded.inBounds_applyScores change position (Outcome.cause?_eq_some.mp failed)
    | prune finalized => exact (bounded.prune whole).1 position (Outcome.cause?_eq_some.mp failed)
    | confirm root =>
      exact bounded.inBounds_confirm root position (Outcome.cause?_eq_some.mp failed)
    | reject root => exact bounded.inBounds_reject root position (Outcome.cause?_eq_some.mp failed)
  · rintro ⟨finalized, count, rfl, known, enough, severs⟩
    rcases bounded.prune_of_enough known enough with ⟨unsevered, -⟩ | ⟨-, link, failed⟩
    · exact absurd severs unsevered
    · exact ⟨link, Outcome.cause?_eq_some.mpr failed⟩

end Bounded

theorem WellFormed.not_breaks (wf : tree.WellFormed) (call : Call) : ¬ tree.Breaks call := by
  rintro ⟨finalized, count, rfl, -, -, severs⟩
  exact wf.not_severs count severs

structure Consistent (tree : BlockTree) : Prop where
  distinct : (tree.nodes.map (·.root)).Nodup
  /-- The index lists the nodes and nothing else. -/
  indexed : ∀ {root : Root} {i : Nat},
    tree.index[root]? = some i ↔ (tree.nodes.map (·.root))[i]? = some root
  parent : ∀ {i p : Nat} {node : Node}, tree.nodes[i]? = some node → node.parentIndex = some p →
    p < i ∧ ∃ parent : Node, tree.nodes[p]? = some parent ∧ node.parent = some parent.root
  /-- Best links are set together or not at all. -/
  paired : ∀ {i : Nat} {node : Node}, tree.nodes[i]? = some node →
    node.bestChild.isSome = node.bestDescendant.isSome
  child : ∀ {i c : Nat} {node : Node}, tree.nodes[i]? = some node → node.bestChild = some c →
    ∃ child : Node, tree.nodes[c]? = some child ∧ child.parentIndex = some i
  /-- The best descendant is a proper one, in the subtree of the best child. -/
  descendant : ∀ {i c d : Nat} {node : Node}, tree.nodes[i]? = some node →
    node.bestChild = some c → node.bestDescendant = some d →
      i ≠ d ∧ Below (parents tree.nodes) i d ∧ Below (parents tree.nodes) c d

theorem WellFormed.consistent (wf : tree.WellFormed) : tree.Consistent where
  distinct := wf.nodup_roots
  indexed := by
    intro root i
    rw [wf.indexed, List.getElem?_map, Option.map_eq_some_iff]
  parent := wf.parent
  paired := by
    intro i node at_i
    have links := wf.best at_i
    generalize node.bestChild = child, node.bestDescendant = descendant at links
    cases links <;> rfl
  child := by
    intro i c node at_i set
    have links := wf.best at_i
    rw [set] at links
    exact exists_of_parents links.childOf
  descendant := by
    intro i c d node at_i child descendant
    have links := wf.best at_i
    rw [child, descendant] at links
    have later := (wf.lt_of_linksTo at_i (.inr descendant)).1
    cases links with
    | set childOf below =>
      exact ⟨Nat.ne_of_lt later, (BestLinks.set childOf below).below wf.first, below⟩

/--
In every tree that calls build from the empty one, failing calls included, nodes, index and links
fit together, and no call and no query looks for a node where there is none.
-/
theorem consistent_of_run {history : List (Event BlockTree Call)} {pruneThreshold : UInt64}
    {justifiedEpoch finalizedEpoch : Epoch}
    (run : Run BlockTree.after (fun _ _ _ => True)
      (empty pruneThreshold justifiedEpoch finalizedEpoch) history tree) :
    tree.Consistent ∧
      (∀ call position, tree.cause? call ≠ some (.indexOutOfBounds position)) ∧
      (∀ justified position, tree.findHead justified ≠ .error (.indexOutOfBounds position)) ∧
      ∀ root slot position, tree.ancestor root slot ≠ .error (.indexOutOfBounds position) := by
  have wf := wellFormed_of_run run
  refine ⟨wf.consistent, ?_, wf.bounded.inBounds_findHead, inBounds_ancestor tree⟩
  intro call position failed
  exact wf.not_breaks call (wf.bounded.cause?_iff.mp ⟨position, failed⟩)

/-- Two branches, a pass over the weights that fails between them, and pruning that keeps both. -/
def uprooted : List Call :=
  [.insert (plainBlock 1 none), .insert (plainBlock 2 (some 1)), .insert (plainBlock 3 (some 1)),
    .applyScores ⟨[0, 10, 0], none, 1, 1⟩, .applyScores ⟨[0, -20, 30], none, 1, 1⟩,
    .prune (.ofNat 2)]

theorem uprooted_consistent :
    ∃ history tree, Run BlockTree.after (fun _ _ _ => True) (empty 0 1 1) history tree ∧
      tree.nodes.map (fun node => (node.root, node.parentIndex, node.weight)) =
        [(.ofNat 2, none, 10), (.ofNat 3, none, 30)] ∧ tree.Consistent := by
  have outset : Run BlockTree.after (fun _ _ _ => True) (empty 0 1 1) [] (empty 0 1 1) := .start
  obtain ⟨history, run⟩ := outset.calls uprooted
  exact ⟨history, _, run, by decide +kernel, (consistent_of_run run).1⟩

end LmdGhost.BlockTree
