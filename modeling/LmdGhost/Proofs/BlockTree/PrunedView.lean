import LmdGhost.Proofs.BlockTree.Calls
import LmdGhost.Proofs.BlockTree.PrunedScores
/-!
Pruning cannot be seen from the blocks that are kept. Nodes in front of the cut are the older part
of every chain, so a walk along the chain of a kept block sees the same kept blocks as before and
then ends. Everything else that is asked about a kept block is answered by its node and by nodes
further on.
-/

namespace LmdGhost.BlockTree

variable {tree pruned : BlockTree} {nodes : List Node} {node : Node} {root a b : Root}
  {count k steps steps' : Nat}

/-- The chain of a kept position is kept up to the first node in front of the cut. -/
theorem chainFrom_dropFirst (first : ParentsFirst (parents tree.nodes))
    (bound : k + count < tree.nodes.length) (enough : k + count < steps) (enough' : k < steps') :
    ∃ kept gone, chainFrom tree.nodes steps (k + count) = kept ++ gone ∧
      chainFrom (tree.dropFirst count).nodes steps' k = kept.map (Node.shifted count) ∧
      (∀ node ∈ kept, ∃ i, count ≤ i ∧ tree.nodes[i]? = some node) ∧
      ∀ node ∈ gone, ∃ i, i < count ∧ tree.nodes[i]? = some node := by
  induction steps' generalizing k steps with
  | zero => omega
  | succ steps' ih =>
    obtain ⟨steps, rfl⟩ := Nat.exists_eq_succ_of_ne_zero (Nat.ne_of_gt (Nat.zero_lt_of_lt enough))
    have at_k := List.getElem?_eq_getElem bound
    generalize tree.nodes[k + count] = top at at_k
    have at_k' : (tree.dropFirst count).nodes[k]? = some (top.shifted count) := by
      rw [getElem?_dropFirst, at_k, Option.map_some]
    have top_kept : ∃ i, count ≤ i ∧ tree.nodes[i]? = some top := ⟨_, Nat.le_add_left _ _, at_k⟩
    rw [chainFrom_succ _ _ at_k, chainFrom_succ _ _ at_k']
    cases link : top.parentIndex with
    | none =>
      have link' : (top.shifted count).parentIndex = none := by rw [Node.shifted, link]; rfl
      rw [link']
      exact ⟨[top], [], rfl, rfl, by simpa using top_kept, by simp⟩
    | some p =>
      have before := first (parents_of_getElem? at_k link)
      by_cases stays : count ≤ p
      · obtain ⟨q, rfl⟩ := Nat.exists_eq_add_of_le' stays
        have link' : (top.shifted count).parentIndex = some q := by
          rw [Node.shifted, link, Option.bind_some, shiftDown?_eq_some]
        have enough_left : q + count < steps := by omega
        obtain ⟨kept, gone, chain, chain', are_kept, are_gone⟩ :=
          ih (by omega) enough_left (by omega)
        rw [link']
        refine ⟨top :: kept, gone, congrArg (top :: ·) chain,
          congrArg (top.shifted count :: ·) chain', ?_, are_gone⟩
        exact List.forall_mem_cons.mpr ⟨top_kept, are_kept⟩
      · have link' : (top.shifted count).parentIndex = none := by
          rw [Node.shifted, link, Option.bind_some, shiftDown?, if_neg stays]
        rw [link']
        refine ⟨[top], chainFrom tree.nodes steps p, rfl, rfl, by simpa using top_kept, ?_⟩
        intro node member
        obtain ⟨i, below, at_i⟩ := (mem_chainFrom first (by omega)).mp member
        have lower := below.le first
        exact ⟨i, by omega, at_i⟩

namespace WellFormed

variable (wf : tree.WellFormed)
include wf

theorem contains_dropFirst_iff : (tree.dropFirst count).contains root = true ↔
    ∃ i, tree.index[root]? = some i ∧ count ≤ i := by
  rw [contains_iff_index]
  constructor
  · rintro ⟨i, index⟩
    exact ⟨i + count, wf.index_dropFirst.mp index, Nat.le_add_left _ _⟩
  · rintro ⟨i, index, kept⟩
    obtain ⟨i, rfl⟩ := Nat.exists_eq_add_of_le' kept
    exact ⟨i, wf.index_dropFirst.mpr index⟩

theorem exists_of_dropFirst (known : (tree.dropFirst count).contains root = true) :
    ∃ k node, (tree.dropFirst count).index[root]? = some k ∧
      tree.index[root]? = some (k + count) ∧ tree.nodes[k + count]? = some node ∧
      (tree.dropFirst count).nodes[k]? = some (node.shifted count) := by
  obtain ⟨k, index⟩ := contains_iff_index.mp known
  have index' := wf.index_dropFirst.mp index
  obtain ⟨node, at_k, -⟩ := wf.indexed.mp index'
  exact ⟨k, node, index, index', at_k, by rw [getElem?_dropFirst, at_k, Option.map_some]⟩

theorem node?_dropFirst (known : (tree.dropFirst count).contains root = true) :
    (tree.dropFirst count).node? root = (tree.node? root).map (Node.shifted count) := by
  obtain ⟨k, node, index, index', at_k, at_k'⟩ := wf.exists_of_dropFirst known
  rw [node?, node?, index, index', Option.bind_some, Option.bind_some, at_k, at_k']
  rfl

theorem chain_dropFirst (known : (tree.dropFirst count).contains root = true) :
    ∃ kept gone, tree.chain root = kept ++ gone ∧
      (tree.dropFirst count).chain root = kept.map (Node.shifted count) ∧
      (∀ node ∈ kept, (tree.dropFirst count).contains node.root = true) ∧
      ∀ node ∈ gone, (tree.dropFirst count).contains node.root = false := by
  obtain ⟨k, -, index, index', -⟩ := wf.exists_of_dropFirst known
  obtain ⟨kept, gone, chain, chain', are_kept, are_gone⟩ :=
    chainFrom_dropFirst wf.first (wf.index_lt index') (wf.index_lt index')
      ((wf.dropFirst count).index_lt index)
  rw [BlockTree.chain, BlockTree.chain, index, index']
  refine ⟨kept, gone, chain, chain', ?_, ?_⟩
  · intro node member
    obtain ⟨i, stays, at_i⟩ := are_kept node member
    exact wf.contains_dropFirst_iff.mpr ⟨i, wf.index_root at_i, stays⟩
  · intro node member
    obtain ⟨i, lower, at_i⟩ := are_gone node member
    exact wf.not_contains_dropFirst lower (wf.index_root at_i)

theorem findHead_dropFirst (known : (tree.dropFirst count).contains root = true) :
    (tree.dropFirst count).findHead root = tree.findHead root := by
  obtain ⟨k, node, index, index', at_k, at_k'⟩ := wf.exists_of_dropFirst known
  have best : ∃ leaf, tree.nodes[node.bestDescendant.getD (k + count)]? = some leaf ∧
      (tree.dropFirst count).nodes[(node.shifted count).bestDescendant.getD k]? =
        some (leaf.shifted count) := by
    cases linked : node.bestDescendant with
    | none =>
      have linked' : (node.shifted count).bestDescendant = none := by
        rw [Node.shifted, linked, Option.map_none]
      exact ⟨node, at_k, by rw [linked', Option.getD_none, at_k']⟩
    | some d =>
      obtain ⟨leaf, at_d⟩ := wf.bounded.exists_linked at_k (.inr linked)
      have later := (wf.lt_of_linksTo at_k (.inr linked)).1
      refine ⟨leaf, at_d, ?_⟩
      rw [Node.shifted, linked, Option.map_some, Option.getD_some, getElem?_dropFirst,
        Nat.sub_add_cancel (by omega), at_d, Option.map_some]
  obtain ⟨leaf, at_leaf, at_leaf'⟩ := best
  rw [findHead, findHead, index, index']
  simp only [nodeAt, at_k, at_k', bind, Except.bind, at_leaf, at_leaf']
  rfl

/-- A search along the chain of a kept block that asks for a kept block does not pass the cut. -/
theorem isDescendant_dropFirst (known_a : (tree.dropFirst count).contains a = true)
    (known_b : (tree.dropFirst count).contains b = true) :
    (tree.dropFirst count).isDescendant a b = tree.isDescendant a b := by
  obtain ⟨kept, gone, chain, chain', -, are_gone⟩ := wf.chain_dropFirst known_b
  rw [isDescendant, isDescendant, wf.node?_dropFirst known_a]
  cases tree.node? a with
  | none => rfl
  | some node =>
    simp only [Option.map_some, chain, chain', List.takeWhile_map, List.any_map]
    have none_found : (gone.takeWhile (node.slot ≤ ·.slot)).any (·.root == a) = false := by
      rw [List.any_eq_false]
      intro other member named
      have absent := are_gone other (List.takeWhile_subset _ member)
      rw [eq_of_beq named, known_a] at absent
      contradiction
    rw [List.takeWhile_append]
    split
    · rename_i whole
      rw [List.any_append, none_found, Bool.or_false]
      have all := (List.takeWhile_prefix (l := kept) (node.slot ≤ ·.slot)).eq_of_length whole
      exact congrArg (List.any · (·.root == a)) all
    · rfl

/-- The block of a kept chain at a slot is the one of before, if that one is kept. -/
theorem ancestor_dropFirst (known : (tree.dropFirst count).contains root = true) (slot : Slot) :
    (tree.dropFirst count).ancestor root slot =
      (tree.ancestor root slot).map (·.filter (tree.dropFirst count).contains) := by
  obtain ⟨kept, gone, chain, chain', are_kept, are_gone⟩ := wf.chain_dropFirst known
  have alike : kept.find? ((·.slot ≤ slot) ∘ Node.shifted count) = kept.find? (·.slot ≤ slot) := rfl
  rw [ancestor, ancestor, if_pos known, if_pos (wf.contains_of_dropFirst known), chain, chain',
    List.find?_append, List.find?_map, alike]
  refine congrArg Except.ok ?_
  cases found : kept.find? (·.slot ≤ slot) with
  | some node =>
    have stays := are_kept node (List.mem_of_find?_eq_some found)
    simp [Node.shifted, Option.filter_some, stays]
  | none =>
    cases further : gone.find? (·.slot ≤ slot) with
    | none => rfl
    | some node =>
      have absent := are_gone node (List.mem_of_find?_eq_some further)
      simp [Option.filter_some, absent]

theorem dropFirst_zero : tree.dropFirst 0 = tree := by
  have unmoved (node : Node) : node.shifted 0 = node := by
    have link : node.parentIndex.bind (shiftDown? 0) = node.parentIndex := by
      cases node.parentIndex <;> rfl
    simp [Node.shifted, link]
  have index : (tree.dropFirst 0).index = tree.index := by
    refine Std.ExtTreeMap.ext_getElem? fun root => Option.ext fun i => ?_
    rw [wf.index_dropFirst, Nat.add_zero]
  have nodes : (tree.dropFirst 0).nodes = tree.nodes := by
    rw [BlockTree.dropFirst, List.drop_zero, List.map_congr_left fun node _ => unmoved node]
    exact List.map_id' _
  calc tree.dropFirst 0
    _ = { tree with nodes := (tree.dropFirst 0).nodes, index := (tree.dropFirst 0).index } := rfl
    _ = tree := by rw [index, nodes]

/-- The block that a tree was pruned for is its first one, so there is no more to prune. -/
theorem prune_again {finalized : Root} (known : tree.index[finalized]? = some count) :
    ((tree.dropFirst count).prune finalized).result = .ok [] ∧
      ((tree.dropFirst count).prune finalized).state = tree.dropFirst count := by
  have wf' := wf.dropFirst count
  have known' : (tree.dropFirst count).index[finalized]? = some 0 :=
    wf.index_dropFirst.mpr (by rw [known, Nat.zero_add])
  by_cases enough : (tree.dropFirst count).pruneThreshold.toNat ≤ 0
  · obtain ⟨state, result⟩ := wf'.prune_of_enough known' enough
    rw [state, result]
    exact ⟨rfl, wf'.dropFirst_zero⟩
  · rw [BlockTree.prune, known']
    simp only [Nat.lt_of_not_le enough, if_true]
    exact ⟨rfl, rfl⟩

theorem applyScores_dropFirst (inside : count ≤ tree.nodes.length) {change : ScoreChange}
    (ok : (tree.applyScores change).result = .ok ()) :
    ((tree.dropFirst count).applyScores (change.dropFirst count)).result = .ok () ∧
      ((tree.dropFirst count).applyScores (change.dropFirst count)).state =
        (tree.applyScores change).state.dropFirst count := by
  obtain ⟨passed, state, length⟩ := wf.applyScores_ok ok
  obtain ⟨passed', same⟩ := wf.rescored_dropFirst inside passed
  rw [state, ← same]
  rcases (wf.dropFirst count).bounded.applyScores_cases (change.dropFirst count) with
    ⟨other, -⟩ | ⟨-, cause, failed, -⟩ | ⟨-, -, result, state'⟩
  · refine absurd ?_ other
    rw [ScoreChange.dropFirst, BlockTree.dropFirst, List.length_drop, List.length_map,
      List.length_drop, length]
  · rw [passed'] at failed
    contradiction
  · exact ⟨result, state'⟩

end WellFormed

/-- Two trees answer alike about the blocks that the second one has. -/
structure Alike (tree pruned : BlockTree) : Prop where
  weight : ∀ {a}, pruned.contains a = true → pruned.weight? a = tree.weight? a
  status : ∀ {a}, pruned.contains a = true →
    (pruned.node? a).map (·.status) = (tree.node? a).map (·.status)
  head : ∀ {a}, pruned.contains a = true → pruned.findHead a = tree.findHead a
  descendant : ∀ {a b}, pruned.contains a = true → pruned.contains b = true →
    pruned.isDescendant a b = tree.isDescendant a b
  /-- The answer is the one of the first tree if the second one has that block, else none. -/
  ancestor : ∀ {a}, pruned.contains a = true → ∀ slot,
    pruned.ancestor a slot = (tree.ancestor a slot).map (·.filter pruned.contains)

theorem WellFormed.alike_dropFirst (wf : tree.WellFormed) (count : Nat) :
    Alike tree (tree.dropFirst count) where
  weight := by
    intro a known
    rw [weight?, weight?, wf.node?_dropFirst known, Option.map_map]
    rfl
  status := by
    intro a known
    rw [wf.node?_dropFirst known, Option.map_map]
    rfl
  head := wf.findHead_dropFirst
  descendant := wf.isDescendant_dropFirst
  ancestor := wf.ancestor_dropFirst

/--
Where there are enough nodes in front of a known block, pruning removes exactly those. The kept
blocks are answered for as before, new scores that succeed before pruning succeed after it and end
in the same tree, and pruning once more changes nothing.
-/
theorem prune_unseen {history : List (Event BlockTree Call)} {pruneThreshold : UInt64}
    {justifiedEpoch finalizedEpoch : Epoch}
    (run : Run after (fun _ _ _ => True) (empty pruneThreshold justifiedEpoch finalizedEpoch)
      history tree)
    {finalized : Root} (known : tree.index[finalized]? = some count)
    (enough : tree.pruneThreshold.toNat ≤ count)
    (pruned_eq : (tree.prune finalized).state = pruned) :
    (tree.prune finalized).result = .ok (tree.nodes.take count) ∧
      (∀ root, pruned.contains root = true ↔ ∃ i, tree.index[root]? = some i ∧ count ≤ i) ∧
      Alike tree pruned ∧
      (∀ change, (tree.applyScores change).result = .ok () →
        (pruned.applyScores (change.dropFirst count)).result = .ok () ∧
          (pruned.applyScores (change.dropFirst count)).state =
            ((tree.applyScores change).state.prune finalized).state) ∧
      (pruned.prune finalized).result = .ok [] ∧ (pruned.prune finalized).state = pruned := by
  have wf := wellFormed_of_run run
  obtain ⟨state, result⟩ := wf.prune_of_enough known enough
  obtain rfl := state.symm.trans pruned_eq
  refine ⟨result, fun root => wf.contains_dropFirst_iff, wf.alike_dropFirst count, ?_,
    wf.prune_again known⟩
  intro change ok
  obtain ⟨passed, same⟩ := wf.applyScores_dropFirst (Nat.le_of_lt (wf.index_lt known)) ok
  have known' : (tree.applyScores change).state.index[finalized]? = some count := by
    rw [(shape_applyScores wf change).1, known]
  have enough' : (tree.applyScores change).state.pruneThreshold.toNat ≤ count := by
    rwa [(wf.applyScores_ok ok).2.1, pruneThreshold_rescored wf]
  obtain ⟨state', -⟩ := (wf.applyScores change).prune_of_enough known' enough'
  exact ⟨passed, same.trans state'.symm⟩

/-- A fork with a block on each branch, and a boost for the block that both branches stand on. -/
def forked : List Call :=
  [.insert (plainBlock 1 none), .insert (plainBlock 2 (some 1)), .insert (plainBlock 3 (some 1)),
    .insert (plainBlock 4 (some 2)), .insert (plainBlock 5 (some 3)),
    .applyScores ⟨[0, 0, 0, 10, 5], some ⟨.ofNat 1, 7⟩, 1, 1⟩]

theorem forked_pruned_unseen :
    ∃ history tree pruned change,
      Run after (fun _ _ _ => True) (empty 0 1 1) history tree ∧
      (tree.prune (.ofNat 2)).state = pruned ∧
      pruned.nodes.map (fun node => (node.root, node.parentIndex)) =
        [(.ofNat 2, none), (.ofNat 3, none), (.ofNat 4, some 0), (.ofNat 5, some 1)] ∧
      Alike tree pruned ∧ change.deltas = [1, 2, 3, 4, 5] ∧
      (pruned.applyScores (change.dropFirst 1)).state =
        ((tree.applyScores change).state.prune (.ofNat 2)).state := by
  have outset : Run after (fun _ _ _ => True) (empty 0 1 1) [] (empty 0 1 1) := .start
  obtain ⟨history, run⟩ := outset.calls forked
  have known : (forked.foldl after (empty 0 1 1)).index[Root.ofNat 2]? = some 1 := by
    decide +kernel
  obtain ⟨-, -, alike, commutes, -⟩ := prune_unseen run known (by decide +kernel) rfl
  refine ⟨history, _, _, ⟨[1, 2, 3, 4, 5], some ⟨.ofNat 5, 20⟩, 1, 1⟩, run, rfl, by decide +kernel,
    alike, rfl, (commutes _ ?_).2⟩
  decide +kernel

end LmdGhost.BlockTree
