import LmdGhost.Proofs.BlockTree.Faults
/-!
Rejections and subtrees. Where faults descend, what a sweep taints apart from what was invalid
before is the subtree of the block it starts from, no matter how the branches of the tree are
interleaved in the order of import. A rejection that succeeds marks just that subtree, and one that
fails has met a confirmed block there.
-/

namespace LmdGhost.BlockTree

variable {tree : BlockTree} {node : Node} {root : Root} {roots : List Root} {start i : Nat}

namespace WellFormed

theorem tainted_of_below (wf : tree.WellFormed) (descend : tree.FaultsDescend)
    (clear : ∀ i, ¬Clashes tree.nodes start i) (below : Below (parents tree.nodes) start i) :
    Tainted tree.nodes start i := by
  induction below with
  | refl => exact .marked
  | up link _ ih =>
    obtain ⟨child, at_d, linked⟩ := exists_of_parents link
    exact ih.child wf.first (descend _) (clear _) at_d linked

theorem below_of_tainted (wf : tree.WellFormed) (descend : tree.FaultsDescend)
    (tainted : Tainted tree.nodes start i) (at_i : tree.nodes[i]? = some node)
    (sound : node.status.isInvalid = false) : Below (parents tree.nodes) start i := by
  induction tainted generalizing node with
  | marked =>
    refine .refl ?_
    rw [length_parents]
    exact (List.getElem?_eq_some_iff.mp at_i).1
  | before at_i' invalid =>
    rw [at_i] at at_i'
    cases at_i'
    rw [invalid] at sound
    contradiction
  | inherited at_i' _ link _ _ ih =>
    rw [at_i] at at_i'
    cases at_i'
    obtain ⟨-, parent, at_p, -⟩ := wf.parent at_i link
    refine .up (parents_of_getElem? at_i link) (ih at_p (Bool.eq_false_iff.mpr ?_))
    intro invalid
    rw [descend _ at_i link at_p invalid] at sound
    contradiction

theorem below_of_clashes (wf : tree.WellFormed) (descend : tree.FaultsDescend)
    (clashes : Clashes tree.nodes start i) : Below (parents tree.nodes) start i := by
  obtain ⟨child, p, at_i, confirmed, link, -, tainted⟩ := clashes
  obtain ⟨-, parent, at_p, -⟩ := wf.parent at_i link
  refine .up (parents_of_getElem? at_i link) ?_
  refine wf.below_of_tainted descend tainted at_p (Bool.eq_false_iff.mpr ?_)
  intro invalid
  have inherited := descend _ at_i link at_p invalid
  rw [PayloadStatus.sound_of_confirmed confirmed] at inherited
  contradiction

/-- No root is listed twice, and none in front of one of its ancestors. -/
theorem rejudged_ordered (wf : tree.WellFormed) (nodes : List Node) :
    (rejudged tree.nodes nodes).Nodup ∧
      (rejudged tree.nodes nodes).Pairwise fun a b => tree.descends b a = false := by
  have listed := rejudged_sublist tree.nodes nodes
  refine ⟨wf.nodup_roots.sublist listed, List.Pairwise.sublist listed ?_⟩
  rw [List.pairwise_map, List.pairwise_iff_getElem]
  intro i j bound_i bound_j before
  rw [Bool.eq_false_iff]
  intro descends
  have at_i := List.getElem?_eq_getElem bound_i
  have at_j := List.getElem?_eq_getElem bound_j
  have later := ((wf.descends_roots at_j at_i).mp descends).le wf.first
  omega

/-- Below an invalid block there is nothing left to reject. -/
theorem judge_of_invalid (wf : tree.WellFormed) (descend : tree.FaultsDescend)
    (at_start : tree.nodes[start]? = some node) (invalid : node.status = .invalid) :
    tree = tree.judge .invalid fun other => tree.descends node.root other.root := by
  have unchanged : Judged .invalid (fun _ => False) tree.nodes tree.nodes :=
    .refl (fun _ => id) tree.nodes
  refine eq_judge unchanged fun {i other} at_i sound => ?_
  rw [wf.descends_roots at_start at_i]
  refine iff_of_false id fun below => ?_
  have sound' := descend.not_invalid below at_i (by simpa [PayloadStatus.isInvalid]) at_start
  rw [invalid] at sound'
  contradiction

/-- A rejection that succeeds marks the subtree of its block and lists what it has changed. -/
theorem reject_ok (wf : tree.WellFormed) (descend : tree.FaultsDescend)
    (done : (tree.reject root).result = .ok roots) :
    (tree.reject root).state = tree.judge .invalid (fun node => tree.descends root node.root) ∧
      roots = rejudged tree.nodes (tree.reject root).state.nodes := by
  cases index : tree.index[root]? with
  | none =>
    rw [reject_of_unknown index] at done
    contradiction
  | some start =>
    obtain ⟨node, at_start, rfl⟩ := wf.indexed.mp index
    by_cases syncing : node.status = .syncing
    · rcases wf.reject_swept at_start syncing with
        ⟨clear, nodes, swept, state, done'⟩ | ⟨_, _, _, _, _, _, _, _, failed⟩
      · rw [done'] at done
        cases done
        rw [state]
        refine ⟨eq_judge swept fun {i other} at_i sound => ?_, rfl⟩
        rw [wf.descends_roots at_start at_i]
        constructor
        · rintro ⟨-, tainted⟩
          exact wf.below_of_tainted descend tainted at_i (by simpa [PayloadStatus.isInvalid])
        · intro below
          exact ⟨(List.getElem?_eq_some_iff.mp at_i).1, wf.tainted_of_below descend clear below⟩
      · rw [failed] at done
        contradiction
    · rw [reject_of_settled index at_start syncing] at done ⊢
      split at done
      · rename_i invalid
        obtain rfl : [] = roots := Except.ok.inj done
        rw [if_pos invalid, Outcome.state_done, rejudged_self]
        exact ⟨wf.judge_of_invalid descend at_start invalid, rfl⟩
      · contradiction

/-- A rejection of a known block that fails has met a confirmed block in the subtree. -/
theorem reject_error (wf : tree.WellFormed) (descend : tree.FaultsDescend)
    (known : tree.contains root = true) {cause : Error}
    (failed : (tree.reject root).result = .error cause) :
    ∃ node ∈ tree.nodes, tree.descends root node.root = true ∧ node.status.isConfirmed = true ∧
      cause = .statusFixed node.root node.status .invalid := by
  obtain ⟨start, node, at_start, rfl⟩ := wf.contains_iff.mp known
  have index := wf.index_root at_start
  by_cases syncing : node.status = .syncing
  · rcases wf.reject_swept at_start syncing with
      ⟨_, _, _, _, done⟩ | ⟨c, other, _, at_c, clashes, _, _, _, failed'⟩
    · rw [done] at failed
      contradiction
    · rw [failed'] at failed
      cases failed
      have below := wf.below_of_clashes descend clashes
      obtain ⟨other', _, at_c', confirmed, -⟩ := clashes
      obtain rfl := Option.some.inj (at_c.symm.trans at_c')
      refine ⟨other, List.mem_of_getElem? at_c, ?_, confirmed, rfl⟩
      exact (wf.descends_roots at_start at_c).mpr below
  · rw [reject_of_settled index at_start syncing] at failed
    split at failed
    · contradiction
    · rename_i sound
      cases failed
      refine ⟨node, List.mem_of_getElem? at_start, wf.descends_refl known, ?_, rfl⟩
      cases status : node.status with
      | syncing | invalid => contradiction
      | valid | preMerge => rfl

/-- A rejection succeeds just where no block of the subtree has been confirmed. -/
theorem isOk_reject (wf : tree.WellFormed) (descend : tree.FaultsDescend)
    (known : tree.contains root = true) :
    (tree.reject root).result.isOk =
      tree.nodes.all fun node => !(tree.descends root node.root && node.status.isConfirmed) := by
  cases result : (tree.reject root).result with
  | ok roots =>
    obtain ⟨judged, -⟩ := wf.reject_ok descend result
    obtain ⟨nodes, state, same⟩ := tree.reject_confirmed root
    obtain rfl : nodes = (tree.judge .invalid fun node => tree.descends root node.root).nodes :=
      congrArg BlockTree.nodes (state.symm.trans judged)
    rw [judge, List.map_map, List.map_inj_left] at same
    refine (List.all_eq_true.mpr fun node member => ?_).symm
    rw [Bool.not_eq_true', Bool.and_eq_false_imp]
    intro descends
    rw [← same node member, Function.comp_apply, if_pos descends]
    rfl
  | error cause =>
    obtain ⟨node, member, descends, confirmed, -⟩ := wf.reject_error descend known result
    refine (List.all_eq_false.mpr ⟨node, member, ?_⟩).symm
    simp [descends, confirmed]

end WellFormed

/--
In a tree built from the empty one, where every block on an invalid one is invalid: the rejection of
a known block succeeds just where no block of its subtree has been confirmed. If it succeeds, it
has made the subtree invalid and changed nothing else, every block on an invalid one is invalid
again, and the answer lists the roots of the blocks whose statuses have changed, each once and
ancestors first. If it fails, it has met a confirmed block of the subtree.
-/
theorem reject_subtree {history : List (Event BlockTree Call)} {pruneThreshold : UInt64}
    {justifiedEpoch finalizedEpoch : Epoch}
    (run : Run after (fun _ _ _ => True) (empty pruneThreshold justifiedEpoch finalizedEpoch)
      history tree)
    (descend : tree.FaultsDescend) (known : tree.contains root = true) :
    ((tree.reject root).result.isOk =
        tree.nodes.all fun node => !(tree.descends root node.root && node.status.isConfirmed)) ∧
      (∀ roots, (tree.reject root).result = .ok roots →
        (tree.reject root).state =
            tree.judge .invalid (fun node => tree.descends root node.root) ∧
          (tree.reject root).state.FaultsDescend ∧
          roots = rejudged tree.nodes (tree.reject root).state.nodes ∧ roots.Nodup ∧
          roots.Pairwise fun a b => tree.descends b a = false) ∧
      ∀ cause, (tree.reject root).result = .error cause →
        ∃ node ∈ tree.nodes, tree.descends root node.root = true ∧
          node.status.isConfirmed = true ∧
          cause = .statusFixed node.root node.status .invalid := by
  have wf := wellFormed_of_run run
  refine ⟨wf.isOk_reject descend known, ?_, fun cause => wf.reject_error descend known⟩
  intro roots done
  obtain ⟨judged, listed⟩ := wf.reject_ok descend done
  have judges : ¬tree.Misjudges (.reject root) := by
    rintro ⟨-, cause, failed⟩
    rw [done] at failed
    contradiction
  refine ⟨judged, (wf.faultsDescend_reject descend root).mpr judges, listed, ?_⟩
  rw [listed]
  exact wf.rejudged_ordered _

/-- Two branches whose blocks take turns, one of them with a block that was rejected before. -/
def interleaved : List Call :=
  [.insert (plainBlock 1 none), .insert (plainBlock 2 (some 1)), .insert (plainBlock 3 (some 1)),
    .insert (plainBlock 4 (some 2)), .insert (plainBlock 5 (some 3)),
    .insert (plainBlock 6 (some 4)), .insert (plainBlock 7 (some 2)), .reject (.ofNat 4)]

theorem interleaved_subtree_rejected :
    ∃ history tree, Run after (fun _ _ _ => True) (empty 0 1 1) history tree ∧
      tree.FaultsDescend ∧ tree.contains (.ofNat 2) = true ∧
      (tree.reject (.ofNat 2)).result = .ok [.ofNat 2, .ofNat 7] ∧
      (tree.reject (.ofNat 2)).state =
        tree.judge .invalid (fun node => tree.descends (.ofNat 2) node.root) := by
  have outset : Run after (fun _ _ _ => True) (empty 0 1 1) [] (empty 0 1 1) := .start
  obtain ⟨history, run⟩ := outset.calls interleaved
  have descend : (interleaved.foldl after (empty 0 1 1)).FaultsDescend := by decide +kernel
  have known : (interleaved.foldl after (empty 0 1 1)).contains (.ofNat 2) = true := by
    decide +kernel
  have done : ((interleaved.foldl after (empty 0 1 1)).reject (.ofNat 2)).result =
      .ok [.ofNat 2, .ofNat 7] := by decide +kernel
  exact ⟨history, _, run, descend, known, done, ((reject_subtree run descend known).2.1 _ done).1⟩

end LmdGhost.BlockTree
