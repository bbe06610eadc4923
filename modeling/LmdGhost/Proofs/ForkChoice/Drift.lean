import LmdGhost.Proofs.ForkChoice.Weights
/-!
Changes of weights that fail. They leave votes moved or balances replaced, but not the weights that
go with them, so weights and what accounts for them drift apart. Changes that succeed later start
from what the votes are counted for and carry the difference along.
-/

namespace LmdGhost.ForkChoice

/-- By how much the weight of a block is above what accounts for it. -/
def excess (fc : ForkChoice) (root : Root) : Int :=
  ((fc.tree.weight? root).map (·.toNat)).getD 0 - fc.backing root

/--
How far a call moves the weight of a block and what accounts for it apart, if it is a change of
weights that fails.
-/
def driftBy (fc : ForkChoice) (call : Call) (root : Root) : Int :=
  match call, fc.synced, fc.reweigh.result with
  | .head, false, .error _ => (fc.after .head).excess root - fc.excess root
  | _, _, _ => 0

/-- What the failures of a run add up to. -/
def drift (history : List (Event ForkChoice Call)) (root : Root) : Int :=
  (history.map fun event => event.before.driftBy event.call root).sum

variable {fc fc' : ForkChoice} {gone : List Root} {root : Root} {node : Node}
  {history : List (Event ForkChoice Call)} {call : Call} {cause : Error}

theorem drift_cons (fc : ForkChoice) (call : Call) (history : List (Event ForkChoice Call))
    (root : Root) :
    drift (⟨fc, call⟩ :: history) root = fc.driftBy call root + drift history root :=
  List.sum_cons

theorem driftBy_of_ok (ok : call = .head → fc.synced = false → fc.reweigh.result = .ok ())
    (root : Root) : fc.driftBy call root = 0 := by
  cases call with
  | head =>
    cases synced : fc.synced with
    | true => simp only [driftBy, synced]
    | false => simp only [driftBy, synced, ok rfl synced]
  | _ => rfl

theorem after_head_of_error (unsynced : fc.synced = false)
    (failed : fc.reweigh.result = .error cause) : fc.after .head = fc.reweigh.state := by
  rw [after, updateHead, unsynced, if_neg Bool.false_ne_true]
  exact Outcome.state_bind_of_error _ failed

theorem driftBy_of_error (unsynced : fc.synced = false) (failed : fc.reweigh.result = .error cause)
    (root : Root) : fc.driftBy .head root = fc.reweigh.state.excess root - fc.excess root := by
  simp only [driftBy, unsynced, failed, after_head_of_error unsynced failed]

/-- A change of weights that fails adds no names, and it keeps the tree's index and last boost. -/
theorem reweigh_error (wf : fc.tree.WellFormed) (failed : fc.reweigh.result = .error cause) :
    ∃ votes appliedBalances tree, fc.reweigh.state = { fc with votes, appliedBalances, tree } ∧
      (∀ {root}, votes.Mentions root → fc.votes.Mentions root) ∧
        tree.WellFormed ∧ tree.index = fc.tree.index ∧ tree.boost = fc.tree.boost := by
  rcases fc.reweigh_cases with ⟨_, -, -, state⟩ | ⟨deltas, -, result, state⟩
  · exact ⟨_, _, _, state, VoteTable.mentions_of_deltas, wf, rfl, rfl⟩
  · rw [result] at failed
    rcases applyDeltas_cases (fc.withVotes _) deltas with ⟨_, failed, -, scored⟩ | ⟨-, passed, -⟩
    · rw [state, scored]
      exact ⟨_, _, _, rfl, VoteTable.mentions_of_deltas, wf.applyScores _,
        (BlockTree.shape_applyScores wf _).1, wf.boost_applyScores failed⟩
    · rw [passed] at failed
      contradiction

theorem backing_of_not_contains (wf : fc.tree.WellFormed)
    (absent : fc.tree.contains root = false) : fc.backing root = 0 := by
  have idle (other : Root) : fc.tree.descends root other = false := by
    apply Bool.eq_false_iff.mpr
    intro descends
    have there := (wf.contains_of_descends descends).1
    rw [absent] at there
    contradiction
  have unlent : fc.tree.lent fc.tree.boost root = 0 := by
    cases fc.tree.boost with
    | none => rfl
    | some boost => simp only [BlockTree.lent, idle, Bool.false_eq_true, if_false]
  rw [backing, unlent, support_uncovered fun other _ => idle other]

theorem excess_of_not_contains (wf : fc.tree.WellFormed) (absent : fc.tree.contains root = false) :
    fc.excess root = 0 := by
  have unweighed : fc.tree.weight? root = none := by
    have unindexed := absent
    rw [BlockTree.contains_eq, Option.isSome_eq_false_iff, Option.isNone_iff_eq_none] at unindexed
    rw [BlockTree.weight?, BlockTree.node?, unindexed]
    rfl
  rw [excess, unweighed, backing_of_not_contains wf absent]
  rfl

theorem excess_of_node (wf : fc.tree.WellFormed) {i : Nat} (at_i : fc.tree.nodes[i]? = some node) :
    fc.excess node.root = node.weight.toNat - fc.backing node.root := by
  rw [excess, BlockTree.weight?, wf.node?_root at_i]
  rfl

namespace Accounted

variable {drift' : Root → Int}

/-- A change of weights that fails makes every block drift by as much as its excess changes. -/
theorem reweigh_error (accounted : Accounted gone drift' fc) (unsynced : fc.synced = false)
    (failed : fc.reweigh.result = .error cause) :
    Accounted gone (fun root => fc.driftBy .head root + drift' root) fc.reweigh.state := by
  have wf := accounted.wellFormed
  obtain ⟨votes, appliedBalances, tree, state, moved, wf', index, boost⟩ :=
    ForkChoice.reweigh_error wf failed
  have same (root : Root) : tree.contains root = fc.tree.contains root :=
    congrArg (·.contains root) index
  have drifting := driftBy_of_error unsynced failed
  rw [state] at drifting ⊢
  simp only [drifting]
  refine ⟨wf', (same .zero).trans accounted.nonzero, ?_, ?_, ?_, ?_⟩
  · intro root mentions
    have lent {boosted : Boost} (set : tree.boost = some boosted) := boost.symm.trans set
    have known := accounted.known (mentions_of_moved moved (fun set => .inr (lent set)) mentions)
    exact known.mono (fun kept => .inl ((same root).trans kept)) fun _ => id
  · intro root off
    rw [same]
    cases there : fc.tree.contains root with
    | true => exact .inl rfl
    | false =>
      rw [excess_of_not_contains wf there, excess_of_not_contains wf' ((same root).trans there),
        Int.sub_self, Int.zero_add] at off
      rw [← there]
      exact accounted.drifted off
  · intro i node at_i
    have there : fc.tree.contains node.root = true :=
      (same node.root).symm.trans (wf'.contains_root at_i)
    obtain ⟨j, old, at_old, named⟩ := wf.contains_iff.mp there
    have before := accounted.weights at_old
    have excess_before := excess_of_node wf at_old
    have excess_after : excess { fc with votes, appliedBalances, tree } node.root = _ :=
      excess_of_node wf' at_i
    rw [named] at before excess_before
    rw [excess_after, excess_before]
    omega
  · intro synced
    rw [unsynced] at synced
    contradiction

/-- Every call of a tidy run adds its drift to what there was before. -/
theorem drift_after (accounted : Accounted (removed history) (drift history) fc)
    (tidy : Tidy history fc call) :
    Accounted (removed (⟨fc, call⟩ :: history)) (drift (⟨fc, call⟩ :: history))
      (fc.after call) := by
  rw [funext (drift_cons fc call history)]
  by_cases ok : call = .head → fc.synced = false → fc.reweigh.result = .ok ()
  · simp only [driftBy_of_ok ok, Int.zero_add]
    exact accounted.after tidy ok
  · simp only [Classical.not_imp] at ok
    obtain ⟨rfl, unsynced, failed⟩ := ok
    cases result : fc.reweigh.result with
    | ok _ => exact absurd result failed
    | error cause =>
      rw [after_head_of_error unsynced result]
      exact accounted.reweigh_error unsynced result

end Accounted

/--
In a run without zero roots and returns after pruning, every block weighs what is due whenever the
weights take account of all votes and blocks, but for the drift that failed changes of weights have
left behind.
-/
theorem weight_eq_dueWeight_add_drift {preset : Preset} {config : ChainConfig}
    {settings : NodeSettings} {anchor : Block} {slot : Slot} {balances : Balances}
    (nonzero : anchor.root ≠ .zero)
    (started : start preset config settings anchor slot balances = .ok fc)
    (run : Run after Tidy fc history fc') (synced : fc'.synced = true)
    (member : node ∈ fc'.tree.nodes) :
    (node.weight.toNat : Int) = fc'.dueWeight node.root + drift history node.root := by
  let P (history : List (Event ForkChoice Call)) (fc : ForkChoice) : Prop :=
    Accounted (removed history) (drift history) fc
  have accounted : P history fc' := by
    apply Run.invariant (P := P) (Accounted.of_start nonzero started) _ run
    intro _ _ _ accounted tidy
    exact accounted.drift_after tidy
  exact accounted.weight_eq synced member

/-- Settings under which no boost fits a change of weight. -/
def overboosted : NodeSettings :=
  { pruneThreshold := 0, boostScore? := some 0x8000000000000000 }

theorem overboosted_starts :
    (start .minimal .minimal overboosted genesis 0 genesisBalances).toOption.isSome = true := by
  decide +kernel

def atOverboosted : ForkChoice :=
  (start .minimal .minimal overboosted genesis 0 genesisBalances).toOption.get overboosted_starts

/-- A boosted block gets a vote. Its weights fail as long as the boost lasts. -/
theorem overboosted_run : ∃ history fc, Run after Tidy atOverboosted history fc ∧
    fc.synced = true ∧ ∃ node ∈ fc.tree.nodes, node.weight = 0 ∧ fc.dueWeight node.root = 100 := by
  have outset : Run after Tidy atOverboosted [] atOverboosted := .start
  have boosted := (outset.call (.time 8) trivial).call
    (epochBlock 8 2 1 ⟨0, .ofNat 1⟩ ⟨0, .ofNat 1⟩) fun _ => by constructor <;> decide +kernel
  have failed := (boosted.call (.message 0 1 (.ofNat 2)) (by rw [Tidy]; decide +kernel)).call
    .head trivial
  have run := (failed.call (.tick 9) trivial).call .head trivial
  refine ⟨_, _, run, by decide +kernel, List.getLast _ ?_, List.getLast_mem _, ?_, ?_⟩ <;>
    decide +kernel

theorem vote_lost_while_overboosted : ∃ history fc node, genesis.root ≠ .zero ∧
    start .minimal .minimal overboosted genesis 0 genesisBalances = .ok atOverboosted ∧
    Run after Tidy atOverboosted history fc ∧ fc.synced = true ∧ node ∈ fc.tree.nodes ∧
    node.weight.toNat ≠ fc.dueWeight node.root := by
  obtain ⟨history, fc, run, synced, node, member, weight, due⟩ := overboosted_run
  refine ⟨history, fc, node, by decide +kernel, Outcome.eq_ok_get _, run, synced, member, ?_⟩
  rw [weight, due]
  decide

theorem drift_while_overboosted : ∃ history fc root, genesis.root ≠ .zero ∧
    start .minimal .minimal overboosted genesis 0 genesisBalances = .ok atOverboosted ∧
    Run after Tidy atOverboosted history fc ∧ fc.synced = true ∧ drift history root = -100 := by
  have nonzero : genesis.root ≠ .zero := by decide +kernel
  have started := Outcome.eq_ok_get overboosted_starts
  obtain ⟨history, fc, run, synced, node, member, weight, due⟩ := overboosted_run
  refine ⟨history, fc, node.root, nonzero, started, run, synced, ?_⟩
  have exact_weight := weight_eq_dueWeight_add_drift nonzero started run synced member
  rw [weight, due] at exact_weight
  have none_left : (0 : Gwei).toNat = 0 := rfl
  omega

end LmdGhost.ForkChoice
