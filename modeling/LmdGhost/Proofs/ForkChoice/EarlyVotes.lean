import LmdGhost.Proofs.ForkChoice.Drift
import LmdGhost.Proofs.ForkChoice.Watching
/-!
Votes that come before their blocks. A change of weights counts every vote for its latest block,
whether or not that block is in the tree, and adds nothing to any weight for a block that is not. If
the block comes later, it enters without the balances that are already counted for it, and neither
it nor its ancestors ever get them. When these votes move on, they still take them away.
-/

namespace LmdGhost.ForkChoice

/-- What votes and the last boost count for a root, whether or not its block is in the tree. -/
def countedFor (fc : ForkChoice) (root : Root) : Nat :=
  support (· == root) fc.appliedBalances 0 (fc.votes.votes.map (·.counted)) +
    match fc.tree.boost with
    | none => 0
    | some boost => if boost.root = root then boost.score.toNat else 0

def newcomer? (fc : ForkChoice) (call : Call) : Option Root :=
  match call with
  | .block _ _ arrival _ =>
    if (fc.after call).tree.contains arrival.root && !fc.tree.contains arrival.root then
      some arrival.root
    else none
  | _ => none

/--
The drift after a block has entered a tree: what was counted for the block in advance is missing
from its own weight and from those of its ancestors.
-/
def driftPast (fc : ForkChoice) (tree : BlockTree) (new : Root) (drift : Root → Int) (root : Root) :
    Int :=
  if root = new then
    -(fc.countedFor new)
  else if tree.descends root new then
    drift root - fc.countedFor new
  else
    drift root

/-- What failed changes of weights and blocks that came after their votes add up to. -/
def imbalance : List (Event ForkChoice Call) → Root → Int
  | [] => fun _ => 0
  | ⟨fc, call⟩ :: history =>
    match fc.newcomer? call with
    | some new => fc.driftPast (fc.after call).tree new (imbalance history)
    | none => fun root => fc.driftBy call root + imbalance history root

/-- No block with the zero root is accepted. Votes may name any block, and blocks may come again. -/
def Nameable (_ : List (Event ForkChoice Call)) (fc : ForkChoice) : Call → Prop
  | .block block state arrival engine =>
    (∃ entry, (fc.onBlock block state arrival engine).result = .ok entry) → arrival.root ≠ .zero
  | _ => True

variable {fc fc' : ForkChoice} {gone : List Root} {drift : Root → Int} {root new : Root}
  {history : List (Event ForkChoice Call)} {call : Call}

theorem imbalance_of_newcomer (comes : fc.newcomer? call = some new) :
    imbalance (⟨fc, call⟩ :: history) =
      fc.driftPast (fc.after call).tree new (imbalance history) := by
  rw [imbalance, comes]

theorem imbalance_of_no_newcomer (comes : fc.newcomer? call = none) :
    imbalance (⟨fc, call⟩ :: history) =
      fun root => fc.driftBy call root + imbalance history root := by
  rw [imbalance, comes]

theorem imbalance_of_kept (comes : fc.newcomer? call = none)
    (ok : call = .head → fc.synced = false → fc.reweigh.result = .ok ()) :
    imbalance (⟨fc, call⟩ :: history) = imbalance history := by
  rw [imbalance_of_no_newcomer comes]
  funext root
  rw [driftBy_of_ok ok, Int.zero_add]

theorem support_take (balances : Balances) (nonzero : root ≠ .zero) (table : VoteTable)
    (message : Message) :
    support (· == root) balances 0 ((table.take message).votes.map (·.counted)) =
      support (· == root) balances 0 (table.votes.map (·.counted)) := by
  rw [VoteTable.take]
  split
  · rename_i recorded
    obtain ⟨blanks, counted⟩ := VoteTable.counted_of_record recorded
    have idle : support (· == root) balances (0 + (table.votes.map (·.counted)).length)
        (List.replicate blanks .zero) = 0 := by
      apply support_uncovered
      intro other member
      rw [List.eq_of_mem_replicate member]
      exact beq_eq_false_iff_ne.mpr nonzero.symm
    rw [counted, support_append, idle, Nat.add_zero]
  · rfl

theorem support_takes (balances : Balances) (nonzero : root ≠ .zero) (table : VoteTable)
    (messages : List Message) :
    support (· == root) balances 0 ((messages.foldl VoteTable.take table).votes.map (·.counted)) =
      support (· == root) balances 0 (table.votes.map (·.counted)) := by
  induction messages generalizing table with
  | nil => rfl
  | cons message messages ih => exact (ih _).trans (support_take balances nonzero table message)

theorem boost_after (wf : fc.tree.WellFormed) (other : call ≠ .head) :
    (fc.after call).tree.boost = fc.tree.boost := by
  rcases fc.tree_after call with same | ⟨induced, induces, tree⟩
  · rw [same]
  · rw [tree]
    cases induces with
    | block => exact BlockTree.boost_insert _ _
    | head => contradiction
    | prune finalized =>
      rcases wf.prune_cases finalized with ⟨same, -⟩ | ⟨count, -, dropped, -⟩
      · exact congrArg (·.boost) same
      · exact congrArg (·.boost) dropped
    | setPruneThreshold => rfl
    | validPayload root =>
      obtain ⟨_, same, -⟩ := BlockTree.confirm_sameButStatuses fc.tree root
      exact congrArg (·.boost) same
    | invalidPayload root =>
      obtain ⟨_, same, -⟩ := BlockTree.reject_sameButStatuses fc.tree root
      exact congrArg (·.boost) same

theorem appliedBalances_after (other : call ≠ .head) :
    (fc.after call).appliedBalances = fc.appliedBalances := by
  let P (fc' : ForkChoice) : Prop := fc'.appliedBalances = fc.appliedBalances
  have noted {fc fc' : ForkChoice} (noted : Noted fc fc') :
      fc'.appliedBalances = fc.appliedBalances := by
    obtain ⟨_, _, _, _, rfl⟩ := noted
    rfl
  have ticked (fc : ForkChoice) (slot : Slot) :
      (fc.onTick slot).state.appliedBalances = fc.appliedBalances := by
    obtain ⟨_, _, _, state⟩ := (fc.onTick_ticked slot).1
    rw [state]
  cases call with
  | block block state arrival engine =>
    rw [after]
    rcases fc.onBlock_cases block state arrival engine with refused | ⟨_, -, -, imported⟩
    · rw [refused]
    · rw [imported]
      rfl
  | attestation attestation fromBlock => exact noted (fc.onAttestation_noted attestation fromBlock)
  | message validator epoch root => exact noted (fc.castVote_noted validator epoch root)
  | head => contradiction
  | time slot =>
    apply updateTime_invariant (P := P) rfl
    · intro fc' slot same
      exact (ticked fc' slot).trans same
    · intro fc' same
      exact (noted fc'.processQueue_noted).trans same
    · intro fc' same
      exact same
  | tick slot => exact ticked fc slot
  | prune | setPruneThreshold | validPayload => rfl
  | invalidPayload root =>
    exact Outcome.state_bind (P := P) rfl fun _ _ => rfl

/-- Only a head counts votes: no other call changes what is counted for a block. -/
theorem countedFor_after (wf : fc.tree.WellFormed) (other : call ≠ .head) (nonzero : root ≠ .zero) :
    (fc.after call).countedFor root = fc.countedFor root := by
  simp only [countedFor, boost_after wf other, appliedBalances_after other,
    Watched.votes_after fc other, support_takes _ nonzero]

/-- A new block adds what is counted for it to the backing of those that it descends from. -/
theorem backing_insert {block : Block} (wf : fc.tree.WellFormed)
    (new : fc.tree.contains block.root = false) (root : Root) :
    backing { fc with tree := fc.tree.insert block } root = fc.backing root +
      if (fc.tree.insert block).descends root block.root then fc.countedFor block.root else 0 := by
  have before : fc.tree.descends root block.root = false := by
    apply Bool.eq_false_iff.mpr
    intro descends
    rw [(wf.contains_of_descends descends).2] at new
    contradiction
  have same (other : Root) (apart : other ≠ block.root) :
      (fc.tree.insert block).descends root other = fc.tree.descends root other :=
    wf.descends_insert apart
  simp only [backing, countedFor, BlockTree.lent, BlockTree.boost_insert]
  cases now : (fc.tree.insert block).descends root block.root with
  | true =>
    rw [support_extend before now same]
    cases fc.tree.boost with
    | none => simp
    | some boost =>
      by_cases named : boost.root = block.root
      · simp only [named, before, now, Bool.false_eq_true, if_true, if_false]
        omega
      · simp only [same _ named, if_neg named, if_true]
        omega
  | false =>
    have unchanged : (fc.tree.insert block).descends root = fc.tree.descends root := by
      funext other
      by_cases named : other = block.root
      · rw [named, now, before]
      · exact same other named
    simp only [unchanged, Bool.false_eq_true, if_false, Nat.add_zero]

namespace Accounted

variable {block : BeaconBlock} {state : PostState} {arrival : Arrival}

/-- A block that enters lacks what is counted for it already, and so do its ancestors. -/
theorem imported_late (accounted : Accounted gone drift fc) (admission : Admission)
    (nonzero : arrival.root ≠ .zero) (new : fc.tree.contains arrival.root = false) :
    Accounted gone
      (fc.driftPast (fc.imported block state arrival admission).tree arrival.root drift)
      (fc.imported block state arrival admission) := by
  let entered := entry block state arrival admission.target
  have wf := accounted.wellFormed
  have wf' := wf.insert entered
  have here : (fc.tree.insert entered).contains arrival.root = true :=
    BlockTree.contains_insert fc.tree entered
  apply accounted.imported_of_weights admission nonzero
  · intro root off
    rw [driftPast] at off
    split at off
    · rename_i named
      rw [named]
      exact .inl here
    · split at off
      · rename_i descends
        exact .inl (wf'.contains_of_descends descends).1
      · apply (accounted.drifted off).imp_left
        exact fun kept => BlockTree.contains_insert_iff.mpr (.inr kept)
  · intro i node at_i
    have grown : backing (fc.imported block state arrival admission) node.root =
        fc.backing node.root + if (fc.tree.insert entered).descends node.root arrival.root then
          fc.countedFor arrival.root else 0 := backing_insert wf new node.root
    change (fc.tree.insert entered).nodes[i]? = some node at at_i
    change _ = _ + fc.driftPast (fc.tree.insert entered) arrival.root drift node.root
    rw [BlockTree.nodes_insert_of_new new] at at_i
    rcases getElem?_concat at_i with at_i | ⟨-, rfl⟩
    · have other : node.root ≠ arrival.root := wf.not_contains new at_i
      have before := accounted.weights at_i
      rw [grown, driftPast, if_neg other]
      split
      · omega
      · omega
    · -- The new node weighs nothing, although it is backed by all that is counted for it.
      have named : (fc.tree.entry entered).root = arrival.root := rfl
      have weightless : (fc.tree.entry entered).weight.toNat = 0 := rfl
      have unbacked : fc.backing arrival.root = 0 := backing_of_not_contains wf new
      rw [grown, named, weightless, unbacked, wf'.descends_refl here, driftPast, if_pos rfl,
        if_pos rfl]
      omega

theorem imported_again (accounted : Accounted gone drift fc) (admission : Admission)
    (nonzero : arrival.root ≠ .zero) (there : fc.tree.contains arrival.root = true) :
    Accounted gone drift (fc.imported block state arrival admission) := by
  have tree : (fc.imported block state arrival admission).tree = fc.tree :=
    BlockTree.insert_of_contains there
  apply accounted.imported_of_weights admission nonzero
  · intro root off
    rw [tree]
    exact accounted.drifted off
  · intro i node at_i
    rw [tree] at at_i
    rw [accounted.weights at_i, backing, backing, tree]
    rfl

theorem onBlock (accounted : Accounted gone (imbalance history) fc) (engine : ExecutionEngine)
    (nameable : Nameable history fc (.block block state arrival engine)) :
    Accounted gone (imbalance (⟨fc, .block block state arrival engine⟩ :: history))
      (fc.onBlock block state arrival engine).state := by
  have call : fc.after (.block block state arrival engine) =
      (fc.onBlock block state arrival engine).state := rfl
  rcases fc.onBlock_cases block state arrival engine with
    refused | ⟨admission, -, accepted, imported⟩
  · have comes : fc.newcomer? (.block block state arrival engine) = none := by
      simp [newcomer?, call, refused]
    rw [imbalance_of_kept comes nofun, refused]
    exact accounted
  · have nonzero := nameable ⟨_, accepted⟩
    have here : (fc.imported block state arrival admission).tree.contains arrival.root = true :=
      BlockTree.contains_insert fc.tree (entry block state arrival admission.target)
    cases there : fc.tree.contains arrival.root with
    | true =>
      have comes : fc.newcomer? (.block block state arrival engine) = none := by
        simp [newcomer?, there]
      rw [imbalance_of_kept comes nofun, imported]
      exact accounted.imported_again admission nonzero there
    | false =>
      have comes : fc.newcomer? (.block block state arrival engine) = some arrival.root := by
        simp [newcomer?, there, call, imported, here]
      rw [imbalance_of_newcomer comes, call, imported]
      exact accounted.imported_late admission nonzero there

/-- Every call adds its failure to the imbalance, or the block that it brings. -/
theorem imbalance_after (accounted : Accounted gone (imbalance history) fc)
    (nameable : Nameable history fc call) :
    ∃ more, Accounted more (imbalance (⟨fc, call⟩ :: history)) (fc.after call) := by
  by_cases ok : call = .head → fc.synced = false → fc.reweigh.result = .ok ()
  · cases call with
    | block block state arrival engine => exact ⟨gone, accounted.onBlock engine nameable⟩
    | message validator epoch root =>
      have listed := accounted.mono (List.subset_cons_self root gone)
      rw [imbalance_of_kept rfl ok]
      refine ⟨_, listed.after_of_known nofun ?_ ok⟩
      rintro _ _ _ ⟨⟩
      exact .inr (.inr List.mem_cons_self)
    | attestation | head | time | tick | prune | setPruneThreshold | validPayload
    | invalidPayload =>
      rw [imbalance_of_kept rfl ok]
      exact ⟨_, accounted.after_of_known nofun nofun ok⟩
  · simp only [Classical.not_imp] at ok
    obtain ⟨rfl, unsynced, failed⟩ := ok
    cases result : fc.reweigh.result with
    | ok _ => exact absurd result failed
    | error cause =>
      rw [imbalance_of_no_newcomer rfl, after_head_of_error unsynced result]
      exact ⟨gone, accounted.reweigh_error unsynced result⟩

end Accounted

/--
In a run without zero roots, every block weighs what is due whenever the weights take account of all
votes and blocks, but for what failed changes of weights have left behind and for what had been
counted for it or its descendants when they entered. Only heads count votes, so it makes a
difference whether there is one between a vote and its block.
-/
theorem weight_eq_dueWeight_add_imbalance {preset : Preset} {config : ChainConfig}
    {settings : NodeSettings} {anchor : Block} {slot : Slot} {balances : Balances}
    (nonzero : anchor.root ≠ .zero)
    (started : start preset config settings anchor slot balances = .ok fc)
    (run : Run after Nameable fc history fc') :
    (∀ call root, call ≠ .head → root ≠ .zero →
      (fc'.after call).countedFor root = fc'.countedFor root) ∧
    (fc'.synced = true → ∀ node ∈ fc'.tree.nodes,
      (node.weight.toNat : Int) = fc'.dueWeight node.root + imbalance history node.root) := by
  let P (history : List (Event ForkChoice Call)) (fc : ForkChoice) : Prop :=
    ∃ gone, Accounted gone (imbalance history) fc
  have accounted : P history fc' := by
    apply Run.invariant (P := P) ⟨[], Accounted.of_start nonzero started⟩ _ run
    rintro _ _ _ ⟨gone, accounted⟩ nameable
    exact accounted.imbalance_after nameable
  obtain ⟨gone, accounted⟩ := accounted
  constructor
  · intro call root other nonzero
    exact countedFor_after accounted.wellFormed other nonzero
  · intro synced node member
    exact accounted.weight_eq synced member

/-- A vote for a block that comes later, with calls in between, and a head once it is there. -/
def voteAhead (between : List Call) : ForkChoice :=
  let voted := (atGenesis.after (.time 16)).after (.message 0 1 (.ofNat 2))
  let entered := (between.foldl after voted).after
    (epochBlock 8 2 1 ⟨0, .ofNat 1⟩ ⟨0, .ofNat 1⟩)
  entered.after .head

/--
With a head in between the vote adds nothing to its block, and the weights fail when it moves on.
-/
theorem voteAhead_differs :
    start .minimal .minimal .pruneEagerly genesis 0 genesisBalances = .ok atGenesis ∧
    atGenesis.tree.contains (.ofNat 2) = false ∧
    (voteAhead []).synced = true ∧ (voteAhead []).tree.weight? (.ofNat 2) = some 100 ∧
    (voteAhead [.head]).synced = true ∧ (voteAhead [.head]).tree.weight? (.ofNat 2) = some 0 ∧
    ((voteAhead []).after (.message 0 2 (.ofNat 1))).reweigh.result = .ok () ∧
    ((voteAhead [.head]).after (.message 0 2 (.ofNat 1))).reweigh.result ≠ .ok () := by
  refine ⟨start_genesis, ?_, ?_, ?_, ?_, ?_, ?_, ?_⟩ <;> decide +kernel

theorem run_voteAhead : ∃ history, Run after Nameable atGenesis history (voteAhead [.head]) := by
  have outset : Run after Nameable atGenesis [] atGenesis := .start
  have voted := (outset.call (.time 16) trivial).call (.message 0 1 (.ofNat 2)) trivial
  have counted := voted.call .head trivial
  have entered := counted.call (epochBlock 8 2 1 ⟨0, .ofNat 1⟩ ⟨0, .ofNat 1⟩) fun _ => by
    decide +kernel
  exact ⟨_, entered.call .head trivial⟩

/--
All that the vote is worth is missing, from its block and from the anchor, and it stays counted for
its block when it moves on, until the next head.
-/
theorem imbalance_of_voteAhead : ∃ history, genesis.root ≠ .zero ∧
    start .minimal .minimal .pruneEagerly genesis 0 genesisBalances = .ok atGenesis ∧
    Run after Nameable atGenesis history (voteAhead [.head]) ∧
    (voteAhead [.head]).tree.nodes.map (·.root) = [.ofNat 1, .ofNat 2] ∧
    (∀ node ∈ (voteAhead [.head]).tree.nodes, imbalance history node.root = -100) ∧
    ((voteAhead [.head]).after (.message 0 2 (.ofNat 1))).countedFor (.ofNat 2) = 100 := by
  have nonzero : genesis.root ≠ .zero := by decide +kernel
  obtain ⟨history, run⟩ := run_voteAhead
  obtain ⟨kept, weighs⟩ := weight_eq_dueWeight_add_imbalance nonzero start_genesis run
  refine ⟨history, nonzero, start_genesis, run, by decide +kernel, ?_, ?_⟩
  · have counts : ∀ node ∈ (voteAhead [.head]).tree.nodes,
        node.weight.toNat = 0 ∧ (voteAhead [.head]).dueWeight node.root = 100 := by
      decide +kernel
    intro node member
    obtain ⟨weight, due⟩ := counts node member
    have exact_weight := weighs (by decide +kernel) node member
    omega
  · rw [kept _ _ (by simp) (by decide +kernel)]
    decide +kernel

end LmdGhost.ForkChoice
