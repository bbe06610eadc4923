import LmdGhost.Proofs.BlockTree.Backing
import LmdGhost.Proofs.ForkChoice.Calls
/-!
Weights and what accounts for them: the votes counted for a block and its descendants, under the
balances last applied, and what the last boost lends it. What is left over is the drift of the
block. No call changes the drift of any block, but for changes of weights that fail. It rests on
every vote, queued attestation and boost naming a block that is in the tree or has left it for good.
-/

namespace LmdGhost.ForkChoice

def removedBy (fc : ForkChoice) : Call → List Root
  | .prune finalized =>
    match (fc.prune finalized).result with
    | .ok nodes => nodes.map (·.root)
    | .error _ => []
  | _ => []

/-- The roots of the blocks that pruning has removed. -/
def removed (history : List (Event ForkChoice Call)) : List Root :=
  history.flatMap fun event => removedBy event.before event.call

theorem removedBy_prune {fc : ForkChoice} {finalized : Root} {nodes : List Node}
    (pruned : (fc.tree.prune finalized).result = .ok nodes) :
    removedBy fc (.prune finalized) = nodes.map (·.root) := by
  simp only [removedBy, ForkChoice.prune, onTree, Outcome.result_lift, pruned, Outcome.mapError_ok]

/-- No block has the zero root or comes back after it was pruned, and messages name known blocks. -/
def Tidy (history : List (Event ForkChoice Call)) (fc : ForkChoice) : Call → Prop
  | .block block state arrival engine =>
    (∃ entry, (fc.onBlock block state arrival engine).result = .ok entry) →
      arrival.root ≠ .zero ∧ arrival.root ∉ removed history
  | .message _ _ root => fc.tree.contains root = true
  | _ => True

/-- A root is of no block, of a block in the tree, or of one that is gone for good. -/
def Known (gone : List Root) (tree : BlockTree) (root : Root) : Prop :=
  root = .zero ∨ tree.contains root = true ∨ root ∈ gone

/--
A vote, a queued or remembered attestation or a boost, the current or the last, is for a root.
-/
def Mentions (fc : ForkChoice) (root : Root) : Prop :=
  fc.votes.Mentions root ∨ (∃ attestation ∈ fc.queue, attestation.head = root) ∨
    (∃ data ∈ fc.validated, data.head = root) ∨ fc.boostRoot = some root ∨
    ∃ boost, fc.tree.boost = some boost ∧ boost.root = root

/-- What accounts for the weight of a block: the balances of its votes and the last boost. -/
def backing (fc : ForkChoice) (root : Root) : Nat :=
  support (fc.tree.descends root) fc.appliedBalances 0 (fc.votes.votes.map (·.counted)) +
    fc.tree.lent fc.tree.boost root

/--
What holds of weights, up to a drift, and of the roots they depend on in every state of a run. Only
a block that is in the tree or was there before can have drifted.
-/
structure Accounted (gone : List Root) (drift : Root → Int) (fc : ForkChoice) : Prop where
  wellFormed : fc.tree.WellFormed
  nonzero : fc.tree.contains .zero = false
  known : ∀ {root}, fc.Mentions root → Known gone fc.tree root
  drifted : ∀ {root}, drift root ≠ 0 → fc.tree.contains root = true ∨ root ∈ gone
  weights : ∀ {i : Nat} {node : Node}, fc.tree.nodes[i]? = some node →
    (node.weight.toNat : Int) = fc.backing node.root + drift node.root
  synced : fc.synced = true → (∀ vote ∈ fc.votes.votes, vote.counted = vote.latest) ∧
    fc.appliedBalances = fc.store.justifiedBalances ∧ fc.tree.boost = fc.boost?

variable {fc fc' : ForkChoice} {gone gone' : List Root} {drift : Root → Int} {root : Root}
  {slot : Slot} {tree : BlockTree} {synced : Bool} {history : List (Event ForkChoice Call)}
  {call : Call}

theorem Known.mono (known : Known gone fc.tree root)
    (kept : fc.tree.contains root = true → tree.contains root = true ∨ root ∈ gone')
    (still : gone ⊆ gone') : Known gone' tree root := by
  rcases known with zero | contained | removed
  · exact .inl zero
  · exact .inr (kept contained)
  · exact .inr (.inr (still removed))

theorem mentions_of_tree (boost : tree.boost = fc.tree.boost) :
    Mentions { fc with tree, synced } root ↔ fc.Mentions root := by
  simp only [Mentions, boost]

theorem boostRoot_of_boost? {boost : Boost} (set : fc.boost? = some boost) :
    fc.boostRoot = some boost.root := by
  rw [boost?] at set
  split at set
  · split at set
    · cases set
      assumption
    · contradiction
  · contradiction

/-- Votes that are moved name no other blocks than before, and a new boost is the current one. -/
theorem mentions_of_moved {table : VoteTable} {appliedBalances : Balances}
    (moved : ∀ {root}, table.Mentions root → fc.votes.Mentions root)
    (lent : ∀ {boost}, tree.boost = some boost →
      fc.boostRoot = some boost.root ∨ fc.tree.boost = some boost)
    (mentions : Mentions { fc with votes := table, appliedBalances, tree, synced } root) :
    fc.Mentions root := by
  rcases mentions with voted | queued | validated | boosted | ⟨boost, set, rfl⟩
  · exact .inl (moved voted)
  · exact .inr (.inl queued)
  · exact .inr (.inr (.inl validated))
  · exact .inr (.inr (.inr (.inl boosted)))
  · rcases lent set with boosted | lent
    · exact .inr (.inr (.inr (.inl boosted)))
    · exact .inr (.inr (.inr (.inr ⟨boost, lent, rfl⟩)))

theorem mentions_of_imported {block : BeaconBlock} {state : PostState} {arrival : Arrival}
    {admission : Admission} (mentions : (fc.imported block state arrival admission).Mentions root) :
    root = arrival.root ∨ fc.Mentions root := by
  have boost := BlockTree.boost_insert fc.tree (entry block state arrival admission.target)
  rcases mentions with voted | queued | validated | boosted | lent
  · exact .inr (.inl voted)
  · exact .inr (.inr (.inl queued))
  · exact .inr (.inr (.inr (.inl validated)))
  · dsimp only [imported] at boosted
    split at boosted
    · exact .inl (Option.some.inj boosted).symm
    · exact .inr (.inr (.inr (.inr (.inl boosted))))
  · dsimp only [imported] at lent
    rw [boost] at lent
    exact .inr (.inr (.inr (.inr (.inr lent))))

namespace Accounted

/-- The zero root is no block, so nothing descends to it. -/
theorem descends_zero (accounted : Accounted gone drift fc) (root : Root) :
    fc.tree.descends root .zero = false := by
  cases descends : fc.tree.descends root .zero with
  | false => rfl
  | true =>
    have known := (accounted.wellFormed.contains_of_descends descends).2
    rw [accounted.nonzero] at known
    contradiction

theorem mono (accounted : Accounted gone drift fc) (still : gone ⊆ gone') :
    Accounted gone' drift fc :=
  { accounted with
    known := fun mentions => (accounted.known mentions).mono .inl still
    drifted := fun off => (accounted.drifted off).imp_right fun left => still left }

/-- A tree with fewer blocks that have kept their weights and descendants. -/
theorem of_tree (accounted : Accounted gone drift fc) (wf : tree.WellFormed)
    (boost : tree.boost = fc.tree.boost)
    (kept : ∀ {root}, fc.tree.contains root = true → tree.contains root = true ∨ root ∈ gone')
    (still : gone ⊆ gone')
    (nodes : ∀ {i : Nat} {node : Node}, tree.nodes[i]? = some node → ∃ (j : Nat) (old : Node),
      fc.tree.nodes[j]? = some old ∧ old.root = node.root ∧ old.weight = node.weight ∧
        ∀ root, tree.descends node.root root = fc.tree.descends node.root root)
    (before : synced = true → fc.synced = true) :
    Accounted gone' drift { fc with tree, synced } where
  wellFormed := wf
  nonzero := by
    cases contained : tree.contains .zero with
    | false => rfl
    | true =>
      obtain ⟨i, node, at_i, named⟩ := wf.contains_iff.mp contained
      obtain ⟨j, old, at_j, named', -⟩ := nodes at_i
      have known := accounted.wellFormed.contains_root at_j
      rw [named', named, accounted.nonzero] at known
      contradiction
  known := fun mentions => (accounted.known ((mentions_of_tree boost).mp mentions)).mono kept still
  drifted := by
    intro root off
    exact (accounted.drifted off).elim kept fun left => .inr (still left)
  weights := by
    intro i node at_i
    obtain ⟨j, old, at_j, named, weight, descends⟩ := nodes at_i
    have backed : fc.backing node.root = backing { fc with tree, synced } node.root := by
      simp only [backing, BlockTree.lent, boost, funext descends]
    rw [← weight, accounted.weights at_j, named, backed]
  synced := by
    intro now
    obtain ⟨settled, applied, same⟩ := accounted.synced (before now)
    exact ⟨settled, applied, boost.trans same⟩

theorem castVote (accounted : Accounted gone drift fc) (known : Known gone fc.tree root)
    (validator : ValidatorIndex) (epoch : Epoch) :
    Accounted gone drift (fc.castVote validator epoch root).state := by
  rw [ForkChoice.castVote]
  cases recorded : fc.votes.record validator root epoch with
  | error cause => exact accounted
  | ok pair =>
    obtain ⟨votes, isNew⟩ := pair
    change Accounted gone drift { fc with votes, synced := fc.synced && !isNew }
    refine { accounted with known := ?_, weights := ?_, synced := ?_ }
    · rintro other (mentions | elsewhere)
      · rcases VoteTable.mentions_of_record recorded mentions with rfl | rfl | mentions
        · exact .inl rfl
        · exact known
        · exact accounted.known (.inl mentions)
      · exact accounted.known (.inr elsewhere)
    · intro i node at_i
      obtain ⟨blanks, counted⟩ := VoteTable.counted_of_record recorded
      -- The blank votes that fill up the table are for the zero root, which is no block.
      have idle : support (fc.tree.descends node.root) fc.appliedBalances
          (0 + (fc.votes.votes.map (·.counted)).length) (List.replicate blanks .zero) = 0 := by
        apply support_uncovered
        intro other member
        rw [List.eq_of_mem_replicate member]
        exact accounted.descends_zero node.root
      rw [accounted.weights at_i, backing, backing, counted, support_append, idle]
      rfl
    · intro synced
      simp only [Bool.and_eq_true, Bool.not_eq_true'] at synced
      obtain ⟨synced, rfl⟩ := synced
      obtain ⟨settled, applied, boost⟩ := accounted.synced synced
      refine ⟨fun vote member => ?_, applied, boost⟩
      rcases VoteTable.mem_of_not_recorded recorded member with member | rfl
      · exact settled vote member
      · rfl

theorem castVotes (accounted : Accounted gone drift fc) (known : Known gone fc.tree root)
    (epoch : Epoch) (validators : List ValidatorIndex) :
    Accounted gone drift (ForkChoice.castVotes epoch root validators fc).state := by
  induction validators generalizing fc with
  | nil => exact accounted
  | cons validator validators ih =>
    rw [ForkChoice.castVotes]
    have cast := accounted.castVote known validator epoch
    refine Outcome.state_bind (P := Accounted gone drift) cast fun _ _ => ih cast ?_
    rwa [(castVote_noted fc validator epoch root).sameChain.tree]

theorem countQueued (accounted : Accounted gone drift fc) {attestations : List QueuedAttestation}
    (known : ∀ attestation ∈ attestations, Known gone fc.tree attestation.head) :
    Accounted gone drift (ForkChoice.countQueued attestations fc).state := by
  induction attestations generalizing fc with
  | nil => exact accounted
  | cons attestation attestations ih =>
    rw [ForkChoice.countQueued]
    have cast := accounted.castVotes (known _ List.mem_cons_self) attestation.targetEpoch
      attestation.validators
    refine Outcome.state_bind (P := Accounted gone drift) cast fun _ _ => ih cast ?_
    intro other member
    rw [(castVotes_noted _ _ _ fc).sameChain.tree]
    exact known other (List.mem_cons_of_mem _ member)

/-- Attestations that wait or are remembered may be replaced by others for known blocks. -/
theorem with_pending (accounted : Accounted gone drift fc) {queue : List QueuedAttestation}
    {validated : List AttestationData}
    (queued : ∀ attestation ∈ queue, Known gone fc.tree attestation.head)
    (remembered : ∀ data ∈ validated, Known gone fc.tree data.head) :
    Accounted gone drift { fc with queue, validated } := by
  refine { accounted with known := ?_ }
  rintro root (voted | ⟨attestation, member, rfl⟩ | ⟨data, member, rfl⟩ | boosts)
  · exact accounted.known (.inl voted)
  · exact queued attestation member
  · exact remembered data member
  · exact accounted.known (.inr (.inr (.inr boosts)))

theorem queued (accounted : Accounted gone drift fc) {attestation : QueuedAttestation}
    (member : attestation ∈ fc.queue) : Known gone fc.tree attestation.head :=
  accounted.known (.inr (.inl ⟨attestation, member, rfl⟩))

theorem validated (accounted : Accounted gone drift fc) {data : AttestationData}
    (member : data ∈ fc.validated) : Known gone fc.tree data.head :=
  accounted.known (.inr (.inr (.inl ⟨data, member, rfl⟩)))

theorem processQueue (accounted : Accounted gone drift fc) :
    Accounted gone drift fc.processQueue.state := by
  rw [ForkChoice.processQueue, List.partition_eq_filter_filter]
  have waiting (p : QueuedAttestation → Bool) :
      Accounted gone drift { fc with queue := fc.queue.filter p } :=
    accounted.with_pending (fun _ member => accounted.queued (List.mem_of_mem_filter member))
      fun _ member => accounted.validated member
  exact (waiting _).countQueued fun _ member => accounted.queued (List.mem_of_mem_filter member)

theorem onAttestation (accounted : Accounted gone drift fc) (attestation : Attestation)
    (fromBlock : Bool) : Accounted gone drift (fc.onAttestation attestation fromBlock).state := by
  rcases fc.onAttestation_cases attestation fromBlock with same | ⟨examined, passed, cases⟩
  · rwa [same]
  · have ⟨remembered, known⟩ : Accounted gone drift examined ∧
        Known gone examined.tree attestation.data.head := by
      rcases examine_ok passed with ⟨rfl, member⟩ | ⟨rfl, checked⟩
      · exact ⟨accounted, accounted.validated member⟩
      · obtain ⟨-, node, found, -⟩ := checkVote_eq_ok.mp (checkData_eq_ok.mp checked).2
        obtain ⟨i, at_i, named⟩ := accounted.wellFormed.node?_eq_some.mp found
        have known : Known gone fc.tree attestation.data.head := by
          rw [← named]
          exact .inr (.inl (accounted.wellFormed.contains_root at_i))
        refine ⟨accounted.with_pending (fun _ member => accounted.queued member) ?_, known⟩
        exact List.forall_mem_cons.mpr ⟨known, fun _ member => accounted.validated member⟩
    rcases cases with same | same | same <;> rw [same]
    · exact remembered
    · exact remembered.castVotes known _ _
    · refine remembered.with_pending ?_ fun _ member => remembered.validated member
      intro queued member
      rcases List.mem_append.mp member with member | new
      · exact remembered.queued member
      · rw [List.mem_singleton.mp new]
        exact known

/-- A boost that ends is one more reason to bring the weights up to date. -/
theorem atSlot (accounted : Accounted gone drift fc) (slot : Slot) :
    Accounted gone drift (fc.atSlot slot) := by
  refine { accounted with known := ?_, synced := ?_ }
  · rintro root (voted | queued | validated | boosted | lent)
    · exact accounted.known (.inl voted)
    · exact accounted.known (.inr (.inl queued))
    · exact accounted.known (.inr (.inr (.inl validated)))
    · contradiction
    · exact accounted.known (.inr (.inr (.inr (.inr lent))))
  · intro synced
    simp only [ForkChoice.atSlot, Bool.and_eq_true, Option.isNone_iff_eq_none] at synced
    obtain ⟨synced, unboosted⟩ := synced
    obtain ⟨settled, applied, boost⟩ := accounted.synced synced
    refine ⟨settled, applied, boost.trans ?_⟩
    simp only [boost?, unboosted, ForkChoice.atSlot]

theorem adoptBestJustified (accounted : Accounted gone drift fc) :
    Accounted gone drift fc.adoptBestJustified.state := by
  rcases fc.adoptBestJustified_cases with same | ⟨-, -, state⟩
  · rwa [same]
  · rw [state]
    refine { accounted with synced := ?_ }
    intro synced
    contradiction

theorem onTick (accounted : Accounted gone drift fc) (slot : Slot) :
    Accounted gone drift (fc.onTick slot).state := by
  rcases fc.onTick_cases slot with same | same | same <;> rw [same]
  · exact accounted
  · exact accounted.atSlot slot
  · exact (accounted.atSlot slot).adoptBestJustified

theorem updateTime (accounted : Accounted gone drift fc) (slot : Slot) :
    Accounted gone drift (fc.updateTime slot).state :=
  updateTime_invariant accounted (fun slot accounted => accounted.onTick slot)
    (fun accounted => accounted.processQueue)
    (fun accounted => accounted.with_pending (fun _ member => accounted.queued member) (by simp))
    slot

theorem unset (accounted : Accounted gone drift fc) : fc.tree.index[Root.zero]? = none := by
  have absent := accounted.nonzero
  rwa [BlockTree.contains_eq, Option.isSome_eq_false_iff, Option.isNone_iff_eq_none] at absent

/-- Moved votes change a weight by as much as the balances behind it, apart from the boosts. -/
theorem weight_moved (accounted : Accounted gone drift fc) {deltas : List Delta}
    (moves : fc.votes.Moves fc.tree.index fc.appliedBalances fc.store.justifiedBalances deltas)
    {i : Nat} {node : Node} (at_i : fc.tree.nodes[i]? = some node) :
    (node.weight.toNat : Int) + changeUnder (fc.tree.under node.root) deltas =
      support (fc.tree.descends node.root) fc.store.justifiedBalances 0
        (fc.votes.votes.map (·.latest)) + fc.tree.lent fc.tree.boost node.root +
          drift node.root := by
  have covers : (fun root => fc.tree.index[root]?.any (fc.tree.under node.root)) =
      fc.tree.descends node.root := funext (accounted.wellFormed.any_under node.root)
  have before := accounted.weights at_i
  have change := moves (fc.tree.under node.root)
  rw [covers] at change
  rw [backing] at before
  omega

/-- New scores that take account of all votes change every weight as much as its backing. -/
theorem rescored (accounted : Accounted gone drift fc) {table : VoteTable}
    {change : BlockTree.ScoreChange}
    (moved : ∀ {root}, table.Mentions root → fc.votes.Mentions root)
    (votes : table.votes = fc.votes.votes.map .settled)
    (moves : fc.votes.Moves fc.tree.index fc.appliedBalances fc.store.justifiedBalances
      change.deltas)
    (boost : change.boost = (fc.withVotes table).boost?)
    (count : change.deltas.length = fc.tree.nodes.length)
    (weighed : (fc.tree.weighed change).result = .ok ()) :
    Accounted gone drift
      { fc.withVotes table with tree := fc.tree.rescored change, synced := true } := by
  have wf := accounted.wellFormed
  have index := BlockTree.index_rescored wf change
  have links := BlockTree.parents_rescored wf change
  have contains (root : Root) : (fc.tree.rescored change).contains root = fc.tree.contains root :=
    congrArg (·.contains root) index
  refine ⟨wf.rescored change, (contains .zero).trans accounted.nonzero, ?_, ?_, ?_, ?_⟩
  · intro root mentions
    have lent {boosted : Boost} (set : (fc.tree.rescored change).boost = some boosted) :=
      boostRoot_of_boost? (boost.symm.trans set)
    have known := accounted.known (mentions_of_moved moved (fun set => .inl (lent set)) mentions)
    exact known.mono (fun kept => .inl ((contains root).trans kept)) fun _ => id
  · intro root off
    exact (accounted.drifted off).imp_left (contains root).trans
  · intro i node at_i
    obtain ⟨old, at_old⟩ := BlockTree.exists_of_rescored wf at_i
    obtain ⟨node', at_i', named, weight⟩ := wf.weight_rescored count weighed at_old
    obtain rfl : node' = node := Option.some.inj (at_i'.symm.trans at_i)
    have due := accounted.weight_moved moves at_old
    have descends := funext (wf.descends_congr (wf.rescored change) index links old.root)
    have counted : table.votes.map (·.counted) = fc.votes.votes.map (·.latest) := by
      rw [votes, List.map_map]
      rfl
    have lent : (fc.tree.rescored change).lent change.boost old.root =
        fc.tree.lent change.boost old.root := by
      simp only [BlockTree.lent, descends]
    change (node'.weight.toNat : Int) =
      ↑(support ((fc.tree.rescored change).descends node'.root) fc.store.justifiedBalances 0
        (table.votes.map (·.counted)) + (fc.tree.rescored change).lent change.boost node'.root) +
          drift node'.root
    rw [named, descends, counted, lent]
    omega
  · intro _
    refine ⟨fun vote member => ?_, rfl, boost⟩
    obtain ⟨old, -, rfl⟩ := List.mem_map.mp (votes ▸ member)
    rfl

theorem reweigh (accounted : Accounted gone drift fc) (ok : fc.reweigh.result = .ok ()) :
    Accounted gone drift fc.reweigh.state := by
  rcases fc.reweigh_cases with ⟨_, -, failed, -⟩ | ⟨deltas, moved, result, state⟩
  · rw [failed] at ok
    contradiction
  · rw [result] at ok
    rw [state]
    obtain ⟨votes, -, moves⟩ := VoteTable.deltas_ok accounted.unset moved
    rcases applyDeltas_cases (fc.withVotes _) deltas with ⟨_, -, failed, -⟩ | ⟨scored, -, state⟩
    · rw [failed] at ok
      contradiction
    · obtain ⟨weighed, rescored, count⟩ := accounted.wellFormed.applyScores_ok scored
      rw [state]
      have done := accounted.rescored VoteTable.mentions_of_deltas votes moves rfl count weighed
      rwa [← rescored] at done

theorem selectHead (accounted : Accounted gone drift fc) :
    Accounted gone drift fc.selectHead.state := by
  obtain ⟨head, state⟩ := fc.selectHead_state
  rw [state]
  exact { accounted with }

theorem updateHead (accounted : Accounted gone drift fc)
    (ok : fc.synced = false → fc.reweigh.result = .ok ()) :
    Accounted gone drift fc.updateHead.state := by
  rw [ForkChoice.updateHead]
  split
  · exact accounted.selectHead
  · rename_i outdated
    have done := accounted.reweigh (ok (Bool.eq_false_iff.mpr outdated))
    exact Outcome.state_bind (P := Accounted gone drift) done fun _ _ => done.selectHead

/-- A block that is new to the tree has no backing, and nothing that was there descends from it. -/
theorem weights_of_new (accounted : Accounted gone drift fc) {block : Block} {i : Nat} {node : Node}
    (new : fc.tree.contains block.root = false)
    (apart : ∀ {root}, fc.Mentions root → root ≠ block.root) (undrifted : drift block.root = 0)
    (at_i : (fc.tree.insert block).nodes[i]? = some node) : (node.weight.toNat : Int) =
      backing { fc with tree := fc.tree.insert block } node.root + drift node.root := by
  have wf := accounted.wellFormed
  have counted : ∀ root ∈ fc.votes.votes.map (·.counted), fc.Mentions root := by
    intro root member
    obtain ⟨vote, member, named⟩ := List.mem_map.mp member
    exact .inl ⟨vote, member, .inl named⟩
  have boosted : ∀ boost, fc.tree.boost = some boost → fc.Mentions boost.root := fun boost set =>
    .inr (.inr (.inr (.inr ⟨boost, set, rfl⟩)))
  rw [BlockTree.nodes_insert_of_new new] at at_i
  rw [backing, BlockTree.boost_insert]
  rcases getElem?_concat at_i with at_i | ⟨-, rfl⟩
  · have same {root : Root} (mentions : fc.Mentions root) :
        (fc.tree.insert block).descends node.root root = fc.tree.descends node.root root :=
      wf.descends_insert (apart mentions)
    have lent : (fc.tree.insert block).lent fc.tree.boost node.root =
        fc.tree.lent fc.tree.boost node.root := by
      cases set : fc.tree.boost with
      | none => rfl
      | some boost => simp only [BlockTree.lent, same (boosted boost set)]
    rw [accounted.weights at_i, backing, lent,
      support_congr fun root member => same (counted root member)]
  · have idle {root : Root} (mentions : fc.Mentions root) :
        (fc.tree.insert block).descends block.root root = false := by
      apply Bool.eq_false_iff.mpr
      intro descends
      exact apart mentions (wf.eq_of_descends_insert new descends)
    have lent : (fc.tree.insert block).lent fc.tree.boost block.root = 0 := by
      cases set : fc.tree.boost with
      | none => rfl
      | some boost =>
        rw [BlockTree.lent, idle (boosted boost set)]
        rfl
    change 0 = ↑(support ((fc.tree.insert block).descends block.root) _ 0 _ +
      (fc.tree.insert block).lent fc.tree.boost block.root) + drift block.root
    rw [lent, support_uncovered fun root member => idle (counted root member), undrifted]
    rfl

/-- A new root is neither zero nor in the tree nor gone, so nothing is for it yet. -/
theorem weights_insert (accounted : Accounted gone drift fc) {block : Block} {i : Nat} {node : Node}
    (nonzero : block.root ≠ .zero) (fresh : block.root ∉ gone)
    (at_i : (fc.tree.insert block).nodes[i]? = some node) : (node.weight.toNat : Int) =
      backing { fc with tree := fc.tree.insert block } node.root + drift node.root := by
  cases there : fc.tree.contains block.root with
  | true =>
    rw [BlockTree.insert_of_contains there] at at_i ⊢
    exact accounted.weights at_i
  | false =>
    have unknown : ¬(fc.tree.contains block.root = true ∨ block.root ∈ gone) := by
      rw [there]
      exact fun known => known.elim Bool.false_ne_true fresh
    refine accounted.weights_of_new there ?_ ?_ at_i
    · rintro root mentions rfl
      exact (accounted.known mentions).elim nonzero unknown
    · exact Decidable.byContradiction fun off => unknown (accounted.drifted off)

/-- An import enters a block, and names no other; what is left to tell are the weights. -/
theorem imported_of_weights (accounted : Accounted gone drift fc) {drift' : Root → Int}
    {block : BeaconBlock} {state : PostState} {arrival : Arrival} (admission : Admission)
    (nonzero : arrival.root ≠ .zero)
    (drifted : ∀ {root}, drift' root ≠ 0 →
      (fc.imported block state arrival admission).tree.contains root = true ∨ root ∈ gone)
    (weights : ∀ {i : Nat} {node : Node},
      (fc.imported block state arrival admission).tree.nodes[i]? = some node →
      (node.weight.toNat : Int) =
        backing (fc.imported block state arrival admission) node.root + drift' node.root) :
    Accounted gone drift' (fc.imported block state arrival admission) := by
  let entered := entry block state arrival admission.target
  refine ⟨accounted.wellFormed.insert entered, ?_, ?_, drifted, weights,
    fun synced => by contradiction⟩
  · exact BlockTree.not_contains_insert nonzero accounted.nonzero
  · intro root mentions
    rcases mentions_of_imported mentions with rfl | mentions
    · exact .inr (.inl (BlockTree.contains_insert fc.tree entered))
    · apply (accounted.known mentions).mono _ fun _ => id
      exact fun kept => .inl (BlockTree.contains_insert_iff.mpr (.inr kept))

theorem imported (accounted : Accounted gone drift fc) {block : BeaconBlock} {state : PostState}
    {arrival : Arrival} (admission : Admission) (nonzero : arrival.root ≠ .zero)
    (fresh : arrival.root ∉ gone) :
    Accounted gone drift (fc.imported block state arrival admission) := by
  apply accounted.imported_of_weights admission nonzero
  · intro root off
    apply (accounted.drifted off).imp_left
    exact fun kept => BlockTree.contains_insert_iff.mpr (.inr kept)
  · intro i node at_i
    exact accounted.weights_insert nonzero fresh at_i

theorem prune (accounted : Accounted gone drift fc) (finalized : Root) :
    Accounted (removedBy fc (.prune finalized) ++ gone) drift (fc.prune finalized).state := by
  have wf := accounted.wellFormed
  have still : gone ⊆ removedBy fc (.prune finalized) ++ gone := List.subset_append_right _ _
  rcases wf.prune_cases finalized with ⟨same, -⟩ | ⟨count, -, dropped, result⟩
  · have state : (fc.prune finalized).state = { fc with tree := fc.tree } :=
      congrArg (fun tree => { fc with tree }) same
    rw [state]
    refine accounted.of_tree wf rfl .inl still ?_ id
    intro i node at_i
    exact ⟨i, node, at_i, rfl, rfl, fun _ => rfl⟩
  · have state : (fc.prune finalized).state = { fc with tree := fc.tree.dropFirst count } :=
      congrArg (fun tree => { fc with tree }) dropped
    rw [state]
    refine accounted.of_tree (wf.dropFirst count) rfl ?_ still ?_ id
    · intro root there
      apply (wf.contains_dropFirst there).imp_right
      intro left
      rw [removedBy_prune result]
      exact List.mem_append_left _ left
    · intro i node at_i
      rw [BlockTree.getElem?_dropFirst] at at_i
      obtain ⟨old, at_old, rfl⟩ := Option.map_eq_some_iff.mp at_i
      have descends := wf.descends_dropFirst at_old
      exact ⟨i + count, old, at_old, rfl, rfl, descends⟩

theorem of_verdict (accounted : Accounted gone drift fc)
    (same : BlockTree.SameButStatuses fc.tree tree) (before : synced = true → fc.synced = true) :
    Accounted gone drift { fc with tree, synced } := by
  have wf := accounted.wellFormed
  have wf' := same.wellFormed wf
  have descends := wf.descends_congr wf' same.index_eq same.parents_eq
  obtain ⟨nodes, rfl, unjudged⟩ := same
  refine accounted.of_tree wf' rfl .inl (fun _ => id) ?_ before
  intro i node at_i
  obtain ⟨old, at_old, alike⟩ := getElem?_of_map_eq unjudged at_i
  exact ⟨i, old, at_old, congrArg (·.root) alike, congrArg (·.weight) alike, descends node.root⟩

/--
Every call but a change of weights that fails keeps the drift of all blocks, as long as blocks are
fresh when they come and messages name known blocks.
-/
theorem after_of_known (accounted : Accounted gone drift fc)
    (fresh : ∀ {block state arrival engine}, call = .block block state arrival engine →
      (∃ entry, (fc.onBlock block state arrival engine).result = .ok entry) →
        arrival.root ≠ .zero ∧ arrival.root ∉ gone)
    (named : ∀ {validator epoch root}, call = .message validator epoch root →
      Known gone fc.tree root)
    (ok : call = .head → fc.synced = false → fc.reweigh.result = .ok ()) :
    Accounted (removedBy fc call ++ gone) drift (fc.after call) := by
  cases call with
  | block block state arrival engine =>
    rw [ForkChoice.after]
    rcases fc.onBlock_cases block state arrival engine with
      refused | ⟨admission, -, accepted, imported⟩
    · rw [refused]
      exact accounted
    · obtain ⟨nonzero, fresh⟩ := fresh rfl ⟨_, accepted⟩
      rw [imported]
      exact accounted.imported admission nonzero fresh
  | attestation attestation fromBlock => exact accounted.onAttestation attestation fromBlock
  | message validator epoch root => exact accounted.castVote (named rfl) validator epoch
  | head => exact accounted.updateHead (ok rfl)
  | time slot => exact accounted.updateTime slot
  | tick slot => exact accounted.onTick slot
  | prune finalized => exact accounted.prune finalized
  | setPruneThreshold threshold =>
    exact { accounted with wellFormed := accounted.wellFormed.setPruneThreshold threshold }
  | validPayload root =>
    exact accounted.of_verdict (BlockTree.confirm_sameButStatuses fc.tree root) id
  | invalidPayload root =>
    have rejected := BlockTree.reject_sameButStatuses fc.tree root
    refine Outcome.state_bind (P := Accounted gone drift) ?_ fun _ _ => ?_
    · exact accounted.of_verdict rejected id
    · apply accounted.of_verdict rejected
      intro synced
      exact (Bool.and_eq_true_iff.mp synced).1

theorem after (accounted : Accounted (removed history) drift fc) (tidy : Tidy history fc call)
    (ok : call = .head → fc.synced = false → fc.reweigh.result = .ok ()) :
    Accounted (removed (⟨fc, call⟩ :: history)) drift (fc.after call) := by
  apply accounted.after_of_known _ _ ok
  · rintro _ _ _ _ rfl
    exact tidy
  · rintro _ _ _ rfl
    exact .inr (.inl tidy)

/-- At the anchor there is no vote yet, and the only block weighs nothing. -/
theorem anchored {preset : Preset} {config : ChainConfig} {settings : NodeSettings}
    {anchor : Block} {balances : Balances} (nonzero : anchor.root ≠ .zero) (head : Node) :
    Accounted [] (fun _ => 0) (anchored preset config settings anchor slot balances head) := by
  obtain ⟨block, tree, named⟩ := anchored_tree preset config settings anchor slot balances head
  have wf := wellFormed_anchored preset config settings anchor slot balances head
  generalize entered : ForkChoice.anchored preset config settings anchor slot balances head = fc
    at tree wf
  have unset : fc.votes.votes = [] ∧ fc.queue = [] ∧ fc.validated = [] ∧ fc.boostRoot = none ∧
      fc.synced = false := by
    rw [← entered]
    exact ⟨rfl, rfl, rfl, rfl, rfl⟩
  obtain ⟨votes, queue, validated, boostRoot, unsynced⟩ := unset
  have empty := BlockTree.contains_empty settings.pruneThreshold (preset.epochOf anchor.slot)
    (preset.epochOf anchor.slot)
  have unboosted : fc.tree.boost = none := by
    rw [tree, BlockTree.boost_insert]
    rfl
  refine ⟨wf, ?_, ?_, fun off => (off rfl).elim, ?_, ?_⟩
  · rw [tree]
    exact BlockTree.not_contains_insert (named ▸ nonzero) (empty .zero)
  · intro root mentions
    simp [Mentions, VoteTable.Mentions, votes, queue, validated, boostRoot, unboosted] at mentions
  · intro i node at_i
    rw [tree, BlockTree.nodes_insert_of_new (empty _)] at at_i
    rcases getElem?_concat at_i with at_i | ⟨-, rfl⟩
    · contradiction
    · rw [backing, votes, unboosted]
      rfl
  · intro synced
    rw [unsynced] at synced
    contradiction

theorem of_start {preset : Preset} {config : ChainConfig} {settings : NodeSettings}
    {anchor : Block} {balances : Balances} (nonzero : anchor.root ≠ .zero)
    (started : start preset config settings anchor slot balances = .ok fc) :
    Accounted [] (fun _ => 0) fc := by
  obtain ⟨head, found, ok, state⟩ := start_ok started
  rw [state]
  apply (Accounted.anchored nonzero head).updateHead
  intro unsynced
  rw [ForkChoice.updateHead, unsynced, if_neg Bool.false_ne_true] at ok
  obtain ⟨_, reweighed, -⟩ := Outcome.bind_eq_ok_iff.mp ok
  exact reweighed

end Accounted

end LmdGhost.ForkChoice
