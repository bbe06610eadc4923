import LmdGhost.Proofs.BlockTree.Faults
import LmdGhost.Proofs.BlockTree.Repetition
import LmdGhost.Proofs.ForkChoice.Calls
import LmdGhost.Proofs.VoteTable.Support
/-!
States in which the weights take account of all votes and blocks. There every vote is counted for
its latest block, under the balances of the justified state, and the tree has the boost and the
epochs of the store. So bringing the weights up to date once more succeeds and changes nothing but
best links. The heads that were found before are found again, as long as no rejection has failed
after it marked its block.
-/

namespace LmdGhost.ForkChoice

structure UpToDate (fc : ForkChoice) : Prop where
  counted : ∀ vote ∈ fc.votes.votes, vote.counted = vote.latest
  applied : fc.appliedBalances = fc.store.justifiedBalances
  boost : fc.tree.boost = fc.boost?
  justifiedEpoch : fc.tree.justifiedEpoch = fc.store.justified.epoch
  finalizedEpoch : fc.tree.finalizedEpoch = fc.store.finalized.epoch
  boostFits : fc.tree.BoostFits

/--
The state is marked as in sync only if its weights are up to date and, unless there is an excuse,
its tree is steady.
-/
def Candid (excuse : Prop) (fc : ForkChoice) : Prop :=
  fc.synced = true → fc.UpToDate ∧ (fc.tree.Steady ∨ excuse)

/-- A call that rejects a block that was syncing and then fails at one below. -/
def BreaksOff (fc : ForkChoice) (call : Call) : Prop :=
  ∃ root, call = .invalidPayload root ∧ fc.tree.Misjudges (.reject root)

variable {fc fc' : ForkChoice} {tree : BlockTree} {synced : Bool} {call : Call}
  {history : List (Event ForkChoice Call)} {root : Root} {slot : Slot}

namespace UpToDate

/-- Trees with some of the nodes, and some best links or statuses changed. -/
theorem of_tree (upToDate : fc.UpToDate) (boost : tree.boost = fc.tree.boost)
    (justifiedEpoch : tree.justifiedEpoch = fc.tree.justifiedEpoch)
    (finalizedEpoch : tree.finalizedEpoch = fc.tree.finalizedEpoch)
    (nodes : ∀ node ∈ tree.nodes, ∃ old ∈ fc.tree.nodes, old.root = node.root) :
    UpToDate { fc with tree, synced } where
  counted := upToDate.counted
  applied := upToDate.applied
  boost := boost.trans upToDate.boost
  justifiedEpoch := justifiedEpoch.trans upToDate.justifiedEpoch
  finalizedEpoch := finalizedEpoch.trans upToDate.finalizedEpoch
  boostFits := by
    intro node member
    obtain ⟨old, member, named⟩ := nodes node member
    rw [boost, ← named]
    exact upToDate.boostFits old member

theorem of_verdict (upToDate : fc.UpToDate) (same : BlockTree.SameButStatuses fc.tree tree) :
    UpToDate { fc with tree, synced } := by
  obtain ⟨nodes, rfl, unjudged⟩ := same
  refine upToDate.of_tree rfl rfl rfl fun node member => ?_
  obtain ⟨i, at_i⟩ := List.mem_iff_getElem?.mp member
  obtain ⟨old, at_i', alike⟩ := getElem?_of_map_eq unjudged at_i
  exact ⟨old, List.mem_of_getElem? at_i', congrArg (·.root) alike⟩

/-- Weights that are up to date are brought up to date again, which moves best links alone. -/
theorem reweigh (upToDate : fc.UpToDate) (wf : fc.tree.WellFormed) :
    fc.reweigh.result = .ok () ∧ ∃ change,
      BlockTree.SameButLinks fc.tree (fc.tree.rescored change) ∧
        fc.reweigh.state = { fc with tree := fc.tree.rescored change, synced := true } := by
  have moved : fc.votes.deltas fc.tree.index fc.appliedBalances fc.store.justifiedBalances =
      .done fc.votes (List.replicate fc.tree.nodes.length 0) := by
    rw [upToDate.applied, ← wf.size_index]
    exact VoteTable.deltas_of_counted _ _ upToDate.counted
  have same : fc.withVotes fc.votes = fc := by
    rw [withVotes, ← upToDate.applied]
  have repeats : (fc.scoreChange (List.replicate fc.tree.nodes.length 0)).Repeats fc.tree :=
    ⟨rfl, upToDate.boost.symm, upToDate.justifiedEpoch.symm, upToDate.finalizedEpoch.symm⟩
  obtain ⟨scored, rescored, alike⟩ := wf.applyScores_repeated upToDate.boostFits repeats
  rcases fc.reweigh_cases with ⟨_, failed, -⟩ | ⟨deltas, ok, result, state⟩
  · rw [moved] at failed
    contradiction
  · rw [moved] at ok result state
    cases ok
    rw [Outcome.state_done, same] at result state
    rcases applyDeltas_cases fc _ with ⟨_, failed, -⟩ | ⟨-, applied, applied_state⟩
    · rw [scored] at failed
      contradiction
    · rw [rescored] at applied_state
      exact ⟨result.trans applied, _, alike, state.trans applied_state⟩

end UpToDate

namespace Candid

variable {excuse excuse' : Prop}

theorem mono (candid : Candid excuse fc) (implied : excuse → excuse') : Candid excuse' fc :=
  fun synced => (candid synced).imp_right fun steady => steady.imp_right implied

theorem castVote (candid : Candid excuse fc) (validator : ValidatorIndex) (epoch : Epoch)
    (root : Root) : Candid excuse (fc.castVote validator epoch root).state := by
  rw [ForkChoice.castVote]
  cases recorded : fc.votes.record validator root epoch with
  | error cause => exact candid
  | ok pair =>
    obtain ⟨votes, isNew⟩ := pair
    intro synced
    simp only [Outcome.state_done, Bool.and_eq_true, Bool.not_eq_true'] at synced
    obtain ⟨synced, rfl⟩ := synced
    obtain ⟨upToDate, steady⟩ := candid synced
    refine ⟨{ upToDate with counted := fun vote member => ?_ }, steady⟩
    rcases VoteTable.mem_of_not_recorded recorded member with member | rfl
    · exact upToDate.counted vote member
    · rfl

theorem castVotes (candid : Candid excuse fc) (epoch : Epoch) (root : Root)
    (validators : List ValidatorIndex) :
    Candid excuse (ForkChoice.castVotes epoch root validators fc).state := by
  induction validators generalizing fc with
  | nil => exact candid
  | cons validator validators ih =>
    have cast := candid.castVote validator epoch root
    exact Outcome.state_bind (P := Candid excuse) cast fun _ _ => ih cast

theorem countQueued (candid : Candid excuse fc) (attestations : List QueuedAttestation) :
    Candid excuse (ForkChoice.countQueued attestations fc).state := by
  induction attestations generalizing fc with
  | nil => exact candid
  | cons attestation attestations ih =>
    have cast := candid.castVotes attestation.targetEpoch attestation.head attestation.validators
    exact Outcome.state_bind (P := Candid excuse) cast fun _ _ => ih cast

/-- Attestations that wait or are remembered have no part in the weights. -/
theorem with_pending (candid : Candid excuse fc) (queue : List QueuedAttestation)
    (validated : List AttestationData) : Candid excuse { fc with queue, validated } :=
  fun synced => (candid synced).imp_left fun upToDate => { upToDate with }

theorem processQueue (candid : Candid excuse fc) : Candid excuse fc.processQueue.state := by
  rw [ForkChoice.processQueue, List.partition_eq_filter_filter]
  exact (candid.with_pending _ fc.validated).countQueued _

theorem onAttestation (candid : Candid excuse fc) (attestation : Attestation) (fromBlock : Bool) :
    Candid excuse (fc.onAttestation attestation fromBlock).state := by
  rcases fc.onAttestation_cases attestation fromBlock with same | ⟨examined, passed, cases⟩
  · rwa [same]
  · have remembered : Candid excuse examined := by
      rcases examine_ok passed with ⟨rfl, -⟩ | ⟨rfl, -⟩
      · exact candid
      · exact candid.with_pending _ _
    rcases cases with same | same | same <;> rw [same]
    · exact remembered
    · exact remembered.castVotes _ _ _
    · exact remembered.with_pending _ _

theorem atSlot (candid : Candid excuse fc) (slot : Slot) : Candid excuse (fc.atSlot slot) := by
  intro synced
  simp only [ForkChoice.atSlot, Bool.and_eq_true, Option.isNone_iff_eq_none] at synced
  obtain ⟨synced, unboosted⟩ := synced
  obtain ⟨upToDate, steady⟩ := candid synced
  refine ⟨{ upToDate with boost := upToDate.boost.trans ?_ }, steady⟩
  simp only [boost?, unboosted, ForkChoice.atSlot]

theorem adoptBestJustified (candid : Candid excuse fc) :
    Candid excuse fc.adoptBestJustified.state := by
  rcases fc.adoptBestJustified_cases with same | ⟨-, -, state⟩
  · rwa [same]
  · rw [state]
    intro synced
    contradiction

theorem onTick (candid : Candid excuse fc) (slot : Slot) :
    Candid excuse (fc.onTick slot).state := by
  rcases fc.onTick_cases slot with same | same | same <;> rw [same]
  · exact candid
  · exact candid.atSlot slot
  · exact (candid.atSlot slot).adoptBestJustified

theorem updateTime (candid : Candid excuse fc) (slot : Slot) :
    Candid excuse (fc.updateTime slot).state :=
  updateTime_invariant candid (fun slot candid => candid.onTick slot)
    (fun candid => candid.processQueue) (fun candid => candid.with_pending _ _) slot

theorem prune (candid : Candid excuse fc) (wf : fc.tree.WellFormed) (finalized : Root) :
    Candid excuse (fc.prune finalized).state := by
  intro synced
  obtain ⟨upToDate, steady⟩ := candid synced
  refine ⟨?_, steady.imp_left fun steady => steady.prune wf finalized⟩
  rcases wf.prune_cases finalized with ⟨same, -⟩ | ⟨count, -, dropped, -⟩
  · exact upToDate.of_tree (congrArg (·.boost) same) (congrArg (·.justifiedEpoch) same)
      (congrArg (·.finalizedEpoch) same) fun node member => ⟨node, same ▸ member, rfl⟩
  · have state : (fc.prune finalized).state = { fc with tree := fc.tree.dropFirst count } :=
      congrArg (fun tree => { fc with tree }) dropped
    rw [state]
    refine upToDate.of_tree rfl rfl rfl fun node member => ?_
    obtain ⟨i, at_i⟩ := List.mem_iff_getElem?.mp member
    rw [BlockTree.getElem?_dropFirst] at at_i
    obtain ⟨old, at_old, rfl⟩ := Option.map_eq_some_iff.mp at_i
    exact ⟨old, List.mem_of_getElem? at_old, rfl⟩

theorem onValidPayload (candid : Candid excuse fc) (root : Root) :
    Candid excuse (fc.onValidPayload root).state := by
  intro synced
  obtain ⟨upToDate, steady⟩ := candid synced
  exact ⟨upToDate.of_verdict (BlockTree.confirm_sameButStatuses fc.tree root),
    steady.imp_left fun steady => steady.confirm root⟩

/-- A rejection that ends asks for new weights, so only one that breaks off unsettles the tree. -/
theorem onInvalidPayload (candid : Candid excuse fc) (wf : fc.tree.WellFormed)
    (broken : fc.synced = true → fc.tree.Misjudges (.reject root) → excuse) :
    Candid excuse (fc.onInvalidPayload root).state := by
  have rejected := BlockTree.reject_sameButStatuses fc.tree root
  have marked : Candid excuse { fc with tree := (fc.tree.reject root).state } ∨
      ∃ roots, (fc.tree.reject root).result = .ok (root :: roots) := by
    rcases wf.reject_cases root with same | misjudged | ended
    · rw [same]
      exact .inl candid
    · refine .inl fun synced => ?_
      exact ⟨(candid synced).1.of_verdict rejected, .inr (broken synced misjudged)⟩
    · exact .inr ended
  have lifted := Outcome.result_lift (fun tree => { fc with tree }) Error.ofTree
    (fc.tree.reject root)
  rw [ForkChoice.onInvalidPayload, onTree]
  cases result : (fc.tree.reject root).result with
  | error cause =>
    rw [result] at lifted marked
    rw [Outcome.state_bind_of_error _ lifted]
    exact marked.resolve_right nofun
  | ok roots =>
    rw [result] at lifted marked
    rw [Outcome.state_bind_of_ok _ lifted]
    intro synced
    simp only [Outcome.state_done, Outcome.state_lift, Bool.and_eq_true,
      List.isEmpty_iff] at synced
    obtain ⟨synced, rfl⟩ := synced
    obtain ⟨upToDate, steady⟩ := marked.resolve_right nofun synced
    exact ⟨{ upToDate with }, steady⟩

/-- Changes that follow from votes that are counted bring the weights up to date. -/
theorem applyDeltas (wf : fc.tree.WellFormed) (unsynced : fc.synced = false)
    (counted : ∀ vote ∈ fc.votes.votes, vote.counted = vote.latest)
    (applied : fc.appliedBalances = fc.store.justifiedBalances) (deltas : List Delta) :
    Candid excuse (fc.applyDeltas deltas).state := by
  intro synced
  rcases applyDeltas_cases fc deltas with ⟨_, -, -, state⟩ | ⟨scored, -, state⟩
  · rw [state] at synced
    exact absurd (unsynced.symm.trans synced) Bool.false_ne_true
  · obtain ⟨weighed, rescored, -⟩ := wf.applyScores_ok scored
    obtain ⟨justifiedEpoch, finalizedEpoch⟩ :=
      BlockTree.epochs_rescored wf (fc.scoreChange deltas)
    rw [state, rescored]
    have fits := wf.boostFits_rescored weighed
    exact ⟨⟨counted, applied, rfl, justifiedEpoch, finalizedEpoch, fits⟩,
      .inl (wf.steady_rescored _)⟩

theorem reweigh (wf : fc.tree.WellFormed) (unsynced : fc.synced = false) :
    Candid excuse fc.reweigh.state := by
  rcases fc.reweigh_cases with ⟨_, -, -, state⟩ | ⟨deltas, moved, -, state⟩
  · rw [state]
    exact fun synced => absurd (unsynced.symm.trans synced) Bool.false_ne_true
  · rw [state]
    refine applyDeltas ?_ ?_ (VoteTable.counted_of_deltas moved) rfl deltas
    · exact wf
    · exact unsynced

theorem selectHead (candid : Candid excuse fc) : Candid excuse fc.selectHead.state := by
  obtain ⟨head, state⟩ := fc.selectHead_state
  rw [state]
  exact fun synced => (candid synced).imp_left fun upToDate => { upToDate with }

theorem updateHead (candid : Candid excuse fc) (wf : fc.tree.WellFormed) :
    Candid excuse fc.updateHead.state := by
  rw [ForkChoice.updateHead]
  split
  · exact candid.selectHead
  · rename_i unsynced
    have done : Candid excuse fc.reweigh.state := .reweigh wf (Bool.eq_false_iff.mpr unsynced)
    exact Outcome.state_bind (P := Candid excuse) done fun _ _ => done.selectHead

theorem after (candid : Candid excuse fc) (wf : fc.tree.WellFormed) (call : Call)
    (broken : fc.synced = true → fc.BreaksOff call → excuse) :
    Candid excuse (fc.after call) := by
  cases call with
  | block block state arrival engine =>
    rw [ForkChoice.after]
    rcases fc.onBlock_cases block state arrival engine with refused | ⟨admission, -, -, imported⟩
    · rwa [refused]
    · rw [imported]
      intro synced
      contradiction
  | attestation attestation fromBlock => exact candid.onAttestation attestation fromBlock
  | message validator epoch root => exact candid.castVote validator epoch root
  | head => exact candid.updateHead wf
  | time slot => exact candid.updateTime slot
  | tick slot => exact candid.onTick slot
  | prune finalized => exact candid.prune wf finalized
  | setPruneThreshold threshold =>
    exact fun synced => (candid synced).imp_left fun upToDate => { upToDate with }
  | validPayload root => exact candid.onValidPayload root
  | invalidPayload root =>
    exact candid.onInvalidPayload wf fun synced misjudged => broken synced ⟨root, rfl, misjudged⟩

end Candid

def sinceSynced (history : List (Event ForkChoice Call)) : List (Event ForkChoice Call) :=
  history.takeWhile (·.before.synced)

/-- A rejection has broken off since the weights were last brought up to date. -/
def Unsettled (history : List (Event ForkChoice Call)) : Prop :=
  ∃ event ∈ sinceSynced history, event.before.BreaksOff event.call

/-- A call in a state that is out of sync has no part in what has happened since. -/
theorem candid_after (candid : Candid (Unsettled history) fc) (wf : fc.tree.WellFormed)
    (call : Call) : Candid (Unsettled (⟨fc, call⟩ :: history)) (fc.after call) := by
  cases synced : fc.synced with
  | false =>
    have vacuous : Candid (Unsettled (⟨fc, call⟩ :: history)) fc := fun now =>
      absurd (synced.symm.trans now) Bool.false_ne_true
    exact vacuous.after wf call fun now => absurd (synced.symm.trans now) Bool.false_ne_true
  | true =>
    have since : sinceSynced (⟨fc, call⟩ :: history) = ⟨fc, call⟩ :: sinceSynced history := by
      simp only [sinceSynced, List.takeWhile_cons, synced, if_true]
    have still : Candid (Unsettled (⟨fc, call⟩ :: history)) fc := candid.mono <| by
      rintro ⟨event, member, broken⟩
      exact ⟨event, since ▸ List.mem_cons_of_mem _ member, broken⟩
    exact still.after wf call fun _ broken => ⟨_, since ▸ List.mem_cons_self, broken⟩

section
variable {preset : Preset} {config : ChainConfig} {settings : NodeSettings} {anchor : Block}
  {balances : Balances}

theorem candid_of_run (started : start preset config settings anchor slot balances = .ok fc)
    (run : Run after (fun _ _ _ => True) fc history fc') :
    fc'.tree.WellFormed ∧ Candid (Unsettled history) fc' := by
  let P (history : List (Event ForkChoice Call)) (fc : ForkChoice) : Prop :=
    fc.tree.WellFormed ∧ Candid (Unsettled history) fc
  have initial : P [] fc := by
    obtain ⟨head, _, -, state⟩ := start_ok started
    have wf := wellFormed_anchored preset config settings anchor slot balances head
    have unsynced : Candid (Unsettled [])
        (anchored preset config settings anchor slot balances head) := nofun
    rw [state]
    generalize anchored preset config settings anchor slot balances head = fc at wf unsynced
    exact ⟨wellFormed_after wf .head, unsynced.updateHead wf⟩
  refine Run.invariant (P := P) initial ?_ run
  rintro history fc call ⟨wf, candid⟩ -
  exact ⟨wellFormed_after wf call, candid_after candid wf call⟩

end

end LmdGhost.ForkChoice
