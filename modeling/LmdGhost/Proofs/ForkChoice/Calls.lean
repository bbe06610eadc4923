import LmdGhost.ForkChoice.Maintenance
import LmdGhost.ForkChoice.Snapshot
import LmdGhost.ForkChoice.Time
import LmdGhost.Proofs.BlockTree.Calls
import LmdGhost.Proofs.ForkChoice.Import
/-!
The calls of fork choice and what each of them may change. Votes and the queue are apart from the
store and the tree: attestations and messages change the first, ticks and blocks the second, and a
new head changes neither but weights and links.
-/

namespace LmdGhost.ForkChoice

inductive Call where
  | block (block : BeaconBlock) (state : PostState) (arrival : Arrival) (engine : ExecutionEngine)
  | attestation (attestation : Attestation) (fromBlock : Bool)
  | message (validator : ValidatorIndex) (epoch : Epoch) (root : Root)
  | head
  | time (slot : Slot)
  | tick (slot : Slot)
  | prune (finalized : Root)
  | setPruneThreshold (threshold : UInt64)
  | validPayload (root : Root)
  | invalidPayload (root : Root)

def after (fc : ForkChoice) : Call → ForkChoice
  | .block block state arrival engine => (fc.onBlock block state arrival engine).state
  | .attestation attestation fromBlock => (fc.onAttestation attestation fromBlock).state
  | .message validator epoch root => (fc.castVote validator epoch root).state
  | .head => fc.updateHead.state
  | .time slot => (fc.updateTime slot).state
  | .tick slot => (fc.onTick slot).state
  | .prune finalized => (fc.prune finalized).state
  | .setPruneThreshold threshold => fc.setPruneThreshold threshold
  | .validPayload root => (fc.onValidPayload root).state
  | .invalidPayload root => (fc.onInvalidPayload root).state

variable {fc fc' : ForkChoice} {root : Root} {slot : Slot}

structure SameChain (fc fc' : ForkChoice) : Prop where
  preset : fc'.preset = fc.preset
  store : fc'.store = fc.store
  tree : fc'.tree = fc.tree

/-- What a call leaves behind that only takes note of votes. -/
def Noted (fc fc' : ForkChoice) : Prop :=
  ∃ votes queue validated synced, fc' = { fc with votes, queue, validated, synced }

namespace Noted

theorem refl (fc : ForkChoice) : Noted fc fc :=
  ⟨_, _, _, _, rfl⟩

theorem trans {fc'' : ForkChoice} (left : Noted fc fc') (right : Noted fc' fc'') :
    Noted fc fc'' := by
  obtain ⟨_, _, _, _, rfl⟩ := left
  obtain ⟨_, _, _, _, rfl⟩ := right
  exact ⟨_, _, _, _, rfl⟩

theorem sameChain (noted : Noted fc fc') : SameChain fc fc' := by
  obtain ⟨_, _, _, _, rfl⟩ := noted
  exact ⟨rfl, rfl, rfl⟩

end Noted

def Voted (fc fc' : ForkChoice) : Prop :=
  ∃ votes synced, fc' = { fc with votes, synced }

namespace Voted

theorem refl (fc : ForkChoice) : Voted fc fc :=
  ⟨_, _, rfl⟩

theorem trans {fc'' : ForkChoice} (left : Voted fc fc') (right : Voted fc' fc'') :
    Voted fc fc'' := by
  obtain ⟨_, _, rfl⟩ := left
  obtain ⟨_, _, rfl⟩ := right
  exact ⟨_, _, rfl⟩

theorem noted (voted : Voted fc fc') : Noted fc fc' := by
  obtain ⟨_, _, rfl⟩ := voted
  exact ⟨_, _, _, _, rfl⟩

theorem store (voted : Voted fc fc') : fc'.store = fc.store :=
  voted.noted.sameChain.store

theorem queue (voted : Voted fc fc') : fc'.queue = fc.queue := by
  obtain ⟨_, _, rfl⟩ := voted
  rfl

theorem boostRoot (voted : Voted fc fc') : fc'.boostRoot = fc.boostRoot := by
  obtain ⟨_, _, rfl⟩ := voted
  rfl

theorem validated (voted : Voted fc fc') : fc'.validated = fc.validated := by
  obtain ⟨_, _, rfl⟩ := voted
  rfl

end Voted

theorem castVote_voted (fc : ForkChoice) (validator : ValidatorIndex) (epoch : Epoch)
    (root : Root) : Voted fc (fc.castVote validator epoch root).state := by
  rw [castVote]
  cases fc.votes.record validator root epoch with
  | error cause => exact .refl fc
  | ok recorded => exact ⟨_, _, rfl⟩

theorem castVotes_voted (epoch : Epoch) (root : Root) (validators : List ValidatorIndex)
    (fc : ForkChoice) : Voted fc (castVotes epoch root validators fc).state := by
  induction validators generalizing fc with
  | nil => exact .refl fc
  | cons validator validators ih =>
    rw [castVotes]
    have cast := castVote_voted fc validator epoch root
    exact Outcome.state_bind (P := Voted fc) cast fun _ _ => cast.trans (ih _)

theorem countQueued_voted (attestations : List QueuedAttestation) (fc : ForkChoice) :
    Voted fc (countQueued attestations fc).state := by
  induction attestations generalizing fc with
  | nil => exact .refl fc
  | cons attestation attestations ih =>
    rw [countQueued]
    have cast := castVotes_voted attestation.targetEpoch attestation.head
      attestation.validators fc
    exact Outcome.state_bind (P := Voted fc) cast fun _ _ => cast.trans (ih _)

theorem castVote_noted (fc : ForkChoice) (validator : ValidatorIndex) (epoch : Epoch)
    (root : Root) : Noted fc (fc.castVote validator epoch root).state :=
  (castVote_voted fc validator epoch root).noted

theorem castVotes_noted (epoch : Epoch) (root : Root) (validators : List ValidatorIndex)
    (fc : ForkChoice) : Noted fc (castVotes epoch root validators fc).state :=
  (castVotes_voted epoch root validators fc).noted

theorem countQueued_noted (attestations : List QueuedAttestation) (fc : ForkChoice) :
    Noted fc (countQueued attestations fc).state :=
  (countQueued_voted attestations fc).noted

theorem checkVote_eq_ok {data : AttestationData} : fc.checkVote data = .ok () ↔
    fc.tree.contains data.target.root = true ∧ ∃ head, fc.tree.node? data.head = some head ∧
      fc.expectedTarget data head = data.target.root ∧ head.slot ≤ data.slot := by
  rw [checkVote]
  cases known : fc.tree.contains data.target.root with
  | false => simp
  | true =>
    cases found : fc.tree.node? data.head with
    | none => simp
    | some head =>
      by_cases aimed : fc.expectedTarget data head = data.target.root
      · simp [aimed]
      · simp [aimed]

theorem checkData_eq_ok {data : AttestationData} {fromBlock : Bool} :
    fc.checkData data fromBlock = .ok () ↔
      fc.checkTargetEpoch data fromBlock = .ok () ∧ fc.checkVote data = .ok () := by
  rw [checkData, except_bind_eq_ok]
  constructor
  · rintro ⟨_, timely, voted⟩
    exact ⟨timely, voted⟩
  · rintro ⟨timely, voted⟩
    exact ⟨(), timely, voted⟩

/-- An attestation that passes was found valid before, or it is now, and its data is remembered. -/
theorem examine_ok {attestation : Attestation} {fromBlock : Bool}
    (ok : fc.examine attestation fromBlock = .ok fc') :
    (fc' = fc ∧ attestation.data ∈ fc.validated) ∨
    (fc' = { fc with validated := attestation.data :: fc.validated } ∧
      fc.checkData attestation.data fromBlock = .ok ()) := by
  rw [examine] at ok
  split at ok
  · contradiction
  · split at ok
    · rename_i found
      cases ok
      exact .inl ⟨rfl, List.contains_iff_mem.mp found⟩
    · cases checked : fc.checkData attestation.data fromBlock with
      | error cause =>
        simp only [checked] at ok
        contradiction
      | ok _ =>
        simp only [checked] at ok
        cases ok
        exact .inr ⟨rfl, rfl⟩

/--
An attestation is passed over or refused, or it is examined and then refused, counted or queued.
-/
theorem onAttestation_cases (fc : ForkChoice) (attestation : Attestation) (fromBlock : Bool) :
    (fc.onAttestation attestation fromBlock).state = fc ∨
    ∃ examined, fc.examine attestation fromBlock = .ok examined ∧
      ((fc.onAttestation attestation fromBlock).state = examined ∨
        (fc.onAttestation attestation fromBlock).state =
          (castVotes attestation.data.target.epoch attestation.data.head attestation.validators
            examined).state ∨
        (fc.onAttestation attestation fromBlock).state =
          { examined with queue := examined.queue ++ [{
              slot := attestation.data.slot
              validators := attestation.validators
              head := attestation.data.head
              targetEpoch := attestation.data.target.epoch }] }) := by
  rw [onAttestation]
  dsimp only
  split
  · exact .inl rfl
  · cases passed : fc.examine attestation fromBlock with
    | error cause => exact .inl rfl
    | ok examined =>
      refine .inr ⟨examined, rfl, ?_⟩
      dsimp only
      split
      · exact .inl rfl
      · split
        · exact .inr (.inl rfl)
        · exact .inr (.inr rfl)

theorem examine_noted {attestation : Attestation} {fromBlock : Bool}
    (ok : fc.examine attestation fromBlock = .ok fc') : Noted fc fc' := by
  rcases examine_ok ok with ⟨rfl, -⟩ | ⟨rfl, -⟩
  · exact .refl _
  · exact ⟨_, _, _, _, rfl⟩

theorem onAttestation_noted (fc : ForkChoice) (attestation : Attestation) (fromBlock : Bool) :
    Noted fc (fc.onAttestation attestation fromBlock).state := by
  rcases fc.onAttestation_cases attestation fromBlock with
    same | ⟨examined, passed, same | same | same⟩
  · rw [same]
    exact .refl fc
  · rw [same]
    exact examine_noted passed
  · rw [same]
    exact (examine_noted passed).trans (castVotes_noted _ _ _ _)
  · rw [same]
    exact (examine_noted passed).trans ⟨_, _, _, _, rfl⟩

theorem processQueue_noted (fc : ForkChoice) : Noted fc fc.processQueue.state := by
  have taken (queue : List QueuedAttestation) : Noted fc { fc with queue } :=
    ⟨_, _, _, _, rfl⟩
  exact (taken _).trans (countQueued_noted _ _)

/-- The state at a slot, where the boost has ended. -/
def atSlot (fc : ForkChoice) (slot : Slot) : ForkChoice :=
  { fc with
    store := fc.store.setSlot slot
    boostRoot := none
    synced := fc.synced && fc.boostRoot.isNone }

/-- A tick is refused, or the slot is set, and the best checkpoint may be adopted. -/
theorem onTick_cases (fc : ForkChoice) (slot : Slot) :
    (fc.onTick slot).state = fc ∨ (fc.onTick slot).state = fc.atSlot slot ∨
      (fc.onTick slot).state = (fc.atSlot slot).adoptBestJustified.state := by
  rw [onTick]
  dsimp only
  split
  · exact .inl rfl
  · split
    · exact .inr (.inr rfl)
    · exact .inr (.inl rfl)

/--
The best justified checkpoint is adopted only if it is ahead and its chain has the finalized block.
-/
theorem adoptBestJustified_cases (fc : ForkChoice) :
    fc.adoptBestJustified.state = fc ∨
    (fc.store.justified.epoch < fc.store.bestJustified.epoch ∧
      fc.tree.ancestor fc.store.bestJustified.root fc.finalizedSlot =
        .ok (some fc.store.finalized.root) ∧
      fc.adoptBestJustified.state = { fc with
        store := { fc.store with
          justified := fc.store.bestJustified
          justifiedBalances := fc.store.bestJustifiedBalances }
        synced := false }) := by
  rw [adoptBestJustified, ForkChoice.ancestor]
  split
  · exact .inl rfl
  · rename_i ahead
    cases found : fc.tree.ancestor fc.store.bestJustified.root fc.finalizedSlot with
    | error cause => exact .inl rfl
    | ok ancestor =>
      simp only [Outcome.mapError_ok]
      split
      · rename_i named
        exact .inr ⟨UInt64.not_le.mp ahead, by rw [named], rfl⟩
      · exact .inl rfl

/-- What ticks and counting keep holds after an update of time. -/
theorem updateTime_invariant {P : ForkChoice → Prop} (initial : P fc)
    (ticked : ∀ {fc} slot, P fc → P (fc.onTick slot).state)
    (counted : ∀ {fc}, P fc → P fc.processQueue.state)
    (forgotten : ∀ {fc}, P fc → P { fc with validated := [] }) (slot : Slot) :
    P (fc.updateTime slot).state := by
  have advanced : ∀ count, P (fc.advanceTime count).state := by
    intro count
    induction count with
    | zero => exact initial
    | succ count ih =>
      have step : P ((fc.advanceTime count).bind fun fc _ => fc.onTick (fc.store.slot + 1)).state :=
        Outcome.state_bind (P := P) ih fun _ _ => ticked _ ih
      exact step
  refine Outcome.state_bind (P := P) (advanced _) fun _ _ => ?_
  apply Outcome.state_bind (P := P) (counted (advanced _))
  intro _ _
  exact forgotten (counted (advanced _))

theorem onTick_tree (fc : ForkChoice) (slot : Slot) : (fc.onTick slot).state.tree = fc.tree := by
  rcases fc.onTick_cases slot with same | same | same <;> rw [same]
  · rfl
  · rcases (fc.atSlot slot).adoptBestJustified_cases with same | ⟨-, -, same⟩ <;> rw [same] <;> rfl

theorem updateTime_tree (fc : ForkChoice) (slot : Slot) :
    (fc.updateTime slot).state.tree = fc.tree := by
  let P (fc' : ForkChoice) : Prop := fc'.tree = fc.tree
  apply updateTime_invariant (P := P) rfl
  · intro fc' slot same
    exact (fc'.onTick_tree slot).trans same
  · intro fc' same
    exact (processQueue_noted fc').sameChain.tree.trans same
  · intro fc' same
    exact same

def withVotes (fc : ForkChoice) (votes : VoteTable) : ForkChoice :=
  { fc with votes, appliedBalances := fc.store.justifiedBalances }

def scoreChange (fc : ForkChoice) (deltas : List Delta) : BlockTree.ScoreChange where
  deltas
  boost := fc.boost?
  justifiedEpoch := fc.store.justified.epoch
  finalizedEpoch := fc.store.finalized.epoch

def applyDeltas (fc : ForkChoice) (deltas : List Delta) : Outcome ForkChoice Error Unit :=
  ((fc.tree.applyScores (fc.scoreChange deltas)).lift (fun tree => { fc with tree }) .tree).bind
    fun fc _ => .done { fc with synced := true } ()

theorem reweigh_eq (fc : ForkChoice) : fc.reweigh =
    ((fc.votes.deltas fc.tree.index fc.appliedBalances fc.store.justifiedBalances).lift
      (fun votes => { fc with votes }) .tree).bind fun fc deltas =>
        (fc.withVotes fc.votes).applyDeltas deltas :=
  rfl

theorem applyDeltas_cases (fc : ForkChoice) (deltas : List Delta) :
    let scored := fc.tree.applyScores (fc.scoreChange deltas)
    (∃ cause, scored.result = .error cause ∧ (fc.applyDeltas deltas).result = .error (.tree cause) ∧
      (fc.applyDeltas deltas).state = { fc with tree := scored.state }) ∨
    (scored.result = .ok () ∧ (fc.applyDeltas deltas).result = .ok () ∧
      (fc.applyDeltas deltas).state = { fc with tree := scored.state, synced := true }) := by
  rw [applyDeltas]
  generalize fc.tree.applyScores (fc.scoreChange deltas) = scored
  have lifted := Outcome.result_lift (fun tree => { fc with tree }) Error.tree scored
  cases result : scored.result with
  | error cause =>
    rw [result] at lifted
    exact .inl ⟨cause, result, Outcome.result_bind_of_error _ lifted,
      Outcome.state_bind_of_error _ lifted⟩
  | ok _ =>
    rw [result] at lifted
    exact .inr ⟨result, Outcome.result_bind_of_ok _ lifted, Outcome.state_bind_of_ok _ lifted⟩

theorem reweigh_cases (fc : ForkChoice) :
    let moved := fc.votes.deltas fc.tree.index fc.appliedBalances fc.store.justifiedBalances
    (∃ cause, moved.result = .error cause ∧ fc.reweigh.result = .error (.tree cause) ∧
      fc.reweigh.state = { fc with votes := moved.state }) ∨
    ∃ deltas, moved.result = .ok deltas ∧
      fc.reweigh.result = ((fc.withVotes moved.state).applyDeltas deltas).result ∧
      fc.reweigh.state = ((fc.withVotes moved.state).applyDeltas deltas).state := by
  rw [reweigh_eq]
  generalize fc.votes.deltas fc.tree.index fc.appliedBalances fc.store.justifiedBalances = moved
  have lifted := Outcome.result_lift (fun votes => { fc with votes }) Error.tree moved
  cases result : moved.result with
  | error cause =>
    rw [result] at lifted
    exact .inl ⟨cause, result, Outcome.result_bind_of_error _ lifted,
      Outcome.state_bind_of_error _ lifted⟩
  | ok deltas =>
    rw [result] at lifted
    exact .inr ⟨deltas, result, Outcome.result_bind_of_ok _ lifted,
      Outcome.state_bind_of_ok _ lifted⟩

/-- New weights keep the store and change the tree by new scores, if at all. -/
theorem reweigh_chain (fc : ForkChoice) :
    fc.reweigh.state.preset = fc.preset ∧ fc.reweigh.state.store = fc.store ∧
      (fc.reweigh.state.tree = fc.tree ∨
        ∃ change, fc.reweigh.state.tree = (fc.tree.applyScores change).state) := by
  rcases fc.reweigh_cases with ⟨_, -, -, state⟩ | ⟨deltas, -, -, state⟩
  · rw [state]
    exact ⟨rfl, rfl, .inl rfl⟩
  · rw [state]
    rcases applyDeltas_cases (fc.withVotes _) deltas with ⟨_, -, -, state⟩ | ⟨-, -, state⟩
    · rw [state]
      exact ⟨rfl, rfl, .inr ⟨_, rfl⟩⟩
    · rw [state]
      exact ⟨rfl, rfl, .inr ⟨_, rfl⟩⟩

theorem selectHead_state (fc : ForkChoice) : ∃ head, fc.selectHead.state = { fc with head } := by
  rw [selectHead]
  split
  · exact ⟨fc.head, rfl⟩
  · rename_i head _
    exact ⟨head, rfl⟩

theorem updateHead_tree (fc : ForkChoice) : fc.updateHead.state.tree = fc.tree ∨
    ∃ change, fc.updateHead.state.tree = (fc.tree.applyScores change).state := by
  have selected (fc : ForkChoice) : fc.selectHead.state.tree = fc.tree := by
    obtain ⟨head, state⟩ := fc.selectHead_state
    rw [state]
  rw [updateHead]
  split
  · exact .inl (selected fc)
  · have tree : (fc.reweigh.bind fun fc _ => fc.selectHead).state.tree = fc.reweigh.state.tree := by
      let P (fc' : ForkChoice) : Prop := fc'.tree = fc.reweigh.state.tree
      exact Outcome.state_bind (P := P) rfl fun _ _ => selected _
    rw [tree]
    exact fc.reweigh_chain.2.2

/-- What an update of the head leaves behind: moved votes, other weights and links, another head. -/
def Rehead (fc fc' : ForkChoice) : Prop :=
  ∃ votes tree appliedBalances synced head,
    fc' = { fc with votes, tree, appliedBalances, synced, head }

theorem reweigh_rehead (fc : ForkChoice) : Rehead fc fc.reweigh.state := by
  rcases fc.reweigh_cases with ⟨_, -, -, state⟩ | ⟨deltas, -, -, state⟩
  · rw [state]
    exact ⟨_, _, _, _, _, rfl⟩
  · rw [state]
    rcases applyDeltas_cases (fc.withVotes _) deltas with ⟨_, -, -, state⟩ | ⟨-, -, state⟩ <;>
      rw [state] <;> exact ⟨_, _, _, _, _, rfl⟩

theorem updateHead_rehead (fc : ForkChoice) : Rehead fc fc.updateHead.state := by
  have selected {fc' : ForkChoice} (rehead : Rehead fc fc') : Rehead fc fc'.selectHead.state := by
    obtain ⟨head, state⟩ := fc'.selectHead_state
    obtain ⟨_, _, _, _, _, rfl⟩ := rehead
    rw [state]
    exact ⟨_, _, _, _, _, rfl⟩
  rw [updateHead]
  split
  · exact selected ⟨_, _, _, _, _, rfl⟩
  · have done := fc.reweigh_rehead
    exact Outcome.state_bind (P := Rehead fc) done fun _ _ => selected done

/-- The call of the tree that a call of fork choice comes to, if it changes the tree at all. -/
inductive Induces (fc : ForkChoice) : Call → BlockTree.Call → Prop where
  | block {block : BeaconBlock} {state : PostState} {arrival : Arrival} {engine : ExecutionEngine}
      {entry : Block} : (fc.onBlock block state arrival engine).result = .ok entry →
      Induces fc (.block block state arrival engine) (.insert entry)
  | head (change : BlockTree.ScoreChange) : Induces fc .head (.applyScores change)
  | prune (finalized : Root) : Induces fc (.prune finalized) (.prune finalized)
  | setPruneThreshold (threshold : UInt64) :
      Induces fc (.setPruneThreshold threshold) (.setPruneThreshold threshold)
  | validPayload (root : Root) : Induces fc (.validPayload root) (.confirm root)
  | invalidPayload (root : Root) : Induces fc (.invalidPayload root) (.reject root)

theorem tree_after (fc : ForkChoice) (call : Call) : (fc.after call).tree = fc.tree ∨
    ∃ induced, Induces fc call induced ∧ (fc.after call).tree = fc.tree.after induced := by
  cases call with
  | block block state arrival engine =>
    rw [after]
    rcases fc.onBlock_cases block state arrival engine with
      refused | ⟨admission, -, accepted, imported⟩
    · rw [refused]
      exact .inl rfl
    · rw [imported]
      exact .inr ⟨_, .block accepted, rfl⟩
  | attestation attestation fromBlock =>
    exact .inl (onAttestation_noted fc attestation fromBlock).sameChain.tree
  | message validator epoch root =>
    exact .inl (castVote_noted fc validator epoch root).sameChain.tree
  | head => exact fc.updateHead_tree.imp_right fun ⟨change, tree⟩ => ⟨_, .head change, tree⟩
  | time slot => exact .inl (fc.updateTime_tree slot)
  | tick slot => exact .inl (fc.onTick_tree slot)
  | prune finalized => exact .inr ⟨_, .prune finalized, rfl⟩
  | setPruneThreshold threshold => exact .inr ⟨_, .setPruneThreshold threshold, rfl⟩
  | validPayload root => exact .inr ⟨_, .validPayload root, rfl⟩
  | invalidPayload root =>
    let P (fc' : ForkChoice) : Prop := fc'.tree = fc.tree.after (.reject root)
    have tree : P (fc.onInvalidPayload root).state :=
      Outcome.state_bind (P := P) rfl fun _ _ => rfl
    exact .inr ⟨_, .invalidPayload root, tree⟩

theorem wellFormed_after (wf : fc.tree.WellFormed) (call : Call) :
    (fc.after call).tree.WellFormed := by
  rcases fc.tree_after call with same | ⟨induced, -, tree⟩
  · rwa [same]
  · rw [tree]
    exact wf.after induced

/-- What holds of all blocks whatever their verdicts is kept by every call that enters no other. -/
theorem forall_blocks_after {P : Block → Prop} {call : Call}
    (blind : ∀ block status, P block → P { block with status })
    (all : ∀ node ∈ fc.tree.nodes, P node.toBlock) (wf : fc.tree.WellFormed)
    (enters : ∀ entered, Induces fc call (.insert entered) → P entered) :
    ∀ node ∈ (fc.after call).tree.nodes, P node.toBlock := by
  rcases fc.tree_after call with same | ⟨induced, induces, tree⟩
  · rwa [same]
  · rw [tree]
    apply BlockTree.forall_blocks_after blind all wf
    rintro entered rfl
    exact enters entered induces

structure SameSetup (fc fc' : ForkChoice) : Prop where
  preset : fc'.preset = fc.preset
  config : fc'.config = fc.config
  settings : fc'.settings = fc.settings

namespace SameSetup

theorem refl (fc : ForkChoice) : SameSetup fc fc :=
  ⟨rfl, rfl, rfl⟩

theorem trans {fc'' : ForkChoice} (left : SameSetup fc fc') (right : SameSetup fc' fc'') :
    SameSetup fc fc'' :=
  ⟨right.preset.trans left.preset, right.config.trans left.config,
    right.settings.trans left.settings⟩

theorem of_noted (noted : Noted fc fc') : SameSetup fc fc' := by
  obtain ⟨_, _, _, _, rfl⟩ := noted
  exact ⟨rfl, rfl, rfl⟩

theorem onTick (fc : ForkChoice) (slot : Slot) : SameSetup fc (fc.onTick slot).state := by
  rcases fc.onTick_cases slot with same | same | same <;> rw [same]
  · exact .refl fc
  · exact ⟨rfl, rfl, rfl⟩
  · rcases (fc.atSlot slot).adoptBestJustified_cases with same | ⟨-, -, same⟩ <;> rw [same] <;>
      exact ⟨rfl, rfl, rfl⟩

theorem updateTime (fc : ForkChoice) (slot : Slot) : SameSetup fc (fc.updateTime slot).state :=
  updateTime_invariant (P := SameSetup fc) (.refl fc) (fun slot same => same.trans (onTick _ slot))
    (fun same => same.trans (of_noted (processQueue_noted _))) (fun same => { same with }) slot

theorem reweigh (fc : ForkChoice) : SameSetup fc fc.reweigh.state := by
  rcases fc.reweigh_cases with ⟨_, -, -, state⟩ | ⟨deltas, -, -, state⟩ <;> rw [state]
  · exact ⟨rfl, rfl, rfl⟩
  · rcases applyDeltas_cases (fc.withVotes _) deltas with ⟨_, -, -, state⟩ | ⟨-, -, state⟩ <;>
      rw [state] <;> exact ⟨rfl, rfl, rfl⟩

theorem selectHead (fc : ForkChoice) : SameSetup fc fc.selectHead.state := by
  obtain ⟨head, state⟩ := fc.selectHead_state
  rw [state]
  exact ⟨rfl, rfl, rfl⟩

theorem updateHead (fc : ForkChoice) : SameSetup fc fc.updateHead.state := by
  rw [ForkChoice.updateHead]
  split
  · exact selectHead fc
  · exact Outcome.state_bind (P := SameSetup fc) (reweigh fc) fun _ _ =>
      (reweigh fc).trans (selectHead _)

theorem after (fc : ForkChoice) (call : Call) : SameSetup fc (fc.after call) := by
  cases call with
  | block block state arrival engine =>
    rw [ForkChoice.after]
    rcases fc.onBlock_cases block state arrival engine with same | ⟨_, -, -, same⟩ <;> rw [same]
    · exact .refl fc
    · exact ⟨rfl, rfl, rfl⟩
  | attestation attestation fromBlock => exact of_noted (onAttestation_noted fc _ _)
  | message validator epoch root => exact of_noted (castVote_noted fc _ _ _)
  | head => exact updateHead fc
  | time slot => exact updateTime fc slot
  | tick slot => exact onTick fc slot
  | prune | setPruneThreshold | validPayload => exact ⟨rfl, rfl, rfl⟩
  | invalidPayload root =>
    exact Outcome.state_bind (P := SameSetup fc) ⟨rfl, rfl, rfl⟩ fun _ _ => ⟨rfl, rfl, rfl⟩

end SameSetup

/-- The state of a snapshot before its head is computed. -/
def outdated (preset : Preset) (config : ChainConfig) (settings : NodeSettings)
    (snapshot : Snapshot) (head : Node) : ForkChoice where
  preset
  config
  settings
  head
  store := snapshot.store
  tree := snapshot.tree
  votes := snapshot.votes
  queue := snapshot.queue
  validated := []
  boostRoot := snapshot.boostRoot
  appliedBalances := snapshot.appliedBalances
  synced := false

/-- The state at an anchor before its head is computed. -/
def anchored (preset : Preset) (config : ChainConfig) (settings : NodeSettings) (anchor : Block)
    (slot : Slot) (balances : Balances) (head : Node) : ForkChoice :=
  outdated preset config settings (.ofAnchor preset settings anchor slot balances) head

theorem anchored_tree_eq (preset : Preset) (config : ChainConfig) (settings : NodeSettings)
    (anchor : Block) (slot : Slot) (balances : Balances) (head : Node) :
    (anchored preset config settings anchor slot balances head).tree =
      (BlockTree.empty settings.pruneThreshold (preset.epochOf anchor.slot)
        (preset.epochOf anchor.slot)).insert { anchor with
          justified := ⟨preset.epochOf anchor.slot, anchor.root⟩
          finalized := ⟨preset.epochOf anchor.slot, anchor.root⟩ } :=
  rfl

theorem anchored_tree (preset : Preset) (config : ChainConfig) (settings : NodeSettings)
    (anchor : Block) (slot : Slot) (balances : Balances) (head : Node) :
    ∃ block, (anchored preset config settings anchor slot balances head).tree =
        (BlockTree.empty settings.pruneThreshold (preset.epochOf anchor.slot)
          (preset.epochOf anchor.slot)).insert block ∧
      block.root = anchor.root :=
  ⟨_, anchored_tree_eq preset config settings anchor slot balances head, rfl⟩

variable {preset : Preset} {config : ChainConfig} {settings : NodeSettings}

theorem anchored_contains_iff {anchor : Block} {balances : Balances} {head : Node} :
    (anchored preset config settings anchor slot balances head).tree.contains root = true ↔
      root = anchor.root := by
  obtain ⟨block, tree, named⟩ := anchored_tree preset config settings anchor slot balances head
  simp [tree, BlockTree.contains_insert_iff, BlockTree.contains_empty, named]

theorem wellFormed_anchored (preset : Preset) (config : ChainConfig) (settings : NodeSettings)
    (anchor : Block) (slot : Slot) (balances : Balances) (head : Node) :
    (anchored preset config settings anchor slot balances head).tree.WellFormed := by
  obtain ⟨block, tree, -⟩ := anchored_tree preset config settings anchor slot balances head
  rw [tree]
  exact (BlockTree.empty_wellFormed _ _ _).insert block

theorem resume_ok {snapshot : Snapshot} {log : List Notice}
    (resumed : resume preset config settings snapshot = .ok (fc, log)) :
    ∃ head found, (outdated preset config settings snapshot head).updateHead.result = .ok found ∧
      fc = (outdated preset config settings snapshot head).updateHead.state := by
  obtain ⟨_, -, resumed⟩ := except_bind_eq_ok.mp resumed
  split at resumed
  · contradiction
  · rename_i head _
    refine ⟨head, ?_⟩
    dsimp only at resumed
    split at resumed
    · contradiction
    · rename_i found ok
      cases resumed
      exact ⟨found, ok, rfl⟩

/-- Resuming fails for the configuration, for a missing justified block or where the head does. -/
theorem resume_error {snapshot : Snapshot} {cause : Error}
    (failed : resume preset config settings snapshot = .error cause) :
    (∃ fault, cause = .config fault) ∨ cause = .missingBlock snapshot.justified.root ∨
      ∃ head, (outdated preset config settings snapshot head).updateHead.result =
        .error cause := by
  rw [resume] at failed
  cases valid : config.validate with
  | error fault =>
    rw [valid] at failed
    cases failed
    exact .inl ⟨fault, rfl⟩
  | ok _ =>
    rw [valid] at failed
    right
    cases found : snapshot.tree.node? snapshot.justified.root with
    | none =>
      simp only [found] at failed
      cases failed
      exact .inl rfl
    | some head =>
      refine .inr ⟨head, ?_⟩
      simp only [found, Outcome.mapError_ok, bind, Except.bind] at failed
      rw [outdated]
      split at failed
      · rename_i updated
        cases failed
        exact updated
      · contradiction

theorem start_ok {anchor : Block} {balances : Balances}
    (started : start preset config settings anchor slot balances = .ok fc) :
    ∃ head found,
      (anchored preset config settings anchor slot balances head).updateHead.result = .ok found ∧
        fc = (anchored preset config settings anchor slot balances head).updateHead.state := by
  simp only [anchored]
  rw [start] at started
  generalize Snapshot.ofAnchor preset settings anchor slot balances = snapshot at started
  cases resumed : resume preset config settings snapshot with
  | error cause =>
    rw [resumed] at started
    contradiction
  | ok pair =>
    rw [resumed] at started
    cases started
    exact resume_ok resumed

/-- Fork choice starts at the anchor, with a first look for the head. -/
theorem start_after {anchor : Block} {balances : Balances}
    (started : start preset config settings anchor slot balances = .ok fc) :
    ∃ head, fc = (anchored preset config settings anchor slot balances head).after .head := by
  obtain ⟨head, _, -, state⟩ := start_ok started
  exact ⟨head, state⟩

theorem start_rehead {anchor : Block} {balances : Balances}
    (started : start preset config settings anchor slot balances = .ok fc) :
    ∃ head, Rehead (anchored preset config settings anchor slot balances head) fc := by
  obtain ⟨head, _, -, state⟩ := start_ok started
  rw [state]
  exact ⟨head, updateHead_rehead _⟩

/-- An anchor at slot 0, for runs that are written out. -/
def genesis : Block :=
  { (default : Block) with root := .ofNat 1, status := .valid }

def genesisBalances : Balances :=
  List.replicate 8 100

theorem genesis_starts :
    (start .minimal .minimal .pruneEagerly genesis 0 genesisBalances).toOption.isSome = true := by
  decide +kernel

def atGenesis : ForkChoice :=
  (start .minimal .minimal .pruneEagerly genesis 0 genesisBalances).toOption.get genesis_starts

theorem start_genesis :
    start .minimal .minimal .pruneEagerly genesis 0 genesisBalances = .ok atGenesis :=
  Outcome.eq_ok_get genesis_starts

theorem mainnet_starts :
    (start .mainnet .mainnet .pruneEagerly genesis 0 genesisBalances).toOption.isSome = true := by
  decide +kernel

/-- The same anchor with epochs that are longer than the time in which any block may justify. -/
def atMainnet : ForkChoice :=
  (start .mainnet .mainnet .pruneEagerly genesis 0 genesisBalances).toOption.get mainnet_starts

theorem start_mainnet :
    start .mainnet .mainnet .pruneEagerly genesis 0 genesisBalances = .ok atMainnet :=
  Outcome.eq_ok_get mainnet_starts

def epochBlock (slot : Slot) (root parent : Nat) (justified finalized : Checkpoint) : Call :=
  .block
    { slot, proposer := 0, parent := .ofNat parent, stateRoot := .zero, payload := {} }
    { slot, justified, finalized, genesisTime := 0, blockRootAt := fun _ => none }
    { root := .ofNat root, delay := ⟨0⟩, balances := some genesisBalances, status := .valid }
    .absent

/-- The late arrival of a block at the start of an epoch, without a verdict on its payload. -/
def syncingBlock (slot : Slot) (root parent : Nat) (justified : Checkpoint) : Call :=
  .block
    { slot, proposer := 0, parent := .ofNat parent, stateRoot := .zero, payload := {} }
    { slot, justified, finalized := ⟨0, .ofNat 1⟩, genesisTime := 0, blockRootAt := fun _ => none }
    { root := .ofNat root, delay := .ofSeconds 5, balances := some genesisBalances
      status := .syncing }
    .absent

end LmdGhost.ForkChoice
