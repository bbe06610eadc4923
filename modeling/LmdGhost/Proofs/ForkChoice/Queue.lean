import LmdGhost.Proofs.ForkChoice.Checkpoints
/-!
Attestations between their arrival and the counting of their votes. An attestation that passes all
checks is counted at once or joins the queue. Ticks leave the queue as it is; once they are through,
an update of time takes out what is due and counts it, in the order of arrival. Counting does not
fail as long as no list of balances is as long as there are words, since only known validators pass.
-/

namespace LmdGhost

def Attestation.waiting (attestation : Attestation) : QueuedAttestation where
  slot := attestation.data.slot
  validators := attestation.validators
  head := attestation.data.head
  targetEpoch := attestation.data.target.epoch

namespace ForkChoice

variable {fc fc' : ForkChoice} {attestation : Attestation} {fromBlock : Bool} {epoch : Epoch}
  {root : Root} {slot : Slot} {σ : Type}

/--
The reception of an attestation, where `keep` says what becomes of a state and `count` counts the
votes.
-/
def receive (fc : ForkChoice) (attestation : Attestation) (fromBlock : Bool) (keep : ForkChoice → σ)
    (count : ForkChoice → Outcome σ Error Unit) : Outcome σ Error Unit :=
  if attestation.data.head.isZero then
    .done (keep fc) ()
  else
    match fc.examine attestation fromBlock with
    | .error cause => .fail (keep fc) (.invalidAttestation cause)
    | .ok fc =>
      let known := fc.store.justifiedBalances.length
      match attestation.validators.find? (known ≤ ·.toNat) with
      | some validator => .fail (keep fc) (.invalidAttestation (.unknownValidator validator known))
      | none =>
        if attestation.data.slot < fc.store.slot then count fc
        else .done (keep { fc with queue := fc.queue ++ [attestation.waiting] }) ()

theorem onAttestation_eq (fc : ForkChoice) (attestation : Attestation) (fromBlock : Bool) :
    fc.onAttestation attestation fromBlock = fc.receive attestation fromBlock id
      (castVotes attestation.data.target.epoch attestation.data.head attestation.validators) :=
  rfl

/--
An attestation is passed over or refused, or it is accepted and then counted or queued, depending on
its slot.
-/
inductive Reception (fc : ForkChoice) (attestation : Attestation) (keep : ForkChoice → σ)
    (count : ForkChoice → Outcome σ Error Unit) : Outcome σ Error Unit → Prop where
  | passedOver : attestation.data.head.isZero = true →
      Reception fc attestation keep count (.done (keep fc) ())
  | refused (validated : List AttestationData) (cause : Error) :
      Reception fc attestation keep count (.fail (keep { fc with validated }) cause)
  | counted (validated : List AttestationData) : attestation.data.head.isZero = false →
      (∀ validator ∈ attestation.validators,
        validator.toNat < fc.store.justifiedBalances.length) →
      attestation.data.slot < fc.store.slot →
      Reception fc attestation keep count (count { fc with validated })
  | queued (validated : List AttestationData) : attestation.data.head.isZero = false →
      (∀ validator ∈ attestation.validators,
        validator.toNat < fc.store.justifiedBalances.length) →
      ¬attestation.data.slot < fc.store.slot →
      Reception fc attestation keep count (.done (keep
        { fc with validated, queue := fc.queue ++ [attestation.waiting] }) ())

theorem receive_reception (fc : ForkChoice) (attestation : Attestation) (fromBlock : Bool)
    (keep : ForkChoice → σ) (count : ForkChoice → Outcome σ Error Unit) :
    Reception fc attestation keep count (fc.receive attestation fromBlock keep count) := by
  rw [receive]
  split
  · rename_i zero
    exact .passedOver zero
  · rename_i nonzero
    simp only [Bool.not_eq_true] at nonzero
    cases passed : fc.examine attestation fromBlock with
    | error cause => exact .refused fc.validated _
    | ok examined =>
      obtain ⟨validated, rfl⟩ : ∃ validated, examined = { fc with validated } := by
        rcases examine_ok passed with ⟨rfl, -⟩ | ⟨rfl, -⟩
        · exact ⟨_, rfl⟩
        · exact ⟨_, rfl⟩
      dsimp only
      cases unknown : attestation.validators.find?
          (fc.store.justifiedBalances.length ≤ ·.toNat) with
      | some validator => exact .refused validated _
      | none =>
        have known : ∀ validator ∈ attestation.validators,
            validator.toNat < fc.store.justifiedBalances.length := by
          simpa [List.find?_eq_none] using unknown
        dsimp only
        split
        · rename_i past
          exact .counted validated nonzero known past
        · rename_i pending
          exact .queued validated nonzero known pending

def Ticked (fc fc' : ForkChoice) : Prop :=
  ∃ store boostRoot synced, fc' = { fc with store, boostRoot, synced }

namespace Ticked

theorem refl (fc : ForkChoice) : Ticked fc fc :=
  ⟨_, _, _, rfl⟩

theorem trans {fc'' : ForkChoice} (left : Ticked fc fc') (right : Ticked fc' fc'') :
    Ticked fc fc'' := by
  obtain ⟨_, _, _, rfl⟩ := left
  obtain ⟨_, _, _, rfl⟩ := right
  exact ⟨_, _, _, rfl⟩

theorem preset (ticked : Ticked fc fc') : fc'.preset = fc.preset := by
  obtain ⟨_, _, _, rfl⟩ := ticked
  rfl

theorem queue (ticked : Ticked fc fc') : fc'.queue = fc.queue := by
  obtain ⟨_, _, _, rfl⟩ := ticked
  rfl

end Ticked

theorem onTick_ticked (fc : ForkChoice) (slot : Slot) :
    Ticked fc (fc.onTick slot).state ∧ fc.store.slot ≤ (fc.onTick slot).state.store.slot := by
  rw [onTick]
  dsimp only
  split
  · exact ⟨.refl fc, UInt64.le_refl _⟩
  · rename_i near
    have order := UInt64.not_lt.mp (not_or.mp near).1
    split
    · rcases (fc.atSlot slot).adoptBestJustified_cases with same | ⟨-, -, same⟩
      · exact same ▸ ⟨⟨_, _, _, rfl⟩, order⟩
      · exact same ▸ ⟨⟨_, _, _, rfl⟩, order⟩
    · exact ⟨⟨_, _, _, rfl⟩, order⟩

theorem advanceTime_succ (fc : ForkChoice) (count : Nat) : fc.advanceTime (count + 1) =
    (fc.advanceTime count).bind fun fc _ => fc.onTick (fc.store.slot + 1) :=
  rfl

theorem advanceTime_ticked (fc : ForkChoice) (count : Nat) :
    Ticked fc (fc.advanceTime count).state ∧
      fc.store.slot ≤ (fc.advanceTime count).state.store.slot := by
  induction count with
  | zero => exact ⟨.refl fc, UInt64.le_refl _⟩
  | succ count ih =>
    let P (fc' : ForkChoice) : Prop := Ticked fc fc' ∧ fc.store.slot ≤ fc'.store.slot
    rw [advanceTime_succ]
    refine Outcome.state_bind (P := P) ih fun _ _ => ?_
    obtain ⟨ticked, order⟩ := onTick_ticked (fc.advanceTime count).state
      ((fc.advanceTime count).state.store.slot + 1)
    exact ⟨ih.1.trans ticked, UInt64.le_trans ih.2 order⟩

def ready (fc : ForkChoice) : List QueuedAttestation :=
  fc.queue.filter (·.slot < fc.store.slot)

def taken (fc : ForkChoice) : ForkChoice :=
  { fc with queue := fc.queue.filter (fc.store.slot ≤ ·.slot) }

theorem processQueue_eq (fc : ForkChoice) : fc.processQueue = countQueued fc.ready fc.taken := by
  have late : (fun attestation : QueuedAttestation => decide (fc.store.slot ≤ attestation.slot)) =
      not ∘ fun attestation => decide (attestation.slot < fc.store.slot) := by
    funext attestation
    simp [← UInt64.not_lt]
  rw [processQueue, taken, late, List.partition_eq_filter_filter]
  rfl

def HasPlace (validator : ValidatorIndex) : Prop :=
  validator.toNat + 1 < UInt64.size

theorem castVote_ok {validator : ValidatorIndex} (place : HasPlace validator) :
    (fc.castVote validator epoch root).result = .ok () := by
  rw [castVote]
  cases recorded : fc.votes.record validator root epoch with
  | ok => rfl
  | error cause =>
    simp only [VoteTable.record, Nat.ne_of_lt place, if_false] at recorded
    split at recorded <;> contradiction

theorem castVotes_ok {validators : List ValidatorIndex}
    (places : ∀ validator ∈ validators, HasPlace validator) :
    (castVotes epoch root validators fc).result = .ok () := by
  induction validators generalizing fc with
  | nil => rfl
  | cons validator validators ih =>
    obtain ⟨place, others⟩ := List.forall_mem_cons.mp places
    rw [castVotes, Outcome.result_bind_of_ok _ (castVote_ok place)]
    exact ih others

theorem countQueued_ok {attestations : List QueuedAttestation}
    (places : ∀ attestation ∈ attestations,
      ∀ validator ∈ attestation.validators, HasPlace validator) :
    (countQueued attestations fc).result = .ok () := by
  induction attestations generalizing fc with
  | nil => rfl
  | cons attestation attestations ih =>
    obtain ⟨place, others⟩ := List.forall_mem_cons.mp places
    rw [countQueued, Outcome.result_bind_of_ok _ (castVotes_ok place)]
    exact ih others

theorem processQueue_ok (places : ∀ attestation ∈ fc.queue,
    ∀ validator ∈ attestation.validators, HasPlace validator) :
    fc.processQueue.result = .ok () := by
  rw [processQueue_eq]
  exact countQueued_ok fun attestation member =>
    places attestation (List.mem_of_mem_filter member)

/-- The attestations that wait are counted without fail once they are due. -/
structure Sized (fc : ForkChoice) : Prop where
  justified : fc.store.justifiedBalances.length < UInt64.size
  best : fc.store.bestJustifiedBalances.length < UInt64.size
  queued : ∀ attestation ∈ fc.queue, ∀ validator ∈ attestation.validators, HasPlace validator

/-- Whether the balances that come with a call are shorter than there are words. -/
def Call.IsSized : Call → Prop
  | .block _ _ arrival _ => ∀ balances, arrival.balances = some balances →
      balances.length < UInt64.size
  | _ => True

namespace Sized

theorem place (sized : fc.Sized) {validator : ValidatorIndex}
    (known : validator.toNat < fc.store.justifiedBalances.length) : HasPlace validator :=
  Nat.lt_of_le_of_lt known sized.justified

end Sized

theorem processQueue_voted (fc : ForkChoice) : Voted fc.taken fc.processQueue.state := by
  rw [processQueue_eq]
  exact countQueued_voted fc.ready fc.taken

/-- After an update of time the slots of the attestations that wait have not passed. -/
theorem updateTime_waits {current : Slot} (ok : (fc.updateTime slot).result = .ok current) :
    ∀ attestation ∈ (fc.updateTime slot).state.queue,
      (fc.updateTime slot).state.store.slot ≤ attestation.slot := by
  obtain ⟨_, advanced, ok⟩ := Outcome.bind_eq_ok_iff.mp ok
  obtain ⟨_, counted, -⟩ := Outcome.bind_eq_ok_iff.mp ok
  rw [updateTime, Outcome.state_bind_of_ok _ advanced, Outcome.state_bind_of_ok _ counted]
  intro attestation member
  have voted := processQueue_voted (fc.advanceTime (slot.toNat - fc.store.slot.toNat)).state
  rw [Outcome.state_done, voted.queue] at member
  rw [Outcome.state_done, voted.store]
  exact of_decide_eq_true (List.mem_filter.mp member).2

inductive QueueStep (fc : ForkChoice) : Call → List QueuedAttestation → Prop where
  | same {call : Call} : QueueStep fc call fc.queue
  | joined {attestation : Attestation} {fromBlock : Bool} :
      (∀ validator ∈ attestation.validators,
        validator.toNat < fc.store.justifiedBalances.length) →
      QueueStep fc (.attestation attestation fromBlock) (fc.queue ++ [attestation.waiting])
  | left {slot : Slot} (stays : QueuedAttestation → Bool) :
      QueueStep fc (.time slot) (fc.queue.filter stays)

theorem queueStep_after (fc : ForkChoice) (call : Call) :
    QueueStep fc call (fc.after call).queue := by
  cases call with
  | block block state arrival engine =>
    rw [after]
    rcases fc.onBlock_cases block state arrival engine with refused | ⟨admission, -, -, imported⟩
    · rw [refused]
      exact .same
    · rw [imported]
      exact .same
  | attestation attestation fromBlock =>
    rw [after, onAttestation_eq]
    have reception := fc.receive_reception attestation fromBlock id
      (castVotes attestation.data.target.epoch attestation.data.head attestation.validators)
    generalize fc.receive attestation fromBlock id _ = outcome at reception
    cases reception with
    | passedOver => exact .same
    | refused => exact .same
    | counted validated =>
      rw [(castVotes_voted _ _ _ _).queue]
      exact .same
    | queued validated _ known => exact .joined known
  | message validator epoch root =>
    rw [after, (castVote_voted fc validator epoch root).queue]
    exact .same
  | head =>
    obtain ⟨_, _, _, _, _, state⟩ := fc.updateHead_rehead
    rw [after, state]
    exact .same
  | time slot =>
    let P (fc' : ForkChoice) : Prop := QueueStep fc (.time slot) fc'.queue
    have before : (fc.advanceTime (slot.toNat - fc.store.slot.toNat)).state.queue = fc.queue :=
      (fc.advanceTime_ticked _).1.queue
    refine Outcome.state_bind (P := P) ?_ fun _ _ => ?_
    · show QueueStep fc (.time slot) _
      rw [before]
      exact .same
    · generalize (fc.advanceTime (slot.toNat - fc.store.slot.toNat)).state = fc' at before
      have counted : P fc'.processQueue.state := by
        show QueueStep fc (.time slot) _
        rw [fc'.processQueue_voted.queue, taken, before]
        exact .left _
      exact Outcome.state_bind (P := P) counted fun _ _ => counted
  | tick slot =>
    rw [after, (fc.onTick_ticked slot).1.queue]
    exact .same
  | prune | setPruneThreshold | validPayload => exact .same
  | invalidPayload root =>
    let P (fc' : ForkChoice) : Prop := QueueStep fc (.invalidPayload root) fc'.queue
    exact Outcome.state_bind (P := P) .same fun _ _ => .same

namespace Sized

theorem after (sized : fc.Sized) {call : Call} (supplied : call.IsSized) :
    (fc.after call).Sized := by
  have supply {pair : Checkpoint × Balances} (supplies : Supplies ⟨fc, call⟩ pair) :
      pair.2.length < UInt64.size := by
    cases call with
    | block => exact supplied _ supplies.2.2
    | _ => exact supplies.elim
  obtain ⟨best, justified⟩ := fc.pairs_after call
  refine ⟨?_, ?_, ?_⟩
  · rcases justified with same | brought | ⟨-, adopted⟩
    · rw [show (fc.after call).store.justifiedBalances = fc.store.justifiedBalances from
        congrArg (·.2) same]
      exact sized.justified
    · exact supply brought
    · rw [show (fc.after call).store.justifiedBalances = fc.store.bestJustifiedBalances from
        congrArg (·.2) adopted]
      exact sized.best
  · rcases best with same | brought
    · rw [show (fc.after call).store.bestJustifiedBalances = fc.store.bestJustifiedBalances from
        congrArg (·.2) same]
      exact sized.best
    · exact supply brought
  · have step := fc.queueStep_after call
    generalize (fc.after call).queue = queue at step
    cases step with
    | same => exact sized.queued
    | joined known =>
      intro attestation member
      rcases List.mem_append.mp member with old | new
      · exact sized.queued attestation old
      · rw [List.mem_singleton.mp new]
        exact fun validator listed => sized.place (known validator listed)
    | left => exact fun attestation member =>
        sized.queued attestation (List.mem_of_mem_filter member)

theorem start {preset : Preset} {config : ChainConfig} {settings : NodeSettings} {anchor : Block}
    {balances : Balances} (size : balances.length < UInt64.size)
    (started : ForkChoice.start preset config settings anchor slot balances = .ok fc) :
    fc.Sized := by
  obtain ⟨head, _, _, _, _, _, state⟩ := start_rehead started
  rw [state]
  exact ⟨size, size, List.forall_mem_nil _⟩

end Sized

end ForkChoice

end LmdGhost
