import LmdGhost.Proofs.ForkChoice.Queue
import LmdGhost.Proofs.VoteTable.Support
/-!
What is handed to the table of votes. To tell, calls are watched: a watched call does what the call
does, and every message that it hands to the table is written down. The table after the call is the
one before with these messages, in their order.
-/

namespace LmdGhost.ForkChoice

structure Message where
  validator : ValidatorIndex
  epoch : Epoch
  root : Root
deriving DecidableEq

end LmdGhost.ForkChoice

namespace LmdGhost

open ForkChoice (Message)

def QueuedAttestation.messages (attestation : QueuedAttestation) : List Message :=
  attestation.validators.map (⟨·, attestation.targetEpoch, attestation.head⟩)

/-- The table after a message, which it may have no place for. -/
def VoteTable.take (table : VoteTable) (message : Message) : VoteTable :=
  match table.record message.validator message.root message.epoch with
  | .ok (table, _) => table
  | .error _ => table

/-- The messages that a table has last been given, by validator index. -/
def VoteTable.latest (table : VoteTable) : List (Root × Epoch) :=
  table.votes.map fun vote => (vote.latest, vote.epoch)

/-- Moving votes changes for which blocks they are counted, and nothing that they say. -/
theorem Vote.latest_settleFrom (index : RootIndex) (old new : Balances) (first : Nat)
    (votes : List Vote) (deltas : List Delta) :
    (⟨(settleFrom index old new first votes deltas).state⟩ : VoteTable).latest =
      (⟨votes⟩ : VoteTable).latest := by
  induction votes generalizing first deltas with
  | nil => rfl
  | cons vote votes ih =>
    rw [settleFrom]
    cases step : vote.settle index (old.of first) (new.of first) deltas with
    | error cause => rfl
    | ok moved =>
      obtain ⟨vote', between⟩ := moved
      have same : (vote'.latest, vote'.epoch) = (vote.latest, vote.epoch) := by
        rcases eq_or_settled step with rfl | rfl <;> rfl
      have others := ih (first + 1) between
      simp only [VoteTable.latest, Outcome.state_lift, List.map_cons, same] at others ⊢
      rw [others]

theorem VoteTable.latest_deltas (table : VoteTable) (index : RootIndex) (old new : Balances) :
    (table.deltas index old new).state.latest = table.latest :=
  Vote.latest_settleFrom index old new 0 table.votes _

namespace ForkChoice

/-- Fork choice with the messages that have been handed to its table of votes, in order. -/
structure Watched where
  fc : ForkChoice
  handed : List Message

namespace Watched

variable {watched : Watched} {epoch : Epoch} {root : Root} {attestation : Attestation}
  {table : VoteTable}

def put (watched : Watched) (fc : ForkChoice) : Watched :=
  { watched with fc }

def castVote (watched : Watched) (validator : ValidatorIndex) (epoch : Epoch) (root : Root) :
    Outcome Watched Error Unit :=
  (watched.fc.castVote validator epoch root).lift
    (fun fc => { fc, handed := watched.handed ++ [⟨validator, epoch, root⟩] }) id

def castVotes (epoch : Epoch) (root : Root) :
    List ValidatorIndex → Watched → Outcome Watched Error Unit
  | [], watched => .done watched ()
  | validator :: validators, watched =>
    (watched.castVote validator epoch root).bind fun watched _ =>
      castVotes epoch root validators watched

def countQueued : List QueuedAttestation → Watched → Outcome Watched Error Unit
  | [], watched => .done watched ()
  | attestation :: attestations, watched =>
    (castVotes attestation.targetEpoch attestation.head attestation.validators watched).bind
      fun watched _ => countQueued attestations watched

def processQueue (watched : Watched) : Outcome Watched Error Unit :=
  countQueued watched.fc.ready (watched.put watched.fc.taken)

def onAttestation (watched : Watched) (attestation : Attestation) (fromBlock : Bool) :
    Outcome Watched Error Unit :=
  watched.fc.receive attestation fromBlock watched.put fun fc =>
    castVotes attestation.data.target.epoch attestation.data.head attestation.validators
      (watched.put fc)

def updateTime (watched : Watched) (slot : Slot) : Outcome Watched Error Slot :=
  ((watched.fc.advanceTime (slot.toNat - watched.fc.store.slot.toNat)).lift watched.put id).bind
    fun watched _ => watched.processQueue.bind fun watched _ =>
      .done (watched.put { watched.fc with validated := [] }) watched.fc.store.slot

/-- Other calls than these hand no message to the table. -/
def after (watched : Watched) : Call → Watched
  | .attestation attestation fromBlock => (watched.onAttestation attestation fromBlock).state
  | .message validator epoch root => (watched.castVote validator epoch root).state
  | .time slot => (watched.updateTime slot).state
  | call => watched.put (watched.fc.after call)

theorem castVote_erases (watched : Watched) (validator : ValidatorIndex) (epoch : Epoch)
    (root : Root) : (watched.castVote validator epoch root).lift Watched.fc id =
      watched.fc.castVote validator epoch root := by
  simp [castVote, Outcome.lift]

theorem castVotes_erases (epoch : Epoch) (root : Root) (validators : List ValidatorIndex)
    (watched : Watched) : (castVotes epoch root validators watched).lift Watched.fc id =
      ForkChoice.castVotes epoch root validators watched.fc := by
  induction validators generalizing watched with
  | nil => rfl
  | cons validator validators ih =>
    rw [castVotes, Outcome.lift_bind (fun fc _ => ForkChoice.castVotes epoch root validators fc)
      fun watched _ => ih watched, castVote_erases]
    rfl

theorem countQueued_erases (attestations : List QueuedAttestation) (watched : Watched) :
    (countQueued attestations watched).lift Watched.fc id =
      ForkChoice.countQueued attestations watched.fc := by
  induction attestations generalizing watched with
  | nil => rfl
  | cons attestation attestations ih =>
    rw [countQueued, Outcome.lift_bind (fun fc _ => ForkChoice.countQueued attestations fc)
      fun watched _ => ih watched, castVotes_erases]
    rfl

theorem processQueue_erases (watched : Watched) :
    watched.processQueue.lift Watched.fc id = watched.fc.processQueue := by
  rw [processQueue_eq]
  exact countQueued_erases _ _

theorem onAttestation_erases (watched : Watched) (attestation : Attestation) (fromBlock : Bool) :
    (watched.onAttestation attestation fromBlock).lift Watched.fc id =
      watched.fc.onAttestation attestation fromBlock := by
  rw [onAttestation_eq, onAttestation, receive, receive]
  split
  · rfl
  · cases watched.fc.examine attestation fromBlock with
    | error cause => rfl
    | ok fc =>
      dsimp only
      split
      · rfl
      · split
        · exact castVotes_erases _ _ _ _
        · rfl

theorem updateTime_erases (watched : Watched) (slot : Slot) :
    (watched.updateTime slot).lift Watched.fc id = watched.fc.updateTime slot := by
  let forget (fc : ForkChoice) : Outcome ForkChoice Error Slot :=
    .done { fc with validated := [] } fc.store.slot
  let count (fc : ForkChoice) : Outcome ForkChoice Error Slot :=
    fc.processQueue.bind fun fc _ => forget fc
  have counted (watched : Watched) : (watched.processQueue.bind fun watched _ => .done
      (watched.put { watched.fc with validated := [] }) watched.fc.store.slot).lift Watched.fc id =
      count watched.fc := by
    rw [Outcome.lift_bind (fun fc _ => forget fc) fun _ _ => rfl, processQueue_erases]
  rw [updateTime, Outcome.lift_bind (fun fc _ => count fc) fun watched _ => counted watched]
  simp [ForkChoice.updateTime, Outcome.lift, put, count, forget]

/-- Watching a call does not change what it does. -/
theorem after_erases (watched : Watched) (call : Call) :
    (watched.after call).fc = watched.fc.after call := by
  cases call with
  | attestation attestation fromBlock =>
    rw [ForkChoice.after, ← onAttestation_erases]
    rfl
  | message validator epoch root =>
    rw [ForkChoice.after, ← castVote_erases]
    rfl
  | time slot =>
    rw [ForkChoice.after, ← updateTime_erases]
    rfl
  | _ => rfl

theorem castVote_done {validator : ValidatorIndex} (place : HasPlace validator)
    (watched : Watched) (epoch : Epoch) (root : Root) : ∃ fc, Voted watched.fc fc ∧
      watched.castVote validator epoch root =
        .done ⟨fc, watched.handed ++ [⟨validator, epoch, root⟩]⟩ () := by
  have voted := castVote_voted watched.fc validator epoch root
  have ok : (watched.fc.castVote validator epoch root).result = .ok () := castVote_ok place
  have quiet : (watched.fc.castVote validator epoch root).log = [] := by
    rw [ForkChoice.castVote]
    split <;> rfl
  refine ⟨_, voted, ?_⟩
  rw [castVote, Outcome.lift, ok, quiet]
  rfl

theorem castVotes_done {validators : List ValidatorIndex}
    (places : ∀ validator ∈ validators, HasPlace validator) (watched : Watched) (epoch : Epoch)
    (root : Root) : ∃ fc, Voted watched.fc fc ∧
      castVotes epoch root validators watched =
        .done ⟨fc, watched.handed ++ validators.map (⟨·, epoch, root⟩)⟩ () := by
  induction validators generalizing watched with
  | nil => exact ⟨watched.fc, .refl _, by simp [castVotes]⟩
  | cons validator validators ih =>
    obtain ⟨place, others⟩ := List.forall_mem_cons.mp places
    obtain ⟨fc, voted, cast⟩ := castVote_done place watched epoch root
    obtain ⟨fc', voted', rest⟩ := ih others ⟨fc, watched.handed ++ [⟨validator, epoch, root⟩]⟩
    exact ⟨fc', voted.trans voted', by simp [castVotes, cast, rest]⟩

theorem countQueued_done {attestations : List QueuedAttestation}
    (places : ∀ attestation ∈ attestations,
      ∀ validator ∈ attestation.validators, HasPlace validator) (watched : Watched) :
    ∃ fc, Voted watched.fc fc ∧ countQueued attestations watched =
      .done ⟨fc, watched.handed ++ attestations.flatMap (·.messages)⟩ () := by
  induction attestations generalizing watched with
  | nil => exact ⟨watched.fc, .refl _, by simp [countQueued]⟩
  | cons attestation attestations ih =>
    obtain ⟨here, others⟩ := List.forall_mem_cons.mp places
    obtain ⟨fc, voted, cast⟩ := castVotes_done here watched attestation.targetEpoch attestation.head
    obtain ⟨fc', voted', rest⟩ := ih others ⟨fc, watched.handed ++ attestation.messages⟩
    refine ⟨fc', voted.trans voted', ?_⟩
    rw [countQueued, cast, Outcome.bind_done]
    exact rest.trans (by simp)

theorem processQueue_done (watched : Watched)
    (places : ∀ attestation ∈ watched.fc.queue,
      ∀ validator ∈ attestation.validators, HasPlace validator) :
    ∃ fc, Voted watched.fc.taken fc ∧ watched.processQueue =
      .done ⟨fc, watched.handed ++ watched.fc.ready.flatMap (·.messages)⟩ () :=
  countQueued_done (fun attestation member => places attestation (List.mem_of_mem_filter member))
    (watched.put watched.fc.taken)

def Faithful (table : VoteTable) (watched : Watched) : Prop :=
  watched.fc.votes = watched.handed.foldl VoteTable.take table

namespace Faithful

theorem castVote (faithful : watched.Faithful table) (validator : ValidatorIndex) (epoch : Epoch)
    (root : Root) : (watched.castVote validator epoch root).state.Faithful table := by
  rw [Faithful] at faithful
  simp only [Faithful, Watched.castVote, Outcome.state_lift, List.foldl_append, List.foldl_cons,
    List.foldl_nil, ← faithful, VoteTable.take, ForkChoice.castVote]
  cases watched.fc.votes.record validator root epoch <;> rfl

theorem castVotes (faithful : watched.Faithful table) (epoch : Epoch) (root : Root)
    (validators : List ValidatorIndex) :
    (castVotes epoch root validators watched).state.Faithful table := by
  induction validators generalizing watched with
  | nil => exact faithful
  | cons validator validators ih =>
    rw [Watched.castVotes]
    have cast := faithful.castVote validator epoch root
    exact Outcome.state_bind (P := Faithful table) cast fun _ _ => ih cast

theorem countQueued (faithful : watched.Faithful table) (attestations : List QueuedAttestation) :
    (countQueued attestations watched).state.Faithful table := by
  induction attestations generalizing watched with
  | nil => exact faithful
  | cons attestation attestations ih =>
    rw [Watched.countQueued]
    have cast := faithful.castVotes attestation.targetEpoch attestation.head attestation.validators
    exact Outcome.state_bind (P := Faithful table) cast fun _ _ => ih cast

theorem processQueue (faithful : watched.Faithful table) :
    watched.processQueue.state.Faithful table := by
  have kept : (watched.put watched.fc.taken).Faithful table := faithful
  exact kept.countQueued watched.fc.ready

theorem onAttestation (faithful : watched.Faithful table) (attestation : Attestation)
    (fromBlock : Bool) : (watched.onAttestation attestation fromBlock).state.Faithful table := by
  have reception := watched.fc.receive_reception attestation fromBlock watched.put fun fc =>
    Watched.castVotes attestation.data.target.epoch attestation.data.head attestation.validators
      (watched.put fc)
  rw [Watched.onAttestation]
  generalize watched.fc.receive attestation fromBlock watched.put _ = outcome at reception
  cases reception with
  | passedOver | refused | queued => exact faithful
  | counted validated =>
    have kept : (watched.put { watched.fc with validated }).Faithful table := faithful
    exact kept.castVotes _ _ _

theorem updateTime (faithful : watched.Faithful table) (slot : Slot) :
    (watched.updateTime slot).state.Faithful table := by
  have ticked : (watched.put (watched.fc.advanceTime
      (slot.toNat - watched.fc.store.slot.toNat)).state).Faithful table := by
    obtain ⟨_, _, _, state⟩ := (watched.fc.advanceTime_ticked _).1
    rw [state]
    exact faithful
  refine Outcome.state_bind (P := Faithful table) ticked fun _ _ => ?_
  have counted := ticked.processQueue
  exact Outcome.state_bind (P := Faithful table) counted fun _ _ => counted

end Faithful

theorem votes_reweigh (fc : ForkChoice) : fc.reweigh.state.votes =
    (fc.votes.deltas fc.tree.index fc.appliedBalances fc.store.justifiedBalances).state := by
  rcases fc.reweigh_cases with ⟨_, -, -, state⟩ | ⟨deltas, -, -, state⟩
  · rw [state]
  · rw [state]
    rcases applyDeltas_cases (fc.withVotes _) deltas with ⟨_, -, -, state⟩ | ⟨-, -, state⟩
    · rw [state]
      rfl
    · rw [state]
      rfl

/-- A new head moves votes, or it leaves the table as it is. -/
theorem votes_updateHead (fc : ForkChoice) : fc.updateHead.state.votes = fc.votes ∨
    fc.updateHead.state.votes =
      (fc.votes.deltas fc.tree.index fc.appliedBalances fc.store.justifiedBalances).state := by
  have selected (fc : ForkChoice) : fc.selectHead.state.votes = fc.votes := by
    obtain ⟨head, state⟩ := fc.selectHead_state
    rw [state]
  rw [updateHead]
  split
  · exact .inl (selected fc)
  · let P (fc' : ForkChoice) : Prop := fc'.votes =
      (fc.votes.deltas fc.tree.index fc.appliedBalances fc.store.justifiedBalances).state
    have moved : P fc.reweigh.state := votes_reweigh fc
    exact .inr (Outcome.state_bind (P := P) moved fun _ _ => (selected _).trans moved)

theorem latest_updateHead (fc : ForkChoice) :
    fc.updateHead.state.votes.latest = fc.votes.latest := by
  rcases votes_updateHead fc with same | moved
  · rw [same]
  · rw [moved, VoteTable.latest_deltas]

/-- But for heads, which move votes, a call changes the table by its messages and not otherwise. -/
theorem votes_after (fc : ForkChoice) {call : Call} (other : call ≠ .head) :
    (fc.after call).votes =
      ((⟨fc, []⟩ : Watched).after call).handed.foldl VoteTable.take fc.votes := by
  have start : (⟨fc, []⟩ : Watched).Faithful fc.votes := rfl
  rw [← after_erases ⟨fc, []⟩]
  cases call with
  | block block state arrival engine =>
    have votes : (fc.onBlock block state arrival engine).state.votes = fc.votes := by
      rcases fc.onBlock_cases block state arrival engine with refused | ⟨_, -, -, imported⟩
      · rw [refused]
      · rw [imported]
        rfl
    exact votes
  | attestation attestation fromBlock => exact start.onAttestation attestation fromBlock
  | message validator epoch root => exact start.castVote validator epoch root
  | head => contradiction
  | time slot => exact start.updateTime slot
  | tick slot =>
    have votes : (fc.onTick slot).state.votes = fc.votes := by
      obtain ⟨_, _, _, state⟩ := (fc.onTick_ticked slot).1
      rw [state]
    exact votes
  | prune | setPruneThreshold | validPayload => exact start
  | invalidPayload root =>
    let P (fc' : ForkChoice) : Prop := fc'.votes = fc.votes
    have votes : P (fc.onInvalidPayload root).state :=
      Outcome.state_bind (P := P) rfl fun _ _ => rfl
    exact votes

/-- The table says after a call what the messages of the call make it say. -/
theorem latest_after (fc : ForkChoice) (call : Call) : (fc.after call).votes.latest =
    (((⟨fc, []⟩ : Watched).after call).handed.foldl VoteTable.take fc.votes).latest := by
  cases call with
  | head => exact latest_updateHead fc
  | _ => exact congrArg VoteTable.latest (votes_after fc nofun)

end Watched

end ForkChoice

end LmdGhost
