import LmdGhost.ForkChoice.Basic
/-!
Attestations. The data of an attestation is checked once and then remembered until time moves. A
valid attestation from a slot that has passed is counted at once; any other waits in the queue.
-/

namespace LmdGhost.ForkChoice

/-- The block that an attestation's target must name: the start of the target epoch on its chain. -/
def expectedTarget (fc : ForkChoice) (data : AttestationData) (head : Node) : Root :=
  if fc.preset.epochOf head.slot < data.target.epoch then data.head else head.target

/-- The target epoch must be current or, outside of blocks, at most one epoch old. -/
def checkTargetEpoch (fc : ForkChoice) (data : AttestationData) (fromBlock : Bool) :
    Except InvalidAttestation Unit :=
  if fc.currentEpoch < data.target.epoch then
    .error (.futureEpoch data.target.epoch fc.currentEpoch)
  else if !fromBlock ∧ Word.satAdd data.target.epoch 1 < fc.currentEpoch then
    .error (.pastEpoch data.target.epoch fc.currentEpoch)
  else if data.target.epoch ≠ fc.preset.epochOf data.slot then
    .error (.targetEpochMismatch data.target.epoch (fc.preset.epochOf data.slot))
  else
    .ok ()

/-- The target and the head must be in the tree and agree with each other and with the slot. -/
def checkVote (fc : ForkChoice) (data : AttestationData) : Except InvalidAttestation Unit :=
  if !fc.tree.contains data.target.root then
    .error (.unknownTarget data.target.root)
  else
    match fc.tree.node? data.head with
    | none => .error (.unknownHead data.head)
    | some head =>
      if fc.expectedTarget data head ≠ data.target.root then
        .error (.targetMismatch data.target.root (fc.expectedTarget data head))
      else if data.slot < head.slot then
        .error (.futureBlock head.slot data.slot)
      else
        .ok ()

def checkData (fc : ForkChoice) (data : AttestationData) (fromBlock : Bool) :
    Except InvalidAttestation Unit := do
  fc.checkTargetEpoch data fromBlock
  fc.checkVote data

/-- Checks an attestation, unless its data was found valid before, and remembers its data. -/
def examine (fc : ForkChoice) (attestation : Attestation) (fromBlock : Bool) :
    Except InvalidAttestation ForkChoice :=
  if attestation.validators.isEmpty then
    .error .noValidators
  else if fc.validated.contains attestation.data then
    .ok fc
  else
    match fc.checkData attestation.data fromBlock with
    | .error cause => .error cause
    | .ok () => .ok { fc with validated := attestation.data :: fc.validated }

/-- Records a validator's message unless it has sent one for the same epoch or a later one. -/
def castVote (fc : ForkChoice) (validator : ValidatorIndex) (epoch : Epoch) (root : Root) :
    Outcome ForkChoice Error Unit :=
  match fc.votes.record validator root epoch with
  | .error cause => .fail fc (.overflow cause)
  | .ok (votes, recorded) => .done { fc with votes, synced := fc.synced && !recorded } ()

/-- Records the same message for several validators. -/
def castVotes (epoch : Epoch) (root : Root) :
    List ValidatorIndex → ForkChoice → Outcome ForkChoice Error Unit
  | [], fc => .done fc ()
  | validator :: validators, fc =>
    (fc.castVote validator epoch root).bind fun fc _ => castVotes epoch root validators fc

/--
Takes an attestation into account. A vote for the zero root cannot be told from the absence of a
vote and is passed over. Every validator must have a place in the balances of the justified state.
-/
def onAttestation (fc : ForkChoice) (attestation : Attestation) (fromBlock : Bool) :
    Outcome ForkChoice Error Unit :=
  let data := attestation.data
  if data.head.isZero then
    .done fc ()
  else
    match fc.examine attestation fromBlock with
    | .error cause => .fail fc (.invalidAttestation cause)
    | .ok fc =>
      let count := fc.store.justifiedBalances.length
      match attestation.validators.find? (count ≤ ·.toNat) with
      | some validator => .fail fc (.invalidAttestation (.unknownValidator validator count))
      | none =>
        if data.slot < fc.store.slot then
          castVotes data.target.epoch data.head attestation.validators fc
        else
          let waiting := {
            slot := data.slot
            validators := attestation.validators
            head := data.head
            targetEpoch := data.target.epoch }
          .done { fc with queue := fc.queue ++ [waiting] } ()

end LmdGhost.ForkChoice
