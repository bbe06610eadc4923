import LmdGhost.ForkChoice.Attest
/-!
The passing of slots. With every slot the boost ends, at the start of an epoch the best justified
checkpoint is adopted if the finalized block is on its chain, and attestations whose slot has passed
leave the queue.
-/

namespace LmdGhost.ForkChoice

/-- Adopts the best justified checkpoint if it is ahead and its chain has the finalized block. -/
def adoptBestJustified (fc : ForkChoice) : Outcome ForkChoice Error Unit :=
  if fc.store.bestJustified.epoch ≤ fc.store.justified.epoch then
    .done fc ()
  else
    match fc.ancestor fc.store.bestJustified.root fc.finalizedSlot with
    | .error cause => .fail fc cause
    | .ok ancestor =>
      if ancestor = some fc.store.finalized.root then
        let adopted :=
          fc.store.setJustified fc.store.bestJustified fc.store.bestJustifiedBalances
        (adopted.lift (fun store => { fc with store }) .store).bind fun fc _ =>
          .done { fc with synced := false } ()
      else
        .done fc ()

/-- Moves to the same or to the next slot. -/
def onTick (fc : ForkChoice) (slot : Slot) : Outcome ForkChoice Error Unit :=
  let previous := fc.store.slot
  if slot < previous ∨ Word.satAdd previous 1 < slot then
    .fail fc (.slotSkipped previous slot)
  else
    let fc := { fc with
      store := fc.store.setSlot slot
      boostRoot := none
      synced := fc.synced && fc.boostRoot.isNone }
    if fc.preset.isEpochStart slot then fc.adoptBestJustified else .done fc ()

/-- Ticks `count` times to the next slot. -/
def advanceTime (fc : ForkChoice) (count : Nat) : Outcome ForkChoice Error Unit :=
  Nat.repeat (·.bind fun fc _ => fc.onTick (fc.store.slot + 1)) count (.done fc ())

/-- Counts the votes of attestations in order. -/
def countQueued : List QueuedAttestation → ForkChoice → Outcome ForkChoice Error Unit
  | [], fc => .done fc ()
  | attestation :: attestations, fc =>
    (castVotes attestation.targetEpoch attestation.head attestation.validators fc).bind
      fun fc _ => countQueued attestations fc

/-- Takes the attestations whose slot has passed out of the queue and counts them. -/
def processQueue (fc : ForkChoice) : Outcome ForkChoice Error Unit :=
  let (ready, waiting) := fc.queue.partition (·.slot < fc.store.slot)
  countQueued ready { fc with queue := waiting }

/--
Moves on to a slot, one slot at a time, and answers the current slot; time does not move back.
-/
def updateTime (fc : ForkChoice) (slot : Slot) : Outcome ForkChoice Error Slot :=
  (fc.advanceTime (slot.toNat - fc.store.slot.toNat)).bind fun fc _ =>
    fc.processQueue.bind fun fc _ =>
      .done { fc with validated := [] } fc.store.slot

end LmdGhost.ForkChoice
