import LmdGhost.BeaconBlock
import LmdGhost.Clock
import LmdGhost.ForkChoice.Basic
import LmdGhost.MergeTransition
/-!
The import of blocks. A block is admitted, by checks that change nothing, before it has any
effect; its state may then move the checkpoints, and if it is timely it is boosted.
-/

namespace LmdGhost

/-- What fork choice reads of the state after a block. -/
structure PostState where
  slot : Slot
  justified : Checkpoint
  finalized : Checkpoint
  genesisTime : UnixSeconds
  /-- The block at a slot, as far as the state remembers it. -/
  blockRootAt : Slot → Option Root

/-- What the caller knows about a block by the time it is imported. -/
structure Arrival where
  root : Root
  /-- How long after the start of its slot the block arrived. -/
  delay : Duration
  /-- The balances of the state's justified checkpoint, needed if a checkpoint advances. -/
  balances : Option Balances
  status : PayloadStatus

/-- An arrival at a time measured from the Unix epoch. -/
def Arrival.at (config : ChainConfig) (state : PostState) (root : Root) (time : Duration)
    (balances : Option Balances) (status : PayloadStatus) : Except Overflow Arrival := do
  let delay ← Clock.delay config state.genesisTime state.slot time
  return { root, delay, balances, status }

/-- The checkpoints of a state that is ahead of the store. -/
structure Advance where
  balances : Balances
  /-- Whether the justified checkpoint moves now, and not only the best justified one. -/
  justify : Bool

/-- Moves the checkpoints of the store to those of a state. -/
def Store.follow (store : Store) (state : PostState) (advance : Advance) :
    Outcome Store Store.Error Unit :=
  let best := store.justified.epoch < state.justified.epoch &&
    store.bestJustified.epoch < state.justified.epoch
  let finalize := store.finalized.epoch < state.finalized.epoch
  let moved :=
    if best then (store.setBestJustified state.justified advance.balances).bind fun store _ =>
      .done store ()
    else .done store ()
  let moved := moved.bind fun store _ =>
    if finalize then (store.setFinalized state.finalized).bind fun store _ => .done store ()
    else .done store ()
  moved.bind fun store _ =>
    if advance.justify then
      (store.setJustified state.justified advance.balances).bind fun store _ => .done store ()
    else .done store ()

namespace ForkChoice

/-- What the checks of a block find out. -/
structure Admission where
  /-- The block that stands for the epoch of the imported one. -/
  target : Root
  advance : Option Advance

/-- The parent of a block must be in the tree. -/
def knownParent (fc : ForkChoice) (block : BeaconBlock) (root : Root) : Except Error Node :=
  match fc.tree.node? block.parent with
  | some parent => .ok parent
  | none => .error (.invalidBlock (.unknownParent root block.parent))

/-- A block's slot must have come and must be later than the finalized one. -/
def checkSlot (fc : ForkChoice) (block : BeaconBlock) : Except Error Unit :=
  if fc.store.slot < block.slot then
    .error (.invalidBlock (.futureSlot block.slot fc.store.slot))
  else if block.slot ≤ fc.finalizedSlot then
    .error (.invalidBlock (.finalizedSlot block.slot fc.finalizedSlot))
  else
    .ok ()

/-- The finalized block must be on the chain of a block's parent. -/
def checkFinality (fc : ForkChoice) (block : BeaconBlock) : Except Error Unit :=
  match fc.ancestor block.parent fc.finalizedSlot with
  | .error cause => .error cause
  | .ok ancestor =>
    if ancestor = some fc.store.finalized.root then
      .ok ()
    else
      .error (.invalidBlock (.notFinalizedDescendant fc.store.finalized.root ancestor))

/-- The first block with a payload must build on the terminal block. -/
def checkMerge (fc : ForkChoice) (block : BeaconBlock) (parent : Node) (engine : ExecutionEngine) :
    Except Error Unit :=
  if block.isMergeTransition parent.status then
    MergeTransition.validate fc.preset fc.config block engine
  else
    .ok ()

/-- The block at the start of a block's epoch: itself, or the one that its state remembers. -/
def targetRoot (fc : ForkChoice) (slot : Slot) (root : Root) (state : PostState) :
    Except Error Root :=
  let start := fc.preset.startSlot (fc.preset.epochOf slot)
  if slot = start then
    .ok root
  else
    match state.blockRootAt start with
    | some target => .ok target
    | none => .error (.missingTarget start)

/--
Whether the justified checkpoint may move to that of a state: at once early in an epoch and for
states of earlier epochs, else only along the chain of the current one.
-/
def mayJustify (fc : ForkChoice) (state : PostState) : Except Error Bool :=
  let justifiedSlot := fc.preset.startSlot fc.store.justified.epoch
  if fc.preset.slotsIntoEpoch fc.store.slot < fc.config.safeSlots then
    .ok true
  else if state.slot ≤ justifiedSlot then
    .error (.justificationReverted justifiedSlot state.slot)
  else if fc.preset.epochOf state.slot < fc.currentEpoch then
    .ok true
  else
    match fc.ancestor state.justified.root justifiedSlot with
    | .error cause => .error cause
    | .ok ancestor => .ok (ancestor = some fc.store.justified.root)

/-- How the checkpoints of a state move the store, if they are ahead of it. -/
def advance? (fc : ForkChoice) (state : PostState) (balances : Option Balances) :
    Except Error (Option Advance) :=
  let finalize := fc.store.finalized.epoch < state.finalized.epoch
  if fc.store.justified.epoch < state.justified.epoch ∨ finalize then
    match balances with
    | none => .error (.missingBalances state.justified.root)
    | some balances =>
      if finalize then
        .ok (some { balances, justify := true })
      else
        match fc.mayJustify state with
        | .error cause => .error cause
        | .ok justify => .ok (some { balances, justify })
  else
    .ok none

/-- The checks of a block, in the order in which they are reported. -/
def vet (fc : ForkChoice) (block : BeaconBlock) (state : PostState) (arrival : Arrival)
    (engine : ExecutionEngine) : Except Error Admission := do
  let parent ← fc.knownParent block arrival.root
  fc.checkSlot block
  fc.checkFinality block
  fc.checkMerge block parent engine
  let target ← fc.targetRoot block.slot arrival.root state
  let advance ← fc.advance? state arrival.balances
  return { target, advance }

/--
Whether an arriving block is boosted: it is timely and the first such block of the current slot.
-/
def boosts (fc : ForkChoice) (block : BeaconBlock) (arrival : Arrival) : Bool :=
  fc.settings.boostEnabled && block.slot == fc.store.slot &&
    arrival.delay < fc.settings.timelyThreshold fc.config && fc.boostRoot.isNone

/-- The block as it enters the tree. -/
def entry (block : BeaconBlock) (state : PostState) (arrival : Arrival) (target : Root) :
    Block where
  slot := block.slot
  root := arrival.root
  parent := some block.parent
  stateRoot := block.stateRoot
  target
  justified := state.justified
  finalized := state.finalized
  status := arrival.status
  payload := block.payloadHash?

/-- Imports a block and answers it as it enters the tree. -/
def onBlock (fc : ForkChoice) (block : BeaconBlock) (state : PostState) (arrival : Arrival)
    (engine : ExecutionEngine) : Outcome ForkChoice Error Block :=
  match fc.vet block state arrival engine with
  | .error cause => (Outcome.fail fc cause).report cause.notices
  | .ok admission =>
    let followed : Outcome Store Store.Error Unit :=
      match admission.advance with
      | none => .done fc.store ()
      | some advance => fc.store.follow state advance
    (followed.lift (fun store => { fc with store }) .store).bind fun fc _ =>
      let entry := entry block state arrival admission.target
      .done
        { fc with
          tree := fc.tree.insert entry
          boostRoot := if fc.boosts block arrival then some arrival.root else fc.boostRoot
          synced := false }
        entry

end ForkChoice

end LmdGhost
