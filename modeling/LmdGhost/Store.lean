import LmdGhost.Outcome
/-!
The current slot and the checkpoints as fork choice sees them, each justified checkpoint with the
balances of its state. A finalized checkpoint never moves to an earlier epoch.
-/

namespace LmdGhost

structure Store where
  slot : Slot
  justified : Checkpoint
  justifiedBalances : Balances
  finalized : Checkpoint
  /-- The latest justified checkpoint seen, adopted at the start of the next epoch at the latest. -/
  bestJustified : Checkpoint
  bestJustifiedBalances : Balances
deriving DecidableEq, Inhabited

namespace Store

inductive Error where
  | finalizedRegression (current new : Checkpoint)
deriving DecidableEq

def Error.message : Error → String
  | finalizedRegression current new =>
    s!"finalized checkpoint cannot move backwards (current: {current.describe}, " ++
      s!"new: {new.describe})"

/-- A store that has seen no justified checkpoint later than the current one. -/
def start (slot : Slot) (justified finalized : Checkpoint) (balances : Balances) : Store where
  slot
  justified
  justifiedBalances := balances
  finalized
  bestJustified := justified
  bestJustifiedBalances := balances

def setSlot (store : Store) (slot : Slot) : Store :=
  { store with slot }

/-- Replaces the justified checkpoint and answers the old one. -/
def setJustified (store : Store) (checkpoint : Checkpoint) (balances : Balances) :
    Outcome Store Error Checkpoint :=
  (Outcome.done { store with justified := checkpoint, justifiedBalances := balances }
    store.justified).report [.justified checkpoint store.justified.epoch]

/-- Replaces the finalized checkpoint and answers the old one. -/
def setFinalized (store : Store) (checkpoint : Checkpoint) : Outcome Store Error Checkpoint :=
  if checkpoint.epoch < store.finalized.epoch then
    .fail store (.finalizedRegression store.finalized checkpoint)
  else
    (Outcome.done { store with finalized := checkpoint } store.finalized).report
      [.finalized checkpoint store.finalized.epoch]

/-- Replaces the best justified checkpoint and answers the old one. -/
def setBestJustified (store : Store) (checkpoint : Checkpoint) (balances : Balances) :
    Outcome Store Error Checkpoint :=
  (Outcome.done { store with bestJustified := checkpoint, bestJustifiedBalances := balances }
    store.bestJustified).report [.bestJustified checkpoint]

end Store

end LmdGhost
