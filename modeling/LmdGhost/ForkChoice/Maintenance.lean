import LmdGhost.BlockTree.Payload
import LmdGhost.BlockTree.Prune
import LmdGhost.ForkChoice.Basic
/-!
Calls that work on the tree alone: pruning, and the verdicts on payloads.
-/

namespace LmdGhost.ForkChoice

/-- An outcome for the tree as one for fork choice. -/
def onTree (fc : ForkChoice) (cause : BlockTree.Error → Error)
    (outcome : Outcome BlockTree BlockTree.Error α) : Outcome ForkChoice Error α :=
  outcome.lift (fun tree => { fc with tree }) cause

/-- Removes the blocks in front of the finalized one, if there are enough, and answers them. -/
def prune (fc : ForkChoice) (finalized : Root) : Outcome ForkChoice Error (List Node) :=
  fc.onTree .tree (fc.tree.prune finalized)

def setPruneThreshold (fc : ForkChoice) (threshold : UInt64) : ForkChoice :=
  { fc with tree := fc.tree.setPruneThreshold threshold }

/-- Marks a block's payload and those of its syncing ancestors as valid. -/
def onValidPayload (fc : ForkChoice) (root : Root) : Outcome ForkChoice Error Unit :=
  fc.onTree Error.ofTree (fc.tree.confirm root)

/-- Marks a block's payload and those of its descendants as invalid, and answers their roots. -/
def onInvalidPayload (fc : ForkChoice) (root : Root) : Outcome ForkChoice Error (List Root) :=
  (fc.onTree Error.ofTree (fc.tree.reject root)).bind fun fc rejected =>
    .done { fc with synced := fc.synced && rejected.isEmpty } rejected

end LmdGhost.ForkChoice
