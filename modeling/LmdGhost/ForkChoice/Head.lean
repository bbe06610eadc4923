import LmdGhost.BlockTree.Scores
import LmdGhost.BoostScore
import LmdGhost.ForkChoice.Basic
import LmdGhost.VoteTable.Deltas
/-!
The head. Moved votes, new balances and the boost change the weights in the tree; the head is the
best descendant of the justified block under the new weights.
-/

namespace LmdGhost.ForkChoice

/-- The boost of the current slot under the balances that are being applied. -/
def boost? (fc : ForkChoice) : Option Boost :=
  match fc.boostRoot with
  | some root =>
    if fc.settings.boostEnabled then
      some {
        root
        score := fc.settings.boostScore?.getD
          (boostScore fc.preset fc.config.boostPercent fc.appliedBalances) }
    else none
  | none => none

/-- Brings the weights up to date. -/
def reweigh (fc : ForkChoice) : Outcome ForkChoice Error Unit :=
  let moved := fc.votes.deltas fc.tree.index fc.appliedBalances fc.store.justifiedBalances
  (moved.lift (fun votes => { fc with votes }) .tree).bind fun fc deltas =>
    let fc := { fc with appliedBalances := fc.store.justifiedBalances }
    let scored := fc.tree.applyScores {
      deltas
      boost := fc.boost?
      justifiedEpoch := fc.store.justified.epoch
      finalizedEpoch := fc.store.finalized.epoch }
    (scored.lift (fun tree => { fc with tree }) .tree).bind fun fc _ =>
      .done { fc with synced := true } ()

/-- Finds the head under the weights as they are. -/
def selectHead (fc : ForkChoice) : Outcome ForkChoice Error Node :=
  match (fc.tree.findHead fc.store.justified.root).mapError Error.ofTree >>= fc.requiredNode with
  | .error cause => .fail fc cause
  | .ok head =>
    (Outcome.done { fc with head } head).report
      (if head.root = fc.head.root then [] else [.headChanged head.slot head.root fc.head.root])

/-- Brings the weights up to date, if anything has changed, and finds the head. -/
def updateHead (fc : ForkChoice) : Outcome ForkChoice Error Node :=
  if fc.synced then fc.selectHead else fc.reweigh.bind fun fc _ => fc.selectHead

end LmdGhost.ForkChoice
