import LmdGhost.BlockTree.Error
import LmdGhost.Outcome
import LmdGhost.RootIndex
import LmdGhost.VoteTable.Basic
/-!
The changes in weight that follow from moved votes and changed balances. Each vote takes its old
balance from the block it is counted for, adds its new balance to the block of its latest message
and is counted for that block from then on. A block that is not indexed gains and loses nothing.
Where a change overflows, the votes before it have been moved and the others have not.
-/

namespace LmdGhost

/-- Adds an amount to the change of a block, or takes it away, as `combine` says. -/
def shiftDelta (combine : Delta → Delta → Option Delta) (index : RootIndex) (root : Root)
    (amount : Gwei) (deltas : List Delta) : Except BlockTree.Error (List Delta) :=
  match index[root]? with
  | none => .ok deltas
  | some i =>
    match deltas[i]? with
    | none => .error (.indexOutOfBounds i)
    | some delta =>
      match (Delta.ofGwei? amount).bind (combine delta) with
      | none => .error (.deltaOverflow i)
      | some changed => .ok (deltas.set i changed)

namespace Vote

/--
Whether a vote changes no weight: it was never cast, or neither its block nor its balance moved.
-/
def isSettled (vote : Vote) (old new : Gwei) : Bool :=
  (vote.counted.isZero && vote.latest.isZero) || (vote.counted == vote.latest && old == new)

/-- Moves a vote and enters the move into the changes. -/
def settle (vote : Vote) (index : RootIndex) (old new : Gwei) (deltas : List Delta) :
    Except BlockTree.Error (Vote × List Delta) :=
  if vote.isSettled old new then
    .ok (vote, deltas)
  else do
    let deltas ← shiftDelta Delta.sub? index vote.counted old deltas
    let deltas ← shiftDelta Delta.add? index vote.latest new deltas
    return ({ vote with counted := vote.latest }, deltas)

/-- Moves the votes of the validators from `validator` on. -/
def settleFrom (index : RootIndex) (old new : Balances) (validator : Nat) :
    List Vote → List Delta → Outcome (List Vote) BlockTree.Error (List Delta)
  | [], deltas => .done [] deltas
  | vote :: votes, deltas =>
    match vote.settle index (old.of validator) (new.of validator) deltas with
    | .error cause => .fail (vote :: votes) cause
    | .ok (vote, deltas) =>
      (settleFrom index old new (validator + 1) votes deltas).lift (vote :: ·) id

end Vote

namespace VoteTable

/-- The change in weight of every indexed block, and the table in which all votes are counted. -/
def deltas (table : VoteTable) (index : RootIndex) (old new : Balances) :
    Outcome VoteTable BlockTree.Error (List Delta) :=
  (Vote.settleFrom index old new 0 table.votes (List.replicate index.size 0)).lift VoteTable.mk id

end VoteTable

end LmdGhost
