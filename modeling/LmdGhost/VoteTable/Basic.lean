import LmdGhost.Root
/-!
The latest messages of validators. A vote remembers the block that its validator's balance is
counted for and the block it has been moved to since. The table grows to fit every validator that
it is asked about, and the votes in between are blank.
-/

namespace LmdGhost

structure Vote where
  /-- The block that the validator's balance is counted for. -/
  counted : Root
  /-- The block of the latest message. -/
  latest : Root
  /-- The target epoch of the latest message. -/
  epoch : Epoch
deriving DecidableEq, Inhabited

namespace Vote

def blank : Vote :=
  ⟨.zero, .zero, 0⟩

def isBlank (vote : Vote) : Bool :=
  vote == blank

/-- Whether a message with a target epoch replaces the latest one. -/
def yieldsTo (vote : Vote) (epoch : Epoch) : Bool :=
  vote.epoch < epoch || vote.isBlank

def toJson (vote : Vote) : Json :=
  .object [
    ("current_root", vote.counted.toJson),
    ("next_root", vote.latest.toJson),
    ("next_epoch", .word vote.epoch)]

def ofJson? (json : Json) : Option Vote := do
  let fields ← json.fields?
  return {
    counted := ← fields.required "current_root" Root.ofJson?
    latest := ← fields.required "next_root" Root.ofJson?
    epoch := ← fields.required "next_epoch" Json.word? }

end Vote

/-- Votes by validator index. -/
structure VoteTable where
  votes : List Vote
deriving DecidableEq, Inhabited

namespace VoteTable

def empty : VoteTable :=
  ⟨[]⟩

def size (table : VoteTable) : Nat :=
  table.votes.length

/-- The table with blank votes up to a validator. -/
def grow (table : VoteTable) (validator : ValidatorIndex) : VoteTable :=
  ⟨table.votes ++ List.replicate (validator.toNat + 1 - table.votes.length) .blank⟩

/-- A validator's latest message, if there is one. -/
def get? (table : VoteTable) (validator : ValidatorIndex) : Option Vote :=
  table.votes[validator.toNat]?.filter (!·.isBlank)

/--
Records a message unless the validator has sent one for the same epoch or a later one, and tells
whether it did. No table is large enough for the last validator index.
-/
def record (table : VoteTable) (validator : ValidatorIndex) (root : Root) (epoch : Epoch) :
    Except Overflow (VoteTable × Bool) :=
  if validator.toNat + 1 = UInt64.size then
    .error .addition
  else
    let table := table.grow validator
    let vote := table.votes[validator.toNat]?.getD .blank
    if vote.yieldsTo epoch then
      .ok (⟨table.votes.set validator.toNat { vote with latest := root, epoch }⟩, true)
    else
      .ok (table, false)

def toJson (table : VoteTable) : Json :=
  .list Vote.toJson table.votes

def ofJson? (json : Json) : Option VoteTable :=
  (json.list? Vote.ofJson?).map VoteTable.mk

end VoteTable

end LmdGhost
