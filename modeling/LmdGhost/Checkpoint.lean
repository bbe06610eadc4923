import LmdGhost.Root
/-!
A checkpoint names the block that stands for an epoch.
-/

namespace LmdGhost

structure Checkpoint where
  epoch : Epoch
  root : Root
deriving DecidableEq, Inhabited

namespace Checkpoint

def describe (checkpoint : Checkpoint) : String :=
  s!"Checkpoint \x7b epoch: {checkpoint.epoch}, root: {checkpoint.root.toHex} \x7d"

def toJson (checkpoint : Checkpoint) : Json :=
  .object [("epoch", .word checkpoint.epoch), ("root", checkpoint.root.toJson)]

def ofJson? (json : Json) : Option Checkpoint := do
  let fields ← json.fieldsWithin? ["epoch", "root"]
  return {
    epoch := ← fields.required "epoch" Json.word?
    root := ← fields.required "root" Root.ofJson? }

end Checkpoint

end LmdGhost
