import LmdGhost.Checkpoint
/-!
What a node reports while it works, each notice with its level and its text.
-/

namespace LmdGhost

inductive Notice where
  | justified (checkpoint : Checkpoint) (previous : Epoch)
  | finalized (checkpoint : Checkpoint) (previous : Epoch)
  | bestJustified (checkpoint : Checkpoint)
  | headChanged (slot : Slot) (root previous : Root)
  | pruned (count : Nat) (root : Root)
  | invalidated (count : Nat) (root : Root)
  | justificationReverted (justifiedSlot blockSlot : Slot)
deriving DecidableEq

namespace Notice

def level : Notice → String
  | bestJustified _ | headChanged .. | pruned .. => "DEBUG"
  | justified .. | finalized .. => "INFO"
  | invalidated .. | justificationReverted .. => "WARN"

private def moved (kind : String) (checkpoint : Checkpoint) (previous : Epoch) : String :=
  s!"{kind} checkpoint updated (epoch: {checkpoint.epoch}, root: {checkpoint.root.toHex}, " ++
    s!"previous epoch: {previous})"

def message : Notice → String
  | justified checkpoint previous => moved "justified" checkpoint previous
  | finalized checkpoint previous => moved "finalized" checkpoint previous
  | bestJustified checkpoint =>
    s!"best justified checkpoint updated (epoch: {checkpoint.epoch}, " ++
      s!"root: {checkpoint.root.toHex})"
  | headChanged slot root previous =>
    s!"head changed (slot: {slot}, root: {root.toHex}, previous root: {previous.toHex})"
  | pruned count root => s!"pruned {count} blocks from proto-array (finalized root: {root.toHex})"
  | invalidated count root => s!"invalidated {count} blocks descending from {root.toHex}"
  | justificationReverted justifiedSlot blockSlot =>
    s!"block attempted to revert justification (justified slot: {justifiedSlot}, " ++
      s!"block slot: {blockSlot})"

/-- The line of a notice in a log. -/
def line (notice : Notice) : String :=
  notice.level ++ " " ++ notice.message

end Notice

end LmdGhost
