import LmdGhost.Attestation
import LmdGhost.BlockTree.Chain
import LmdGhost.ForkChoice.Error
import LmdGhost.NodeSettings
import LmdGhost.Store
import LmdGhost.VoteTable.Basic
/-!
The state of fork choice and the questions it answers without changing. Weights and head are
brought up to date on demand: every change in between only takes note that they are out of date.
-/

namespace LmdGhost

structure ForkChoice where
  preset : Preset
  config : ChainConfig
  settings : NodeSettings
  store : Store
  tree : BlockTree
  votes : VoteTable
  /-- Attestations for the current slot or later, in order of arrival. -/
  queue : List QueuedAttestation
  /-- Attestation data found valid since time last moved. -/
  validated : List AttestationData
  /-- The first timely block of the current slot. -/
  boostRoot : Option Root
  /-- The balances that the weights in the tree were computed with. -/
  appliedBalances : Balances
  /-- Whether the weights take account of all votes and blocks. -/
  synced : Bool
  /-- The head as it was when it was last computed. -/
  head : Node

namespace ForkChoice

/-- The first slot of the finalized epoch. -/
def finalizedSlot (fc : ForkChoice) : Slot :=
  fc.preset.startSlot fc.store.finalized.epoch

def currentEpoch (fc : ForkChoice) : Epoch :=
  fc.preset.epochOf fc.store.slot

/-- The node of a block that should be in the tree. -/
def requiredNode (fc : ForkChoice) (root : Root) : Except Error Node :=
  match fc.tree.node? root with
  | some node => .ok node
  | none => .error (.missingBlock root)

def justifiedBlock (fc : ForkChoice) : Except Error Node :=
  fc.requiredNode fc.store.justified.root

def finalizedBlock (fc : ForkChoice) : Except Error Node :=
  fc.requiredNode fc.store.finalized.root

/-- The block of a root's chain at a slot, or the last one before it. -/
def ancestor (fc : ForkChoice) (root : Root) (slot : Slot) : Except Error (Option Root) :=
  (fc.tree.ancestor root slot).mapError Error.ofTree

/-- Whether the finalized block is a block or one of its ancestors. -/
def descendsFromFinalized (fc : ForkChoice) (root : Root) : Bool :=
  fc.tree.isDescendant fc.store.finalized.root root

/-- Whether a block is in the tree and descends from the finalized one. -/
def contains (fc : ForkChoice) (root : Root) : Bool :=
  fc.tree.contains root && fc.descendsFromFinalized root

/-- The node of a block that descends from the finalized one. -/
def block? (fc : ForkChoice) (root : Root) : Option Node :=
  (fc.tree.node? root).filter fun node => fc.descendsFromFinalized node.root

/-- The block of the head's chain at exactly a slot. -/
def canonicalBlock? (fc : ForkChoice) (slot : Slot) : Option Node :=
  ((fc.tree.chain fc.head.root).find? (·.slot ≤ slot)).filter (·.slot == slot)

def latestMessage? (fc : ForkChoice) (validator : ValidatorIndex) : Option Vote :=
  fc.votes.get? validator

/-- Whether a block was imported ahead of the verdict on its payload. -/
def isOptimistic (fc : ForkChoice) (root : Root) : Bool :=
  (fc.tree.node? root).any (·.status.isOptimistic)

end ForkChoice

end LmdGhost
