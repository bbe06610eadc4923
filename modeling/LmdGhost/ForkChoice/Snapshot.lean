import LmdGhost.BlockTree.Json
import LmdGhost.ForkChoice.Head
/-!
Starting fork choice: from an anchor block that is trusted, or from a snapshot taken before.
Either way the head is computed before the first call. A snapshot has a JSON form; the
configuration, the settings and the remembered attestation data are not part of it.
-/

namespace LmdGhost

/-- All that is needed to resume fork choice. -/
structure Snapshot where
  tree : BlockTree
  votes : VoteTable
  queue : List QueuedAttestation
  justified : Checkpoint
  finalized : Checkpoint
  bestJustified : Checkpoint
  justifiedBalances : Balances
  bestJustifiedBalances : Balances
  appliedBalances : Balances
  slot : Slot
  boostRoot : Option Root

namespace Snapshot

/-- The store of a snapshot. -/
def store (snapshot : Snapshot) : Store where
  slot := snapshot.slot
  justified := snapshot.justified
  justifiedBalances := snapshot.justifiedBalances
  finalized := snapshot.finalized
  bestJustified := snapshot.bestJustified
  bestJustifiedBalances := snapshot.bestJustifiedBalances

def toJson (snapshot : Snapshot) : Json :=
  .object [
    ("proto_array", snapshot.tree.toJson),
    ("votes", snapshot.votes.toJson),
    ("queued_attestations", .list QueuedAttestation.toJson snapshot.queue),
    ("justified", snapshot.justified.toJson),
    ("finalized", snapshot.finalized.toJson),
    ("best_justified", snapshot.bestJustified.toJson),
    ("justified_balances", .list .word snapshot.justifiedBalances),
    ("best_justified_balances", .list .word snapshot.bestJustifiedBalances),
    ("applied_balances", .list .word snapshot.appliedBalances),
    ("current_slot", .word snapshot.slot),
    ("proposer_boost_root", .option Root.toJson snapshot.boostRoot)]

/--
The snapshot that fork choice starts from at an anchor, justified and finalized in its own epoch.
-/
def ofAnchor (preset : Preset) (settings : NodeSettings) (anchor : Block) (slot : Slot)
    (balances : Balances) : Snapshot :=
  let checkpoint : Checkpoint := { epoch := preset.epochOf anchor.slot, root := anchor.root }
  let tree := BlockTree.empty settings.pruneThreshold checkpoint.epoch checkpoint.epoch
  {
    tree := tree.insert { anchor with justified := checkpoint, finalized := checkpoint }
    votes := .empty
    queue := []
    justified := checkpoint
    finalized := checkpoint
    bestJustified := checkpoint
    justifiedBalances := balances
    bestJustifiedBalances := balances
    appliedBalances := balances
    slot
    boostRoot := none }

/-- Reads the fields of a snapshot other than the tree, which is given. -/
def ofFields? (tree : BlockTree) (fields : Json.Fields) : Option Snapshot := do
  let balances? := Json.list? Json.word?
  return {
    tree
    votes := ← fields.required "votes" VoteTable.ofJson?
    queue := ← fields.required "queued_attestations" (Json.list? QueuedAttestation.ofJson?)
    justified := ← fields.required "justified" Checkpoint.ofJson?
    finalized := ← fields.required "finalized" Checkpoint.ofJson?
    bestJustified := ← fields.required "best_justified" Checkpoint.ofJson?
    justifiedBalances := ← fields.required "justified_balances" balances?
    bestJustifiedBalances := ← fields.required "best_justified_balances" balances?
    appliedBalances := ← fields.required "applied_balances" balances?
    slot := ← fields.required "current_slot" Json.word?
    boostRoot := ← fields.optional "proposer_boost_root" Root.ofJson? }

/-- Whether a field other than the tree is one of a snapshot and can be read. -/
def isReadable : String × Json → Bool
  | ("votes", json) => (VoteTable.ofJson? json).isSome
  | ("queued_attestations", json) => (json.list? QueuedAttestation.ofJson?).isSome
  | ("justified", json) | ("finalized", json) | ("best_justified", json) =>
    (Checkpoint.ofJson? json).isSome
  | ("justified_balances", json) | ("best_justified_balances", json)
  | ("applied_balances", json) => (json.list? Json.word?).isSome
  | ("current_slot", json) => json.word?.isSome
  | ("proposer_boost_root", json) => (json.option? Root.ofJson?).isSome
  | _ => false

/--
Reads a snapshot that lists no other fields than its own. A faulty link in the tree is the cause
of a failure only if all fields listed before the tree can be read.
-/
def ofJson (json : Json) : Except BlockTree.DecodeError Snapshot := do
  let keys := [
    "proto_array", "votes", "queued_attestations", "justified", "finalized", "best_justified",
    "justified_balances", "best_justified_balances", "applied_balances", "current_slot",
    "proposer_boost_root"]
  let some fields := json.fields? | throw .malformed
  let some treeJson := fields.lookup "proto_array" | throw .malformed
  match BlockTree.ofJson treeJson with
  | .error cause =>
    throw (if (fields.takeWhile (·.1 != "proto_array")).all isReadable then cause else .malformed)
  | .ok tree =>
    match ofFields? tree fields with
    | some snapshot => if fields.within keys then return snapshot else throw .malformed
    | none => throw .malformed

end Snapshot

namespace ForkChoice

/-- Resumes from a snapshot and computes the head, with the notices that this gives. -/
def resume (preset : Preset) (config : ChainConfig) (settings : NodeSettings)
    (snapshot : Snapshot) : Except Error (ForkChoice × List Notice) := do
  config.validate.mapError .config
  match snapshot.tree.node? snapshot.justified.root with
  | none => throw (.missingBlock snapshot.justified.root)
  | some head =>
    let fc : ForkChoice := {
      preset, config, settings, head
      store := snapshot.store
      tree := snapshot.tree
      votes := snapshot.votes
      queue := snapshot.queue
      validated := []
      boostRoot := snapshot.boostRoot
      appliedBalances := snapshot.appliedBalances
      synced := false }
    let updated := fc.updateHead
    match updated.result with
    | .error cause => throw cause
    | .ok _ => return (updated.state, updated.log)

/-- Starts from a trusted anchor block. -/
def start (preset : Preset) (config : ChainConfig) (settings : NodeSettings) (anchor : Block)
    (slot : Slot) (balances : Balances) : Except Error ForkChoice :=
  (resume preset config settings (.ofAnchor preset settings anchor slot balances)).map (·.1)

/-- The snapshot of fork choice as it is. -/
def snapshot (fc : ForkChoice) : Snapshot where
  tree := fc.tree
  votes := fc.votes
  queue := fc.queue
  justified := fc.store.justified
  finalized := fc.store.finalized
  bestJustified := fc.store.bestJustified
  justifiedBalances := fc.store.justifiedBalances
  bestJustifiedBalances := fc.store.bestJustifiedBalances
  appliedBalances := fc.appliedBalances
  slot := fc.store.slot
  boostRoot := fc.boostRoot

end ForkChoice

end LmdGhost
