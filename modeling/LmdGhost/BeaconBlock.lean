import LmdGhost.PayloadStatus
import LmdGhost.Root
/-!
Beacon blocks as far as fork choice reads them. A block from before the merge carries the blank
payload, whose block hash is zero.
-/

namespace LmdGhost

structure ExecutionPayload where
  parentHash : Root := .zero
  blockHash : Root := .zero
  number : UInt64 := 0
  timestamp : UnixSeconds := 0
deriving DecidableEq, Inhabited

structure BeaconBlock where
  slot : Slot
  proposer : ValidatorIndex
  parent : Root
  stateRoot : Root
  payload : ExecutionPayload
deriving DecidableEq, Inhabited

namespace ExecutionPayload

def toJson (payload : ExecutionPayload) : Json :=
  .object [
    ("parent_hash", payload.parentHash.toJson),
    ("block_hash", payload.blockHash.toJson),
    ("block_number", .word payload.number),
    ("timestamp", .word payload.timestamp)]

def ofJson? (json : Json) : Option ExecutionPayload := do
  let fields ← json.fieldsWithin? ["parent_hash", "block_hash", "block_number", "timestamp"]
  return {
    parentHash := ← fields.required "parent_hash" Root.ofJson?
    blockHash := ← fields.required "block_hash" Root.ofJson?
    number := ← fields.required "block_number" Json.word?
    timestamp := ← fields.required "timestamp" Json.word? }

end ExecutionPayload

namespace BeaconBlock

/-- The hash of the block's payload, if it carries one. -/
def payloadHash? (block : BeaconBlock) : Option Root :=
  if block.payload.blockHash.isZero then none else some block.payload.blockHash

/-- Whether the block carries a payload. -/
def hasPayload (block : BeaconBlock) : Bool :=
  block.payloadHash?.isSome

/-- Whether the block is the first with a payload on a chain whose last block has this status. -/
def isMergeTransition (block : BeaconBlock) (parent : PayloadStatus) : Bool :=
  parent.isPreMerge && block.hasPayload

def toJson (block : BeaconBlock) : Json :=
  .object [
    ("slot", .word block.slot),
    ("proposer_index", .word block.proposer),
    ("parent_root", block.parent.toJson),
    ("state_root", block.stateRoot.toJson),
    ("execution_payload", block.payload.toJson)]

def ofJson? (json : Json) : Option BeaconBlock := do
  let fields ← json.fieldsWithin?
    ["slot", "proposer_index", "parent_root", "state_root", "execution_payload"]
  return {
    slot := ← fields.required "slot" Json.word?
    proposer := ← fields.required "proposer_index" Json.word?
    parent := ← fields.required "parent_root" Root.ofJson?
    stateRoot := ← fields.required "state_root" Root.ofJson?
    payload := ← fields.required "execution_payload" ExecutionPayload.ofJson? }

end BeaconBlock

end LmdGhost
