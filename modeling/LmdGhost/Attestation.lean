import LmdGhost.Checkpoint
/-!
Attestations: votes of validators for a head block and for a target checkpoint. Signatures are
checked elsewhere, so none are held here.
-/

namespace LmdGhost

/-- What the attesters of a committee agree on. -/
structure AttestationData where
  slot : Slot
  committee : CommitteeIndex
  head : Root
  source : Checkpoint
  target : Checkpoint
deriving DecidableEq, Inhabited

structure Attestation where
  validators : List ValidatorIndex
  data : AttestationData
deriving DecidableEq, Inhabited

/-- An attestation that waits until its slot has passed. -/
structure QueuedAttestation where
  slot : Slot
  validators : List ValidatorIndex
  head : Root
  targetEpoch : Epoch
deriving DecidableEq, Inhabited

namespace AttestationData

def toJson (data : AttestationData) : Json :=
  .object [
    ("slot", .word data.slot),
    ("index", .word data.committee),
    ("beacon_block_root", data.head.toJson),
    ("source", data.source.toJson),
    ("target", data.target.toJson)]

def ofJson? (json : Json) : Option AttestationData := do
  let fields ← json.fieldsWithin? ["slot", "index", "beacon_block_root", "source", "target"]
  return {
    slot := ← fields.required "slot" Json.word?
    committee := ← fields.required "index" Json.word?
    head := ← fields.required "beacon_block_root" Root.ofJson?
    source := ← fields.required "source" Checkpoint.ofJson?
    target := ← fields.required "target" Checkpoint.ofJson? }

end AttestationData

namespace Attestation

def toJson (attestation : Attestation) : Json :=
  .object [
    ("attesting_indices", .list .word attestation.validators),
    ("data", attestation.data.toJson)]

def ofJson? (json : Json) : Option Attestation := do
  let fields ← json.fieldsWithin? ["attesting_indices", "data"]
  return {
    validators := ← fields.required "attesting_indices" (Json.list? Json.word?)
    data := ← fields.required "data" AttestationData.ofJson? }

end Attestation

namespace QueuedAttestation

def toJson (attestation : QueuedAttestation) : Json :=
  .object [
    ("slot", .word attestation.slot),
    ("attesting_indices", .list .word attestation.validators),
    ("block_root", attestation.head.toJson),
    ("target_epoch", .word attestation.targetEpoch)]

def ofJson? (json : Json) : Option QueuedAttestation := do
  let fields ← json.fieldsWithin? ["slot", "attesting_indices", "block_root", "target_epoch"]
  return {
    slot := ← fields.required "slot" Json.word?
    validators := ← fields.required "attesting_indices" (Json.list? Json.word?)
    head := ← fields.required "block_root" Root.ofJson?
    targetEpoch := ← fields.required "target_epoch" Json.word? }

end QueuedAttestation

end LmdGhost
