import LmdGhost.Json
/-!
The verdict on a block's execution payload. A block from before the merge has no payload to judge; a
block imported before the verdict is syncing until it is known.
-/

namespace LmdGhost

inductive PayloadStatus where
  | preMerge
  | syncing
  | valid
  | invalid
deriving DecidableEq, Inhabited, Repr

namespace PayloadStatus

def name : PayloadStatus → String
  | preMerge => "pre_merge"
  | syncing => "syncing"
  | valid => "valid"
  | invalid => "invalid"

def ofName? : String → Option PayloadStatus
  | "pre_merge" => some preMerge
  | "syncing" => some syncing
  | "valid" => some valid
  | "invalid" => some invalid
  | _ => none

@[simp]
theorem ofName?_name (status : PayloadStatus) : ofName? status.name = some status := by
  cases status <;> rfl

def isPreMerge (status : PayloadStatus) : Bool :=
  status == preMerge

/-- Whether the block was imported ahead of the verdict on its payload. -/
def isOptimistic (status : PayloadStatus) : Bool :=
  status == syncing

def isValid (status : PayloadStatus) : Bool :=
  status == valid

def isInvalid (status : PayloadStatus) : Bool :=
  status == invalid

def toJson (status : PayloadStatus) : Json :=
  .string status.name

/-- Reads a name, alone or as the only key of an object that maps it to null. -/
def ofJson? : Json → Option PayloadStatus
  | .string text => ofName? text
  | .object [(text, .null)] => ofName? text
  | _ => none

end PayloadStatus

end LmdGhost
