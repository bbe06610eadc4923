import LmdGhost.Difficulty
import LmdGhost.Root
/-!
The execution engine, which knows the blocks of the proof-of-work chain. A node may run without one,
and an engine may be asked through a proxy that forwards every question.
-/

namespace LmdGhost

/-- A block of the proof-of-work chain. -/
structure PowBlock where
  hash : Root
  parent : Root
  difficulty : Difficulty
deriving DecidableEq, Inhabited

namespace PowBlock

def describe (block : PowBlock) : String :=
  s!"PowBlock \x7b block_hash: {block.hash.toHex}, parent_hash: {block.parent.toHex}, " ++
    s!"total_difficulty: {block.difficulty.toDecimal} \x7d"

def toJson (block : PowBlock) : Json :=
  .object [
    ("block_hash", block.hash.toJson),
    ("parent_hash", block.parent.toJson),
    ("total_difficulty", .string block.difficulty.toHex)]

def ofJson? (json : Json) : Option PowBlock := do
  let fields ← json.fieldsWithin? ["block_hash", "parent_hash", "total_difficulty"]
  return {
    hash := ← fields.required "block_hash" Root.ofJson?
    parent := ← fields.required "parent_hash" Root.ofJson?
    difficulty :=
      ← fields.required "total_difficulty" fun json => json.string?.bind Difficulty.ofHex? }

end PowBlock

inductive ExecutionEngine where
  /-- The node runs without an engine. -/
  | absent
  /-- An engine with the blocks it knows, the latest first. -/
  | client (reachable optimistic : Bool) (blocks : List PowBlock)
  /-- An engine behind a proxy. -/
  | proxy (engine : ExecutionEngine)

namespace ExecutionEngine

inductive Error where
  | unreachable
deriving DecidableEq, Repr

def Error.message : Error → String
  | .unreachable => "execution engine is unreachable"

def isAbsent : ExecutionEngine → Bool
  | .absent => true
  | .client .. => false
  | .proxy engine => engine.isAbsent

/-- Whether a merge block may be imported while its proof-of-work blocks are unknown. -/
def isOptimistic : ExecutionEngine → Bool
  | .absent => false
  | .client _ optimistic _ => optimistic
  | .proxy engine => engine.isOptimistic

/-- The proof-of-work block with a hash, if the engine knows it. -/
def powBlock? : ExecutionEngine → Root → Except Error (Option PowBlock)
  | .absent, _ => .ok none
  | .client reachable _ blocks, hash =>
    if reachable then .ok (blocks.find? (·.hash = hash)) else .error .unreachable
  | .proxy engine, hash => engine.powBlock? hash

/-- The engine after it has learnt of a block, which replaces an earlier one with its hash. -/
def learn : ExecutionEngine → PowBlock → ExecutionEngine
  | .absent, _ => .absent
  | .client reachable optimistic blocks, block => .client reachable optimistic (block :: blocks)
  | .proxy engine, block => .proxy (engine.learn block)

end ExecutionEngine

end LmdGhost
