import LmdGhost.Proofs.ForkChoice.Rejection
/-!
The first block with a payload. What makes such a block acceptable is told rule by rule: by the
hash that the configuration names or, if it names none, by what the engine behind all proxies knows
of the proof-of-work chain. The check of merge blocks lets through what is acceptable and nothing
else, and the import of a block reports its failures for first blocks with a payload only.
-/

namespace LmdGhost

variable {preset : Preset} {config : ChainConfig} {block : BeaconBlock} {engine : ExecutionEngine}
  {hash terminal : Root} {blocks : List PowBlock}

namespace ExecutionEngine

/-- The engine that all proxies in front of it forward to. -/
def origin : ExecutionEngine → ExecutionEngine
  | .proxy engine => engine.origin
  | .absent => .absent
  | .client reachable optimistic blocks => .client reachable optimistic blocks

/-- The blocks have one of a hash, and this is the latest of them. -/
def Knows (blocks : List PowBlock) (hash : Root) (block : PowBlock) : Prop :=
  ∃ later earlier, blocks = later ++ block :: earlier ∧ block.hash = hash ∧
    ∀ other ∈ later, other.hash ≠ hash

def Lacks (blocks : List PowBlock) (hash : Root) : Prop :=
  ∀ block ∈ blocks, block.hash ≠ hash

theorem isAbsent_origin (engine : ExecutionEngine) : engine.origin.isAbsent = engine.isAbsent := by
  induction engine with
  | absent | client => rfl
  | proxy engine ih => exact ih

theorem isOptimistic_origin (engine : ExecutionEngine) :
    engine.origin.isOptimistic = engine.isOptimistic := by
  induction engine with
  | absent | client => rfl
  | proxy engine ih => exact ih

theorem powBlock?_origin (engine : ExecutionEngine) (hash : Root) :
    engine.origin.powBlock? hash = engine.powBlock? hash := by
  induction engine with
  | absent | client => rfl
  | proxy engine ih => exact ih

/-- Behind all proxies there is no further one. -/
theorem origin_cases (engine : ExecutionEngine) : engine.origin = .absent ∨
    ∃ reachable optimistic blocks, engine.origin = .client reachable optimistic blocks := by
  induction engine with
  | absent => exact .inl rfl
  | client reachable optimistic blocks => exact .inr ⟨_, _, _, rfl⟩
  | proxy engine ih => exact ih

theorem knows_iff {block : PowBlock} :
    Knows blocks hash block ↔ blocks.find? (·.hash = hash) = some block := by
  rw [Knows, List.find?_eq_some_iff_append]
  constructor
  · rintro ⟨later, earlier, split, named, others⟩
    exact ⟨by simpa using named, later, earlier, split, by simpa using others⟩
  · rintro ⟨named, later, earlier, split, others⟩
    exact ⟨later, earlier, split, by simpa using named, by simpa using others⟩

theorem lacks_iff : Lacks blocks hash ↔ blocks.find? (·.hash = hash) = none := by
  simp [Lacks, List.find?_eq_none]

end ExecutionEngine

open ExecutionEngine (Knows Lacks)

namespace MergeTransition

open ForkChoice (Error)

inductive Acceptable (preset : Preset) (config : ChainConfig) (block : BeaconBlock)
    (engine : ExecutionEngine) : Prop where
  /-- It builds on the block that the configuration names, and the epoch for that has come. -/
  | named : config.terminalHash ≠ .zero →
      config.terminalHashEpoch ≤ preset.epochOf block.slot →
      block.payload.parentHash = config.terminalHash → Acceptable preset config block engine
  /-- The configuration names no block, and there is no engine to ask. -/
  | unasked : config.terminalHash = .zero → engine.origin = .absent →
      Acceptable preset config block engine
  /-- It builds on the first block that reaches the terminal difficulty. -/
  | terminal {optimistic : Bool} {blocks : List PowBlock} {terminal parent : PowBlock} :
      config.terminalHash = .zero → engine.origin = .client true optimistic blocks →
      Knows blocks block.payload.parentHash terminal → Knows blocks terminal.parent parent →
      config.terminalDifficulty.toNat ≤ terminal.difficulty.toNat →
      parent.difficulty.toNat < config.terminalDifficulty.toNat →
      Acceptable preset config block engine
  /-- It builds on a block that the engine does not know, and the engine is optimistic. -/
  | unknownBlock {blocks : List PowBlock} :
      config.terminalHash = .zero → engine.origin = .client true true blocks →
      Lacks blocks block.payload.parentHash → Acceptable preset config block engine
  /-- The engine does not know the parent of that block, and it is optimistic. -/
  | unknownParent {blocks : List PowBlock} {terminal : PowBlock} :
      config.terminalHash = .zero → engine.origin = .client true true blocks →
      Knows blocks block.payload.parentHash terminal → Lacks blocks terminal.parent →
      Acceptable preset config block engine

theorem checkTerminal_eq_ok {terminal parent : PowBlock} :
    checkTerminal config terminal parent = .ok () ↔
      config.terminalDifficulty.toNat ≤ terminal.difficulty.toNat ∧
        parent.difficulty.toNat < config.terminalDifficulty.toNat := by
  have reached : terminal.difficulty < config.terminalDifficulty ↔
      ¬config.terminalDifficulty.toNat ≤ terminal.difficulty.toNat := Nat.not_le.symm
  have below : parent.difficulty < config.terminalDifficulty ↔
      parent.difficulty.toNat < config.terminalDifficulty.toNat := .rfl
  rw [checkTerminal]
  split_ifs with early late
  · simp [reached.mp early]
  · simp [Nat.le_of_not_lt early, below.mp late]
  · exact iff_of_false (by simp) fun accepted => late (below.mpr accepted.2)

theorem checkUnknown_eq_ok : checkUnknown engine hash = .ok () ↔ engine.isOptimistic = true := by
  rw [checkUnknown]
  split_ifs with optimistic <;> simp [optimistic]

theorem checkHash_eq_ok : checkHash preset config block terminal = .ok () ↔
    config.terminalHashEpoch ≤ preset.epochOf block.slot ∧ block.payload.parentHash = terminal := by
  rw [checkHash]
  split_ifs with early other
  · simp [UInt64.not_le.mpr early]
  · simp [other]
  · simp [UInt64.not_lt.mp early, not_not.mp other]

/-- An engine that is reachable has to bear out the block, unless it is optimistic. -/
theorem checkDifficulty_eq_ok {reachable optimistic : Bool}
    (client : engine.origin = .client reachable optimistic blocks) :
    checkDifficulty config block engine = .ok () ↔ reachable = true ∧
      ((∃ terminal parent, Knows blocks block.payload.parentHash terminal ∧
          Knows blocks terminal.parent parent ∧
          config.terminalDifficulty.toNat ≤ terminal.difficulty.toNat ∧
          parent.difficulty.toNat < config.terminalDifficulty.toNat) ∨
        optimistic = true ∧ (Lacks blocks block.payload.parentHash ∨
          ∃ terminal, Knows blocks block.payload.parentHash terminal ∧
            Lacks blocks terminal.parent)) := by
  have asked (hash : Root) : engine.powBlock? hash =
      if reachable then .ok (blocks.find? (·.hash = hash)) else .error .unreachable := by
    rw [← engine.powBlock?_origin, client]
    rfl
  have hopeful : engine.isOptimistic = optimistic := by
    rw [← engine.isOptimistic_origin, client]
    rfl
  rw [checkDifficulty]
  cases reachable with
  | false => simp [asked, bind, Except.bind]
  | true =>
    simp only [ExecutionEngine.knows_iff, ExecutionEngine.lacks_iff]
    cases found : blocks.find? (·.hash = block.payload.parentHash) with
    | none => simp [asked, found, bind, Except.bind, checkUnknown_eq_ok, hopeful]
    | some terminal =>
      cases found' : blocks.find? (·.hash = terminal.parent) with
      | none =>
        simp [asked, found, found', bind, Except.bind, checkUnknown_eq_ok, hopeful,
          -List.find?_eq_none]
      | some parent =>
        simp [asked, found, found', bind, Except.bind, checkTerminal_eq_ok, -List.find?_eq_none]

/-- The check of merge blocks lets through what is acceptable, and nothing else. -/
theorem validate_eq_ok :
    validate preset config block engine = .ok () ↔ Acceptable preset config block engine := by
  by_cases unnamed : config.terminalHash = .zero
  · have hash : config.terminalHash? = none := by
      simp [ChainConfig.terminalHash?, Root.isZero, unnamed]
    rw [validate, hash]
    dsimp only
    rcases engine.origin_cases with absent | ⟨reachable, optimistic, blocks, client⟩
    · have alone : engine.isAbsent = true := by
        rw [← engine.isAbsent_origin, absent]
        rfl
      exact iff_of_true (if_pos alone) (.unasked unnamed absent)
    · have asks : engine.isAbsent = false := by
        rw [← engine.isAbsent_origin, client]
        rfl
      rw [asks, if_neg Bool.false_ne_true, checkDifficulty_eq_ok client]
      constructor
      · rintro ⟨rfl, ⟨terminal, parent, known, known', reached, below⟩ |
          ⟨rfl, lacks | ⟨terminal, known, lacks⟩⟩⟩
        · exact .terminal unnamed client known known' reached below
        · exact .unknownBlock unnamed client lacks
        · exact .unknownParent unnamed client known lacks
      · intro accepted
        cases accepted with
        | named other => exact absurd unnamed other
        | unasked _ absent =>
          rw [client] at absent
          contradiction
        | terminal _ origin known known' reached below =>
          cases client.symm.trans origin
          exact ⟨rfl, .inl ⟨_, _, known, known', reached, below⟩⟩
        | unknownBlock _ origin lacks =>
          cases client.symm.trans origin
          exact ⟨rfl, .inr ⟨rfl, .inl lacks⟩⟩
        | unknownParent _ origin known lacks =>
          cases client.symm.trans origin
          exact ⟨rfl, .inr ⟨rfl, .inr ⟨_, known, lacks⟩⟩⟩
  · have hash : config.terminalHash? = some config.terminalHash := by
      simp [ChainConfig.terminalHash?, Root.isZero, unnamed]
    rw [validate, hash]
    dsimp only
    rw [checkHash_eq_ok]
    constructor
    · rintro ⟨reached, builds⟩
      exact .named unnamed reached builds
    · intro accepted
      cases accepted with
      | named _ reached builds => exact ⟨reached, builds⟩
      | unasked zero | terminal zero | unknownBlock zero | unknownParent zero =>
        exact absurd zero unnamed

end MergeTransition

theorem BeaconBlock.isMergeTransition_iff {status : PayloadStatus} :
    block.isMergeTransition status = true ↔
      status = .preMerge ∧ block.payload.blockHash ≠ .zero := by
  rw [isMergeTransition, Bool.and_eq_true, PayloadStatus.isPreMerge, beq_iff_eq, hasPayload,
    payloadHash?]
  refine and_congr_right fun _ => ?_
  split_ifs with blank <;> simpa [Root.isZero] using blank

namespace ForkChoice

variable {fc : ForkChoice} {state : PostState} {arrival : Arrival} {parent : Node} {cause : Error}

theorem Error.not_ofState_of_merge (expected : cause.ofMerge = true) : cause.ofState = false := by
  cases cause <;> first | rfl | contradiction

/-- Once a block is found timely on a known parent, failures of the merge come from its check. -/
theorem onBlock_eq_merge_error (known : fc.knownParent block arrival.root = .ok parent)
    (timely : fc.checkSlot block = .ok ()) (final : fc.checkFinality block = .ok ())
    (expected : cause.ofMerge = true) :
    (fc.onBlock block state arrival engine).result = .error cause ↔
      fc.checkMerge block parent engine = .error cause := by
  have other := Error.not_ofState_of_merge expected
  have target := (fc.targetRoot_fails block.slot arrival.root state).ne_error other
  have advance := (fc.advance?_fails state arrival.balances).ne_error other
  rw [onBlock_eq_error, vet]
  simp [except_bind_eq_error, known, timely, final, target, advance, pure, Except.pure]

theorem checkMerge_eq_error : fc.checkMerge block parent engine = .error cause ↔
    MergeTransition.validate fc.preset fc.config block engine = .error cause ∧
      parent.status = .preMerge ∧ block.payload.blockHash ≠ .zero := by
  rw [checkMerge, ← BeaconBlock.isMergeTransition_iff]
  split_ifs with first <;> simp [first]

/--
For every configuration, block and engine, the check of merge blocks lets through what is
acceptable, and refuses the rest for causes of its own. For a block that has passed the checks of
its parent, its slot and finality, the import reports such a cause if and only if the check fails
for it and the block is the first with a payload.
-/
theorem mergeBlock_checked :
    (∀ preset config block engine,
      (MergeTransition.validate preset config block engine = .ok () ↔
        MergeTransition.Acceptable preset config block engine) ∧
      FailsFor Error.ofMerge (MergeTransition.validate preset config block engine)) ∧
    ∀ (fc : ForkChoice) block state arrival engine parent,
      fc.knownParent block arrival.root = .ok parent → fc.checkSlot block = .ok () →
      fc.checkFinality block = .ok () → ∀ cause : Error, cause.ofMerge = true →
        ((fc.onBlock block state arrival engine).result = .error cause ↔
          MergeTransition.validate fc.preset fc.config block engine = .error cause ∧
            parent.status = .preMerge ∧ block.payload.blockHash ≠ .zero) := by
  refine ⟨fun preset config block engine => ⟨MergeTransition.validate_eq_ok, ?_⟩, ?_⟩
  · exact validate_fails preset config block engine
  · intro fc block state arrival engine parent known timely final cause expected
    rw [onBlock_eq_merge_error known timely final expected, checkMerge_eq_error]

/-- The terminal difficulty is low enough for a proof-of-work chain that is written out. -/
def lowDifficulty : ChainConfig :=
  { ChainConfig.minimal with terminalDifficulty := .ofNat 100 }

theorem preMerge_starts :
    (start .minimal lowDifficulty .pruneEagerly { genesis with status := .preMerge } 0
      genesisBalances).toOption.isSome = true := by
  decide +kernel

def atPreMerge : ForkChoice :=
  (start .minimal lowDifficulty .pruneEagerly { genesis with status := .preMerge } 0
    genesisBalances).toOption.get preMerge_starts

def engineKnowing (parentDifficulty : Nat) : ExecutionEngine :=
  .proxy (.client true false [⟨.ofNat 12, .ofNat 11, .ofNat 100⟩,
    ⟨.ofNat 11, .ofNat 10, .ofNat parentDifficulty⟩])

/-- A first block with a payload builds on a block whose parent has reached the difficulty too. -/
theorem mergeBlock_checked_by_difficulty :
    ∃ block state arrival,
      MergeTransition.Acceptable .minimal lowDifficulty block (engineKnowing 99) ∧
      ¬MergeTransition.Acceptable .minimal lowDifficulty block (engineKnowing 100) ∧
      start .minimal lowDifficulty .pruneEagerly { genesis with status := .preMerge } 0
        genesisBalances = .ok atPreMerge ∧
      ((atPreMerge.after (.time 1)).onBlock block state arrival (engineKnowing 100)).result =
        .error (.invalidBlock (.terminalDifficultyReachedByParent
          ⟨.ofNat 12, .ofNat 11, .ofNat 100⟩ ⟨.ofNat 11, .ofNat 10, .ofNat 100⟩)) := by
  let block : BeaconBlock :=
    { slot := 1, proposer := 0, parent := .ofNat 1, stateRoot := .zero
      payload := { parentHash := .ofNat 12, blockHash := .ofNat 20 } }
  let state : PostState :=
    { slot := 1, justified := ⟨0, .ofNat 1⟩, finalized := ⟨0, .ofNat 1⟩, genesisTime := 0
      blockRootAt := fun _ => none }
  let arrival : Arrival := { root := .ofNat 2, delay := ⟨0⟩, balances := none, status := .valid }
  obtain ⟨accepts, reports⟩ := mergeBlock_checked
  obtain ⟨parent, found, status⟩ : ∃ parent,
      (atPreMerge.after (.time 1)).tree.node? (.ofNat 1) = some parent ∧
        parent.status = .preMerge := Option.map_eq_some_iff.mp (by decide +kernel)
  have known : (atPreMerge.after (.time 1)).knownParent block arrival.root = .ok parent := by
    simp [knownParent, block, found]
  refine ⟨block, state, arrival, (accepts _ _ _ _).1.mp (by decide +kernel), ?_,
    Outcome.eq_ok_get preMerge_starts, ?_⟩
  · rw [← (accepts _ _ _ _).1]
    decide +kernel
  · exact (reports _ block state arrival _ parent known (by decide +kernel) (by decide +kernel) _
      rfl).mpr ⟨by decide +kernel, status, by decide⟩

end ForkChoice

end LmdGhost
