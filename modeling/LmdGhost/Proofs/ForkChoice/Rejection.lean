import LmdGhost.Proofs.ForkChoice.Calls
/-!
Blocks that are refused. Only the checks refuse a block, and they change nothing: once a block is
admitted, the checkpoints follow its state without fail. So a refusal has one of the causes that
the checks report, and it leaves fork choice as it was.
-/

namespace LmdGhost.ForkChoice

def Error.isRefusal : Error → Bool
  | invalidBlock _ | missingBlock _ | missingTarget _ | missingBalances _
  | justificationReverted _ _ | engine _ => true
  | _ => false

/-- The causes for which even a block that follows the protocol may be refused. -/
def Error.ofBlockOrEngine : Error → Bool
  | invalidBlock _ | engine _ => true
  | _ => false

def Error.ofMerge : Error → Bool
  | invalidBlock (.mergeTooEarly _ _) | invalidBlock (.terminalHashMismatch _ _)
  | invalidBlock (.terminalDifficultyNotReached _ _)
  | invalidBlock (.terminalDifficultyReachedByParent _ _)
  | invalidBlock (.powBlockUnavailable _) | engine _ => true
  | _ => false

def Error.ofState : Error → Bool
  | missingBlock _ | missingTarget _ | missingBalances _ | justificationReverted _ _ => true
  | _ => false

/-- A check that fails only for causes of a kind. -/
def FailsFor {α : Type} (kind : Error → Bool) (check : Except Error α) : Prop :=
  ∀ cause, check = .error cause → kind cause = true

namespace FailsFor

variable {α β : Type} {kind kind' : Error → Bool} {check : Except Error α}
  {next : α → Except Error β} {cause : Error}

@[simp]
theorem ok (a : α) : FailsFor kind (.ok a) :=
  nofun

@[simp]
theorem error_iff : FailsFor kind (.error cause : Except Error α) ↔ kind cause = true := by
  constructor
  · intro fails
    exact fails cause rfl
  · rintro expected _ ⟨⟩
    exact expected

theorem passed (fails : FailsFor kind (.error cause : Except Error α)) :
    FailsFor kind (.error cause : Except Error β) :=
  error_iff.mpr (error_iff.mp fails)

theorem mono (fails : FailsFor kind check)
    (implied : ∀ {cause}, kind cause = true → kind' cause = true) : FailsFor kind' check :=
  fun cause failed => implied (fails cause failed)

theorem ne_error (fails : FailsFor kind check) (other : kind cause = false) :
    check ≠ .error cause := by
  intro failed
  rw [fails cause failed] at other
  contradiction

theorem bind (first : FailsFor kind check)
    (rest : ∀ a, check = .ok a → FailsFor kind (next a)) : FailsFor kind (check >>= next) := by
  cases check with
  | error cause => exact first.passed
  | ok a => exact rest a rfl

end FailsFor

abbrev Refuses {α : Type} (check : Except Error α) : Prop :=
  FailsFor Error.isRefusal check

variable {fc : ForkChoice} {block : BeaconBlock} {state : PostState} {arrival : Arrival}
  {engine : ExecutionEngine} {cause : Error}

theorem Error.isRefusal_of_blockOrEngine (expected : cause.ofBlockOrEngine = true) :
    cause.isRefusal = true := by
  cases cause <;> first | rfl | contradiction

theorem Error.blockOrEngine_of_merge (expected : cause.ofMerge = true) :
    cause.ofBlockOrEngine = true := by
  cases cause <;> first | rfl | contradiction

theorem Error.isRefusal_of_state (expected : cause.ofState = true) : cause.isRefusal = true := by
  cases cause <;> first | rfl | contradiction

theorem ancestor_fails (fc : ForkChoice) (root : Root) (slot : Slot) :
    FailsFor Error.ofState (fc.ancestor root slot) := by
  rw [ForkChoice.ancestor, BlockTree.ancestor]
  split
  · exact .ok _
  · exact FailsFor.error_iff.mpr rfl

theorem knownParent_fails (fc : ForkChoice) (block : BeaconBlock) (root : Root) :
    FailsFor Error.ofBlockOrEngine (fc.knownParent block root) := by
  rw [knownParent]
  split <;> simp [Error.ofBlockOrEngine]

theorem checkSlot_fails (fc : ForkChoice) (block : BeaconBlock) :
    FailsFor Error.ofBlockOrEngine (fc.checkSlot block) := by
  rw [checkSlot]
  split_ifs <;> simp [Error.ofBlockOrEngine]

theorem powBlock?_fails (engine : ExecutionEngine) (hash : Root) :
    FailsFor Error.ofMerge ((engine.powBlock? hash).mapError .engine) := by
  cases engine.powBlock? hash <;> simp [Error.ofMerge]

theorem checkDifficulty_fails (config : ChainConfig) (block : BeaconBlock)
    (engine : ExecutionEngine) :
    FailsFor Error.ofMerge (MergeTransition.checkDifficulty config block engine) := by
  have unknown (hash : Root) :
      FailsFor Error.ofMerge (MergeTransition.checkUnknown engine hash) := by
    rw [MergeTransition.checkUnknown]
    split <;> simp [Error.ofMerge]
  rw [MergeTransition.checkDifficulty]
  refine (powBlock?_fails engine _).bind fun found _ => ?_
  cases found with
  | none => exact unknown _
  | some terminal =>
    refine (powBlock?_fails engine _).bind fun found _ => ?_
    cases found with
    | none => exact unknown _
    | some parent =>
      simp only [MergeTransition.checkTerminal]
      split_ifs <;> simp [Error.ofMerge]

theorem validate_fails (preset : Preset) (config : ChainConfig) (block : BeaconBlock)
    (engine : ExecutionEngine) :
    FailsFor Error.ofMerge (MergeTransition.validate preset config block engine) := by
  rw [MergeTransition.validate]
  split
  · rw [MergeTransition.checkHash]
    split_ifs <;> simp [Error.ofMerge]
  · split
    · exact .ok ()
    · exact checkDifficulty_fails config block engine

theorem checkMerge_fails (fc : ForkChoice) (block : BeaconBlock) (parent : Node)
    (engine : ExecutionEngine) :
    FailsFor Error.ofMerge (fc.checkMerge block parent engine) := by
  rw [checkMerge]
  split
  · exact validate_fails fc.preset fc.config block engine
  · exact .ok ()

theorem targetRoot_fails (fc : ForkChoice) (slot : Slot) (root : Root) (state : PostState) :
    FailsFor Error.ofState (fc.targetRoot slot root state) := by
  rw [targetRoot]
  split
  · exact .ok _
  · split <;> simp [Error.ofState]

theorem mayJustify_fails (fc : ForkChoice) (state : PostState) :
    FailsFor Error.ofState (fc.mayJustify state) := by
  rw [mayJustify]
  split_ifs
  · exact .ok _
  · exact FailsFor.error_iff.mpr rfl
  · exact .ok _
  · have fails := ancestor_fails fc state.justified.root
      (fc.preset.startSlot fc.store.justified.epoch)
    generalize fc.ancestor state.justified.root _ = found at fails
    cases found with
    | error cause => exact fails.passed
    | ok ancestor => exact .ok _

theorem advance?_fails (fc : ForkChoice) (state : PostState) (balances : Option Balances) :
    FailsFor Error.ofState (fc.advance? state balances) := by
  simp only [advance?]
  split
  · cases balances with
    | none => exact FailsFor.error_iff.mpr rfl
    | some balances =>
      dsimp only
      split
      · exact .ok _
      · have fails := mayJustify_fails fc state
        generalize fc.mayJustify state = permission at fails
        cases permission with
        | error cause => exact fails.passed
        | ok justify => exact .ok _
  · exact .ok _

theorem vet_refuses (fc : ForkChoice) (block : BeaconBlock) (state : PostState)
    (arrival : Arrival) (engine : ExecutionEngine) :
    Refuses (fc.vet block state arrival engine) := by
  have of_block {α : Type} {check : Except Error α} (fails : FailsFor Error.ofBlockOrEngine check) :
      Refuses check := fails.mono Error.isRefusal_of_blockOrEngine
  have of_state {α : Type} {check : Except Error α} (fails : FailsFor Error.ofState check) :
      Refuses check := fails.mono Error.isRefusal_of_state
  have final : Refuses (fc.checkFinality block) := by
    rw [checkFinality]
    have refuses := of_state (fc.ancestor_fails block.parent fc.finalizedSlot)
    generalize fc.ancestor block.parent fc.finalizedSlot = found at refuses
    cases found with
    | error cause => exact refuses.passed
    | ok ancestor =>
      dsimp only
      split <;> simp [Error.isRefusal]
  rw [vet]
  refine (of_block (fc.knownParent_fails block arrival.root)).bind fun parent _ => ?_
  refine (of_block (fc.checkSlot_fails block)).bind fun _ _ => final.bind fun _ _ => ?_
  have merge := (fc.checkMerge_fails block parent engine).mono Error.blockOrEngine_of_merge
  refine (of_block merge).bind fun _ _ => ?_
  refine (of_state (fc.targetRoot_fails block.slot arrival.root state)).bind fun _ _ => ?_
  exact (of_state (fc.advance?_fails state arrival.balances)).bind fun _ _ => .ok _

/--
A block that is rejected leaves fork choice exactly as it was, whatever the block, its state, its
arrival and the engine are. The cause is one that the checks report, so never one of the store.
-/
theorem onBlock_rejected
    (rejected : (fc.onBlock block state arrival engine).result = .error cause) :
    (fc.onBlock block state arrival engine).state = fc ∧
      fc.vet block state arrival engine = .error cause ∧ cause.isRefusal = true ∧
        ∀ regression, cause ≠ .store regression := by
  cases vetted : fc.vet block state arrival engine with
  | ok admission =>
    rw [(onBlock_of_admitted vetted).1] at rejected
    contradiction
  | error reported =>
    obtain ⟨result, same⟩ := onBlock_of_refused vetted
    rw [result] at rejected
    cases rejected
    have refusal := vet_refuses fc block state arrival engine cause vetted
    refine ⟨same, rfl, refusal, ?_⟩
    rintro regression rfl
    exact absurd refusal Bool.false_ne_true

/-- A block whose state is ahead in both checkpoints, of which the balances are not known. -/
theorem onBlock_rejected_without_balances :
    ∃ history fc block state arrival, Run after (fun _ _ _ => True) atGenesis history fc ∧
      (fc.onBlock block state arrival .absent).result = .error (.missingBalances (.ofNat 2)) ∧
      (fc.onBlock block state arrival .absent).state = fc := by
  have outset : Run after (fun _ _ _ => True) atGenesis [] atGenesis := .start
  obtain ⟨history, run⟩ := outset.calls
    [.time 8, epochBlock 8 2 1 ⟨0, .ofNat 1⟩ ⟨0, .ofNat 1⟩, .head, .time 16]
  let block : BeaconBlock :=
    { slot := 16, proposer := 0, parent := .ofNat 2, stateRoot := .zero, payload := {} }
  let state : PostState :=
    { slot := 16, justified := ⟨1, .ofNat 2⟩, finalized := ⟨1, .ofNat 2⟩, genesisTime := 0
      blockRootAt := fun _ => none }
  let arrival : Arrival :=
    { root := .ofNat 3, delay := ⟨0⟩, balances := none, status := .valid }
  refine ⟨history, _, block, state, arrival, run, ?_, ?_⟩
  · decide +kernel
  · exact (@onBlock_rejected _ _ _ _ _ (.missingBalances (.ofNat 2)) (by decide +kernel)).1

end LmdGhost.ForkChoice
