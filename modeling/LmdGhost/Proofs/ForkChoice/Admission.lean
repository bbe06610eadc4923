import LmdGhost.Proofs.BlockTree.Walks
import LmdGhost.Proofs.ForkChoice.Checkpoints
import LmdGhost.Proofs.ForkChoice.Finality
import LmdGhost.Proofs.ForkChoice.Rejection
/-!
Blocks that follow the protocol. Where all accepted blocks do, a block that does so too is imported,
or refused for a rule that it breaks or for a failure of the engine: its checkpoints are early
enough not to revert anything, and the justified block is in the tree, because the walk from the
block to the finalized one comes by it.
-/

namespace LmdGhost

theorem Preset.startSlot_lt (preset : Preset) {epoch : Epoch} {slot : Slot}
    (order : epoch < preset.epochOf slot) : preset.startSlot epoch < slot := by
  have positive : 0 < preset.slotsPerEpoch.toNat := by cases preset <;> decide
  rw [UInt64.lt_iff_toNat_lt, epochOf, UInt64.toNat_div] at order
  rw [UInt64.lt_iff_toNat_lt, startSlot, Word.toNat_satMul]
  have product := (Nat.le_div_iff_mul_le positive).mp order
  rw [Nat.succ_mul] at product
  omega

namespace ForkChoice

variable {fc fc' : ForkChoice} {block : BeaconBlock} {state : PostState} {arrival : Arrival}
  {engine : ExecutionEngine} {header : Root → Header} {origin : Root} {cause : Error}
  {history : List (Event ForkChoice Call)} {call : Call}

/--
A block that follows the protocol: it is what its root stands for, the balances are known, its state
is of its slot and knows the block at the start of its epoch, and the checkpoints of its state, if
one is ahead, are of earlier epochs and are the blocks of its chain at the starts of these.
-/
structure Honest (header : Root → Header) (origin : Root) (fc : ForkChoice) (block : BeaconBlock)
    (state : PostState) (arrival : Arrival) : Prop where
  named : header arrival.root = { slot := block.slot, parent := block.parent }
  balances : arrival.balances.isSome = true
  slot : state.slot = block.slot
  target : block.slot = fc.preset.startSlot (fc.preset.epochOf block.slot) ∨
    (state.blockRootAt (fc.preset.startSlot (fc.preset.epochOf block.slot))).isSome = true
  ordered : state.finalized.epoch ≤ state.justified.epoch
  earlier : fc.store.justified.epoch < state.justified.epoch ∨
      fc.store.finalized.epoch < state.finalized.epoch →
    state.justified.epoch < fc.preset.epochOf block.slot
  justified : fc.store.justified.epoch < state.justified.epoch ∨
      fc.store.finalized.epoch < state.finalized.epoch →
    StandsAt header origin (fc.preset.startSlot state.justified.epoch) arrival.root
      state.justified.root
  finalized : fc.store.justified.epoch < state.justified.epoch ∨
      fc.store.finalized.epoch < state.finalized.epoch →
    StandsAt header origin (fc.preset.startSlot state.finalized.epoch) arrival.root
      state.finalized.root

def Honestly (header : Root → Header) (origin : Root) (_ : List (Event ForkChoice Call))
    (fc : ForkChoice) : Call → Prop
  | .block block state arrival engine =>
    (∃ entry, (fc.onBlock block state arrival engine).result = .ok entry) →
      Honest header origin fc block state arrival
  | _ => True

theorem Honestly.is_ordered (honestly : Honestly header origin history fc call) :
    Ordered history fc call := by
  cases call with
  | block => exact fun accepted => (honestly accepted).ordered
  | _ => trivial

structure Traced (header : Root → Header) (origin : Root) (fc : ForkChoice) : Prop where
  wellFormed : fc.tree.WellFormed
  named : fc.tree.Named header origin
  ranked : fc.store.Ranked

theorem extends_of_accepted {entered : Block}
    (accepted : (fc.onBlock block state arrival engine).result = .ok entered)
    (named : header arrival.root = { slot := block.slot, parent := block.parent })
    (later : (header block.parent).slot < block.slot) : fc.tree.Extends header entered := by
  obtain ⟨admission, admitted, rfl⟩ := onBlock_ok accepted
  obtain ⟨-, reaches, -⟩ := admitted_of_vet admitted
  constructor <;> simp only [entry, named]
  · exact BlockTree.contains_of_ancestor reaches
  · exact later

/-- What an arriving block's own chain has stands there on the real chain. -/
theorem OwnChainHas.standsAt {root : Root} {slot : Slot} {entered : Block}
    (has : fc.OwnChainHas block arrival slot root) (traceable : fc.tree.Traceable header origin)
    (accepted : (fc.onBlock block state arrival engine).result = .ok entered)
    (named : header arrival.root = { slot := block.slot, parent := block.parent })
    (later : (header block.parent).slot < block.slot) :
    StandsAt header origin slot arrival.root root := by
  obtain ⟨wf, named_tree, gone, registered⟩ := traceable
  rw [OwnChainHas] at has
  split at has
  · rename_i early
    rw [has]
    apply StandsAt.here
    rw [named]
    exact early
  · rename_i late
    have grows := extends_of_accepted accepted named later
    obtain ⟨admission, -, rfl⟩ := onBlock_ok accepted
    apply StandsAt.before
    · rw [named]
      exact UInt64.not_le.mp late
    · exact registered.ne_anchor grows.known grows.later
    · rw [named]
      exact registered.standsAt_of_ancestor wf named_tree has

theorem traceable_after (traceable : fc.tree.Traceable header origin)
    (grows : ∀ entered, Induces fc call (.insert entered) → fc.tree.Extends header entered) :
    (fc.after call).tree.Traceable header origin := by
  rcases fc.tree_after call with same | ⟨induced, induces, tree⟩
  · rwa [same]
  · rw [tree]
    apply traceable.after
    rintro entered rfl
    exact grows entered induces

section

variable {preset : Preset} {config : ChainConfig} {settings : NodeSettings} {anchor : Block}
  {slot : Slot} {balances : Balances}

theorem traceable_anchored (named : (header anchor.root).slot = anchor.slot) (head : Node) :
    (anchored preset config settings anchor slot balances head).tree.Traceable header
      anchor.root := by
  rw [anchored_tree_eq]
  apply BlockTree.Traceable.of_anchor
  · rfl
  · exact named.symm

theorem traceable_start (named : (header anchor.root).slot = anchor.slot)
    (started : start preset config settings anchor slot balances = .ok fc) :
    fc.tree.Traceable header anchor.root := by
  obtain ⟨head, state⟩ := start_after started
  rw [state]
  apply traceable_after (traceable_anchored named head)
  rintro entered (induces : Induces _ .head _)
  nomatch induces

end

namespace Traced

theorem after (traced : Traced header origin fc)
    (honestly : Honestly header origin history fc call) :
    Traced header origin (fc.after call) := by
  refine ⟨wellFormed_after traced.wellFormed call, ?_,
    ranked_after traced.ranked honestly.is_ordered⟩
  apply forall_blocks_after (fun _ _ named => named) traced.named traced.wellFormed
  rintro entered ⟨accepted⟩
  have named := (honestly ⟨_, accepted⟩).named
  obtain ⟨admission, -, rfl⟩ := onBlock_ok accepted
  simp [Block.Named, ForkChoice.entry, named]

theorem start {preset : Preset} {config : ChainConfig} {settings : NodeSettings} {anchor : Block}
    {slot : Slot} {balances : Balances} (named : (header anchor.root).slot = anchor.slot)
    (started : ForkChoice.start preset config settings anchor slot balances = .ok fc) :
    Traced header anchor.root fc := by
  obtain ⟨head, state⟩ := start_after started
  have traced : Traced header anchor.root
      (anchored preset config settings anchor slot balances head) := by
    refine ⟨wellFormed_anchored _ _ _ _ _ _ _, ?_, .start slot _ balances⟩
    apply BlockTree.forall_blocks_insert
    · exact fun _ member => (List.not_mem_nil member).elim
    · exact ⟨named.symm, fun other => (other rfl).elim⟩
  have step : Honestly header anchor.root []
      (anchored preset config settings anchor slot balances head) .head := trivial
  rw [state]
  exact traced.after step

end Traced

theorem knownParent_ok {parent : Node} (known : fc.knownParent block arrival.root = .ok parent) :
    fc.tree.contains block.parent = true := by
  rw [knownParent] at known
  split at known
  · rename_i found
    obtain ⟨i, index, -⟩ := Option.bind_eq_some_iff.mp found
    exact BlockTree.contains_iff_index.mpr ⟨i, index⟩
  · contradiction

theorem checkFinality_fails (known : fc.tree.contains block.parent = true) :
    FailsFor Error.ofBlockOrEngine (fc.checkFinality block) := by
  simp only [checkFinality, ForkChoice.ancestor, BlockTree.ancestor, known, if_true,
    Outcome.mapError_ok]
  split <;> simp [Error.ofBlockOrEngine]

namespace Honest

/-- Only a block that is too early for the justified checkpoint would revert it. -/
theorem mayJustify_ok (honest : Honest header origin fc block state arrival)
    (traced : Traced header origin fc)
    (reaches : fc.tree.ancestor block.parent fc.finalizedSlot = .ok (some fc.store.finalized.root))
    (newer : fc.store.justified.epoch < state.justified.epoch) :
    ∃ justify, fc.mayJustify state = .ok justify := by
  have early := honest.earlier (.inl newer)
  have later := fc.preset.startSlot_lt (UInt64.lt_trans newer early)
  simp only [mayJustify, honest.slot]
  split
  · exact ⟨_, rfl⟩
  · rw [if_neg (UInt64.not_le.mpr later)]
    split
    · exact ⟨_, rfl⟩
    · -- The justified block is between the finalized one and the parent.
      have known : fc.tree.contains state.justified.root = true := by
        have stands := (honest.justified (.inl newer)).of_lt (by
          rw [honest.named]
          exact fc.preset.startSlot_lt early)
        rw [honest.named] at stands
        have order := fc.preset.startSlot_mono
          (UInt64.le_trans traced.ranked.finalized_le (UInt64.le_of_lt newer))
        have found := traced.named.ancestor_of_standsAt traced.wellFormed reaches order stands
        have descends := traced.wellFormed.descends_of_ancestor found found (UInt64.le_refl _)
        exact (traced.wellFormed.contains_of_descends descends.2).1
      simp [ForkChoice.ancestor, BlockTree.ancestor, known]

theorem advance?_ok (honest : Honest header origin fc block state arrival)
    (traced : Traced header origin fc)
    (reaches : fc.tree.ancestor block.parent fc.finalizedSlot =
      .ok (some fc.store.finalized.root)) :
    ∃ advance, fc.advance? state arrival.balances = .ok advance := by
  obtain ⟨balances, supplied⟩ := Option.isSome_iff_exists.mp honest.balances
  simp only [advance?, supplied]
  split
  · rename_i ahead
    split
    · exact ⟨_, rfl⟩
    · rename_i stays
      obtain ⟨justify, permitted⟩ := honest.mayJustify_ok traced reaches (ahead.resolve_right stays)
      simp [permitted]
  · exact ⟨_, rfl⟩

theorem targetRoot_ok (honest : Honest header origin fc block state arrival) :
    ∃ target, fc.targetRoot block.slot arrival.root state = .ok target := by
  simp only [targetRoot]
  rcases honest.target with first | known
  · rw [if_pos first]
    exact ⟨_, rfl⟩
  · obtain ⟨target, known⟩ := Option.isSome_iff_exists.mp known
    simp only [known]
    split <;> exact ⟨_, rfl⟩

theorem vet_fails (honest : Honest header origin fc block state arrival)
    (traced : Traced header origin fc) (engine : ExecutionEngine) :
    FailsFor Error.ofBlockOrEngine (fc.vet block state arrival engine) := by
  rw [vet]
  refine (fc.knownParent_fails block arrival.root).bind fun parent known => ?_
  refine (fc.checkSlot_fails block).bind fun _ _ => ?_
  refine (checkFinality_fails (knownParent_ok known)).bind fun _ passed => ?_
  have merge := (fc.checkMerge_fails block parent engine).mono Error.blockOrEngine_of_merge
  refine merge.bind fun _ _ => ?_
  obtain ⟨target, targeted⟩ := honest.targetRoot_ok
  obtain ⟨advance, advances⟩ := honest.advance?_ok traced (checkFinality_ok passed)
  rw [targeted, advances]
  exact .ok _

end Honest

/--
A block that follows the protocol, in a state of a run in which all accepted blocks do, is imported,
or it is refused for a rule that it breaks or for a failure of the engine, and for no other cause.
-/
theorem onBlock_honest (header : Root → Header) {preset : Preset} {config : ChainConfig}
    {settings : NodeSettings} {anchor : Block} {slot : Slot} {balances : Balances}
    (named : (header anchor.root).slot = anchor.slot)
    (started : start preset config settings anchor slot balances = .ok fc)
    (run : Run after (Honestly header anchor.root) fc history fc')
    (honest : Honest header anchor.root fc' block state arrival) (engine : ExecutionEngine) :
    (∃ entered, (fc'.onBlock block state arrival engine).result = .ok entered) ∨
      (∃ cause, (fc'.onBlock block state arrival engine).result = .error (.invalidBlock cause)) ∨
      ∃ cause, (fc'.onBlock block state arrival engine).result = .error (.engine cause) := by
  have traced : Traced header anchor.root fc' :=
    Run.invariant (P := fun _ fc => Traced header anchor.root fc) (.start named started)
      (fun traced honestly => traced.after honestly) run
  cases vetted : fc'.vet block state arrival engine with
  | ok admission => exact .inl ⟨_, (onBlock_of_admitted vetted).1⟩
  | error cause =>
    have expected := honest.vet_fails traced engine cause vetted
    rw [(onBlock_of_refused vetted).1]
    cases cause with
    | invalidBlock cause => exact .inr (.inl ⟨cause, rfl⟩)
    | engine cause => exact .inr (.inr ⟨cause, rfl⟩)
    | _ => contradiction

/-- Three blocks at starts of epochs in a row, and one more from the second epoch. -/
def forkHeader (root : Root) : Header :=
  match root.toNat with
  | 2 => ⟨32, .ofNat 1⟩
  | 3 => ⟨64, .ofNat 2⟩
  | 4 => ⟨128, .ofNat 1⟩
  | 5 => ⟨96, .ofNat 3⟩
  | _ => ⟨0, .zero⟩

/-- Late in the fourth epoch the next justified checkpoint must be on the chain of the last one. -/
theorem onBlock_honest_late_in_epoch :
    ∃ history fc block state arrival,
      start .mainnet .mainnet .pruneEagerly genesis 0 genesisBalances = .ok atMainnet ∧
      Run after (Honestly forkHeader (.ofNat 1)) atMainnet history fc ∧
      Honest forkHeader (.ofNat 1) fc block state arrival ∧ fc.mayJustify state = .ok true ∧
      ((∃ entered, (fc.onBlock block state arrival .absent).result = .ok entered) ∨
        (∃ cause, (fc.onBlock block state arrival .absent).result = .error (.invalidBlock cause)) ∨
        ∃ cause, (fc.onBlock block state arrival .absent).result = .error (.engine cause)) := by
  have started : Run after (Honestly forkHeader (.ofNat 1)) atMainnet [] atMainnet := .start
  have first := (started.call (.time 106) trivial).call
    (epochBlock 32 2 1 ⟨0, .ofNat 1⟩ ⟨0, .ofNat 1⟩) fun _ => by
      constructor
      case justified | finalized => exact fun _ => .of_found 4 (by decide +kernel)
      all_goals decide +kernel
  have second := first.call (epochBlock 64 3 2 ⟨1, .ofNat 2⟩ ⟨0, .ofNat 1⟩) fun _ => by
    constructor
    case justified | finalized => exact fun _ => .of_found 4 (by decide +kernel)
    all_goals decide +kernel
  generalize reached : ((atMainnet.after (.time 106)).after _).after _ = fc at second
  let block : BeaconBlock :=
    { slot := 96, proposer := 0, parent := .ofNat 3, stateRoot := .zero, payload := {} }
  let state : PostState :=
    { slot := 96, justified := ⟨2, .ofNat 3⟩, finalized := ⟨0, .ofNat 1⟩, genesisTime := 0
      blockRootAt := fun _ => none }
  let arrival : Arrival :=
    { root := .ofNat 5, delay := ⟨0⟩, balances := some genesisBalances, status := .valid }
  have honest : Honest forkHeader (.ofNat 1) fc block state arrival := by
    rw [← reached]
    constructor
    case justified | finalized => exact fun _ => .of_found 4 (by decide +kernel)
    all_goals decide +kernel
  refine ⟨_, fc, block, state, arrival, start_mainnet, second, honest, ?_, ?_⟩
  · rw [← reached]
    decide +kernel
  · exact onBlock_honest forkHeader rfl start_mainnet second honest .absent

end ForkChoice

end LmdGhost
