import LmdGhost.Proofs.BlockTree.Walks
import LmdGhost.Proofs.ForkChoice.Admission
/-!
Targets of attestations. The rules ask that the target of an attestation is the block of the head's
chain at the start of the epoch, which is found by a walk up the chain. The check does without: the
head is its own target if it is from an earlier epoch, and otherwise the target was stored with it.
-/

namespace LmdGhost

namespace Preset

theorem le_startSlot (preset : Preset) {slot : Slot} {epoch : Epoch}
    (order : preset.epochOf slot < epoch) : slot ≤ preset.startSlot epoch := by
  have positive : 0 < preset.slotsPerEpoch.toNat := by cases preset <;> decide
  have bound := slot.toNat_lt_size
  rw [UInt64.lt_iff_toNat_lt, epochOf, UInt64.toNat_div, Nat.div_lt_iff_lt_mul positive] at order
  rw [UInt64.le_iff_toNat_le, startSlot, Word.toNat_satMul]
  omega

theorem epochOf_mono (preset : Preset) {slot slot' : Slot} (order : slot ≤ slot') :
    preset.epochOf slot ≤ preset.epochOf slot' := by
  rw [UInt64.le_iff_toNat_le] at order
  rw [UInt64.le_iff_toNat_le, epochOf, epochOf, UInt64.toNat_div, UInt64.toNat_div]
  exact Nat.div_le_div_right order

theorem startSlot_epochOf_le (preset : Preset) (slot : Slot) :
    preset.startSlot (preset.epochOf slot) ≤ slot := by
  have below := Nat.div_mul_le_self slot.toNat preset.slotsPerEpoch.toNat
  rw [UInt64.le_iff_toNat_le, startSlot, Word.toNat_satMul, epochOf, UInt64.toNat_div]
  omega

end Preset

namespace ForkChoice

variable {fc fc' : ForkChoice} {preset : Preset} {data : AttestationData} {fromBlock : Bool}
  {header : Root → Header} {origin : Root} {head : Node} {anchor : Block}
  {history : List (Event ForkChoice Call)} {call : Call}

/-- What the rules ask of an attestation: its target is on the chain of its head. -/
structure Acceptable (fc : ForkChoice) (data : AttestationData) (fromBlock : Bool) : Prop where
  not_future : data.target.epoch ≤ fc.currentEpoch
  recent : fromBlock = true ∨ fc.currentEpoch.toNat ≤ data.target.epoch.toNat + 1
  epoch : data.target.epoch = fc.preset.epochOf data.slot
  target_known : fc.tree.contains data.target.root = true
  head_known : ∃ head, fc.tree.node? data.head = some head ∧ head.slot ≤ data.slot
  target : fc.tree.ancestor data.head (fc.preset.startSlot data.target.epoch) =
    .ok (some data.target.root)

theorem checkTargetEpoch_eq_ok : fc.checkTargetEpoch data fromBlock = .ok () ↔
    data.target.epoch ≤ fc.currentEpoch ∧
      (fromBlock = true ∨ fc.currentEpoch.toNat ≤ data.target.epoch.toNat + 1) ∧
      data.target.epoch = fc.preset.epochOf data.slot := by
  have bound := fc.currentEpoch.toNat_lt_size
  have past : (!fromBlock) = true ∧ Word.satAdd data.target.epoch 1 < fc.currentEpoch ↔
      ¬(fromBlock = true ∨ fc.currentEpoch.toNat ≤ data.target.epoch.toNat + 1) := by
    rw [UInt64.lt_iff_toNat_lt, Word.toNat_satAdd, UInt64.toNat_one, not_or, Bool.not_eq_true',
      Bool.not_eq_true]
    apply and_congr Iff.rfl
    omega
  simp only [checkTargetEpoch, past, ← UInt64.not_lt]
  split
  · rename_i future
    simp [future]
  · rename_i timely
    split
    · rename_i old
      simp [old]
    · rename_i recent
      rw [not_not] at recent
      simp [timely, recent]

/-- Among the blocks in the tree, a walk to the start of a node's epoch finds the stored target. -/
def StoresTargets (fc : ForkChoice) : Prop :=
  ∀ node ∈ fc.tree.nodes, ∀ root, fc.tree.contains root = true →
    (fc.tree.ancestor node.root (fc.preset.startSlot (fc.preset.epochOf node.slot)) =
      .ok (some root) ↔ node.target = root)

/-- The expected target is what the walk finds, for a head that is not later than the data. -/
theorem StoresTargets.expectedTarget_eq_iff (stored : fc.StoresTargets)
    (wf : fc.tree.WellFormed) (epoch : data.target.epoch = fc.preset.epochOf data.slot)
    (target_known : fc.tree.contains data.target.root = true)
    (found : fc.tree.node? data.head = some head) (early : head.slot ≤ data.slot) :
    fc.expectedTarget data head = data.target.root ↔
      fc.tree.ancestor data.head (fc.preset.startSlot data.target.epoch) =
        .ok (some data.target.root) := by
  obtain ⟨i, at_i, named⟩ := wf.node?_eq_some.mp found
  rw [expectedTarget, ← named]
  split
  · rename_i earlier
    rw [wf.ancestor_of_le at_i (fc.preset.le_startSlot earlier)]
    simp
  · rename_i not_earlier
    have same : fc.preset.epochOf head.slot = data.target.epoch := by
      apply UInt64.le_antisymm
      · rw [epoch]
        exact fc.preset.epochOf_mono early
      · exact UInt64.not_lt.mp not_earlier
    rw [← same]
    exact (stored head (List.mem_of_getElem? at_i) _ target_known).symm

theorem StoresTargets.checkData_iff (stored : fc.StoresTargets) (wf : fc.tree.WellFormed) :
    fc.checkData data fromBlock = .ok () ↔ fc.Acceptable data fromBlock := by
  rw [checkData_eq_ok, checkTargetEpoch_eq_ok, checkVote_eq_ok]
  constructor
  · rintro ⟨⟨not_future, recent, epoch⟩, target_known, head, found, expected, early⟩
    refine ⟨not_future, recent, epoch, target_known, ⟨head, found, early⟩, ?_⟩
    exact (stored.expectedTarget_eq_iff wf epoch target_known found early).mp expected
  · rintro ⟨not_future, recent, epoch, target_known, ⟨head, found, early⟩, target⟩
    refine ⟨⟨not_future, recent, epoch⟩, target_known, head, found, ?_, early⟩
    exact (stored.expectedTarget_eq_iff wf epoch target_known found early).mpr target

/--
A block is what its root stands for and later than its parent, and its target is the block of its
own chain at the start of its epoch.
-/
structure TargetConsistent (header : Root → Header) (fc : ForkChoice) (block : BeaconBlock)
    (arrival : Arrival) (target : Root) : Prop where
  named : header arrival.root = { slot := block.slot, parent := block.parent }
  later : (header block.parent).slot < block.slot
  target : fc.OwnChainHas block arrival (fc.preset.startSlot (fc.preset.epochOf block.slot)) target

def Targeted (header : Root → Header) (_ : List (Event ForkChoice Call)) (fc : ForkChoice) :
    Call → Prop
  | .block block state arrival engine =>
    ∀ entered, (fc.onBlock block state arrival engine).result = .ok entered →
      TargetConsistent header fc block arrival entered.target
  | _ => True

def TargetStands (preset : Preset) (header : Root → Header) (origin : Root) (block : Block) :
    Prop :=
  StandsAt header origin (preset.startSlot (preset.epochOf block.slot)) block.root block.target

structure Aimed (preset : Preset) (header : Root → Header) (origin : Root) (fc : ForkChoice) :
    Prop where
  setup : fc.preset = preset
  traceable : fc.tree.Traceable header origin
  targets : ∀ node ∈ fc.tree.nodes, TargetStands preset header origin node.toBlock

namespace Aimed

theorem storesTargets (aimed : Aimed preset header origin fc) : fc.StoresTargets := by
  obtain ⟨rfl, traceable, targets⟩ := aimed
  intro node member root there
  obtain ⟨i, at_i⟩ := List.mem_iff_getElem?.mp member
  have known := traceable.wellFormed.contains_root at_i
  have stands := targets node member
  rw [traceable.ancestor_eq_some_iff known there]
  constructor
  · exact stands.unique
  · rintro rfl
    exact stands

theorem after (aimed : Aimed preset header origin fc)
    (targeted : Targeted header history fc call) :
    Aimed preset header origin (fc.after call) := by
  refine ⟨(SameSetup.after fc call).preset.trans aimed.setup, ?_, ?_⟩
  · apply traceable_after aimed.traceable
    rintro entered ⟨accepted⟩
    obtain ⟨named, later, -⟩ := targeted _ accepted
    exact extends_of_accepted accepted named later
  · apply forall_blocks_after (fun _ _ stands => stands) aimed.targets aimed.traceable.wellFormed
    rintro entered ⟨accepted⟩
    obtain ⟨named, later, target⟩ := targeted _ accepted
    have stands := target.standsAt aimed.traceable accepted named later
    obtain ⟨admission, -, rfl⟩ := onBlock_ok accepted
    rw [aimed.setup] at stands
    exact stands

end Aimed

/-- What holds after a start in the middle of an epoch: no block is accepted. -/
structure Alone (preset : Preset) (anchor : Block) (fc : ForkChoice) : Prop where
  setup : fc.preset = preset
  wellFormed : fc.tree.WellFormed
  nodes : ∀ node ∈ fc.tree.nodes, node.root = anchor.root ∧ node.slot = anchor.slot ∧
    node.target = anchor.target
  finalized : fc.store.finalized = ⟨preset.epochOf anchor.slot, anchor.root⟩

namespace Alone

/-- The anchor is later than the first slot of its epoch, and no block is found there. -/
theorem not_reached (alone : Alone preset anchor fc)
    (late : preset.startSlot (preset.epochOf anchor.slot) < anchor.slot) {root found : Root} :
    fc.tree.ancestor root (preset.startSlot (preset.epochOf anchor.slot)) ≠ .ok (some found) := by
  intro reaches
  obtain ⟨node, found, early⟩ := alone.wellFormed.node?_of_ancestor reaches
  obtain ⟨i, at_i, -⟩ := alone.wellFormed.node?_eq_some.mp found
  rw [(alone.nodes node (List.mem_of_getElem? at_i)).2.1] at early
  exact UInt64.not_lt.mpr early late

theorem refuses (alone : Alone preset anchor fc)
    (late : preset.startSlot (preset.epochOf anchor.slot) < anchor.slot) {block : BeaconBlock}
    {state : PostState} {arrival : Arrival} {engine : ExecutionEngine} {entered : Block} :
    (fc.onBlock block state arrival engine).result ≠ .ok entered := by
  intro accepted
  obtain ⟨admission, admitted, -⟩ := onBlock_ok accepted
  obtain ⟨-, reaches, -⟩ := admitted_of_vet admitted
  rw [finalizedSlot, alone.setup, alone.finalized] at reaches
  exact alone.not_reached late reaches

theorem after (alone : Alone preset anchor fc)
    (late : preset.startSlot (preset.epochOf anchor.slot) < anchor.slot) (call : Call) :
    Alone preset anchor (fc.after call) := by
  refine ⟨(SameSetup.after fc call).preset.trans alone.setup,
    wellFormed_after alone.wellFormed call, ?_, ?_⟩
  · apply forall_blocks_after (P := fun block => block.root = anchor.root ∧
      block.slot = anchor.slot ∧ block.target = anchor.target) (fun _ _ same => same) alone.nodes
      alone.wellFormed
    rintro entered ⟨accepted⟩
    exact absurd accepted (alone.refuses late)
  · have step := fc.storeStep_after call
    generalize (fc.after call).store = store at step
    cases step with
    | same => exact alone.finalized
    | elapsed _ elapses => cases elapses <;> exact alone.finalized
    | followed accepted => exact absurd accepted (alone.refuses late)

theorem storesTargets (alone : Alone preset anchor fc)
    (late : preset.startSlot (preset.epochOf anchor.slot) < anchor.slot)
    (foreign : anchor.target ≠ anchor.root) : fc.StoresTargets := by
  obtain ⟨rfl, wf, nodes, finalized⟩ := alone
  intro node member root there
  obtain ⟨i, other, at_i, rfl⟩ := wf.contains_iff.mp there
  obtain ⟨-, slot, target⟩ := nodes node member
  rw [slot, target, (nodes other (List.mem_of_getElem? at_i)).1]
  constructor
  · intro reaches
    exact absurd reaches (not_reached ⟨rfl, wf, nodes, finalized⟩ late)
  · intro own
    exact absurd own foreign

end Alone

section Start

variable {config : ChainConfig} {settings : NodeSettings} {slot : Slot} {balances : Balances}

theorem Aimed.start (named : (header anchor.root).slot = anchor.slot)
    (own : anchor.target = anchor.root)
    (first : anchor.slot = preset.startSlot (preset.epochOf anchor.slot))
    (started : start preset config settings anchor slot balances = .ok fc) :
    Aimed preset header anchor.root fc := by
  obtain ⟨found, state⟩ := start_after started
  have aimed : Aimed preset header anchor.root
      (anchored preset config settings anchor slot balances found) := by
    refine ⟨rfl, traceable_anchored named found, ?_⟩
    rw [anchored_tree_eq]
    apply BlockTree.forall_blocks_insert
    · exact List.forall_mem_nil _
    · rw [TargetStands]
      simp only [own, ← first]
      apply StandsAt.here
      rw [named]
      exact UInt64.le_refl _
  have step : Targeted header [] (anchored preset config settings anchor slot balances found)
      .head := trivial
  rw [state]
  exact aimed.after step

theorem Alone.start (late : preset.startSlot (preset.epochOf anchor.slot) < anchor.slot)
    (started : start preset config settings anchor slot balances = .ok fc) :
    Alone preset anchor fc := by
  obtain ⟨found, state⟩ := start_after started
  have alone : Alone preset anchor
      (anchored preset config settings anchor slot balances found) := by
    refine ⟨rfl, wellFormed_anchored _ _ _ _ _ _ _, ?_, rfl⟩
    rw [anchored_tree_eq]
    apply BlockTree.forall_blocks_insert (P := fun block => block.root = anchor.root ∧
      block.slot = anchor.slot ∧ block.target = anchor.target)
    · exact List.forall_mem_nil _
    · exact ⟨rfl, rfl, rfl⟩
  rw [state]
  exact alone.after late .head

/-- The targets that are stored in a run in which blocks enter with those of their own chains. -/
theorem storesTargets_of_run (named : (header anchor.root).slot = anchor.slot)
    (own : anchor.target = anchor.root ↔
      anchor.slot = preset.startSlot (preset.epochOf anchor.slot))
    (started : start preset config settings anchor slot balances = .ok fc)
    (run : Run after (Targeted header) fc history fc') :
    fc'.tree.WellFormed ∧ fc'.StoresTargets := by
  by_cases first : anchor.slot = preset.startSlot (preset.epochOf anchor.slot)
  · have aimed : Aimed preset header anchor.root fc' :=
      Run.invariant (P := fun _ fc => Aimed preset header anchor.root fc)
        (.start named (own.mpr first) first started)
        (fun aimed targeted => aimed.after targeted) run
    exact ⟨aimed.traceable.wellFormed, aimed.storesTargets⟩
  · have late : preset.startSlot (preset.epochOf anchor.slot) < anchor.slot :=
      UInt64.lt_of_le_of_ne (preset.startSlot_epochOf_le anchor.slot) (Ne.symm first)
    have alone : Alone preset anchor fc' :=
      Run.invariant (P := fun _ fc => Alone preset anchor fc) (.start late started)
        (fun {_ _ call} alone _ => alone.after late call) run
    exact ⟨alone.wellFormed, alone.storesTargets late fun same => first (own.mp same)⟩

/--
In every state of a run in which blocks are later than their parents and enter the tree with the
targets of their own chains, whatever is pruned, the data of an attestation passes the check exactly
if its target epoch is current or, outside of blocks, at most one epoch old and is that of its slot,
its target and its head are known, the head is not later than the slot, and a walk from the head to
the start of the epoch finds the target.
-/
theorem checkData_iff_acceptable (header : Root → Header)
    (named : (header anchor.root).slot = anchor.slot)
    (own : anchor.target = anchor.root ↔
      anchor.slot = preset.startSlot (preset.epochOf anchor.slot))
    (started : start preset config settings anchor slot balances = .ok fc)
    (run : Run after (Targeted header) fc history fc') (data : AttestationData)
    (fromBlock : Bool) :
    fc'.checkData data fromBlock = .ok () ↔ fc'.Acceptable data fromBlock := by
  obtain ⟨wf, stored⟩ := storesTargets_of_run named own started run
  exact stored.checkData_iff wf

end Start

def aimedGenesis : Block :=
  { genesis with target := genesis.root }

theorem aimed_starts :
    (start .minimal .minimal .pruneEagerly aimedGenesis 0 genesisBalances).toOption.isSome =
      true := by
  decide +kernel

def atAimedGenesis : ForkChoice :=
  (start .minimal .minimal .pruneEagerly aimedGenesis 0 genesisBalances).toOption.get aimed_starts

/-- A block late in the first epoch and two in the second, whose first slot is empty. -/
def skippedHeader (root : Root) : Header :=
  match root.toNat with
  | 2 => ⟨6, .ofNat 1⟩
  | 3 => ⟨9, .ofNat 2⟩
  | 4 => ⟨10, .ofNat 2⟩
  | _ => ⟨0, .zero⟩

def skippedBlock (root : Nat) (target : Nat) : Call :=
  .block
    { slot := (skippedHeader (.ofNat root)).slot, proposer := 0
      parent := (skippedHeader (.ofNat root)).parent, stateRoot := .zero, payload := {} }
    { slot := (skippedHeader (.ofNat root)).slot, justified := ⟨0, .ofNat 1⟩
      finalized := ⟨0, .ofNat 1⟩, genesisTime := 0, blockRootAt := fun _ => some (.ofNat target) }
    { root := .ofNat root, delay := ⟨0⟩, balances := none, status := .valid }
    .absent

theorem Targeted.of_known {block : BeaconBlock} {state : PostState} {arrival : Arrival}
    {engine : ExecutionEngine} (target : Root)
    (known : (fc.onBlock block state arrival engine).result.toOption.map (·.target) = some target)
    (consistent : TargetConsistent header fc block arrival target) :
    Targeted header history fc (.block block state arrival engine) := by
  intro entered accepted
  rw [accepted] at known
  obtain rfl := Option.some.inj known
  exact consistent

/-- The block before an empty first slot is the target of the blocks after it. -/
theorem checkData_after_empty_slot :
    ∃ history fc data,
      start .minimal .minimal .pruneEagerly aimedGenesis 0 genesisBalances = .ok atAimedGenesis ∧
      Run after (Targeted skippedHeader) atAimedGenesis history fc ∧ data.head = .ofNat 3 ∧
      data.target = ⟨1, .ofNat 2⟩ ∧ fc.checkData data false = .ok () ∧
      fc.Acceptable data false := by
  have aimed : start .minimal .minimal .pruneEagerly aimedGenesis 0 genesisBalances =
      .ok atAimedGenesis := Outcome.eq_ok_get aimed_starts
  have started : Run after (Targeted skippedHeader) atAimedGenesis [] atAimedGenesis := .start
  have first := (started.call (.time 10) trivial).call (skippedBlock 2 1)
    (.of_known (.ofNat 1) (by decide +kernel) (by constructor <;> decide +kernel))
  have second := first.call (skippedBlock 3 2)
    (.of_known (.ofNat 2) (by decide +kernel) (by constructor <;> decide +kernel))
  have third := second.call (skippedBlock 4 2)
    (.of_known (.ofNat 2) (by decide +kernel) (by constructor <;> decide +kernel))
  let data : AttestationData := {
    slot := 9, committee := 0, head := .ofNat 3, source := ⟨0, .ofNat 1⟩, target := ⟨1, .ofNat 2⟩ }
  generalize reached : (((atAimedGenesis.after (.time 10)).after (skippedBlock 2 1)).after
    (skippedBlock 3 2)).after (skippedBlock 4 2) = fc at third
  have passed : fc.checkData data false = .ok () := by
    rw [← reached]
    decide +kernel
  exact ⟨_, fc, data, aimed, third, rfl, rfl, passed,
    (checkData_iff_acceptable skippedHeader rfl (by decide) aimed third data false).mp passed⟩

end ForkChoice

end LmdGhost
