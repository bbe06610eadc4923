import LmdGhost.Proofs.BlockTree.Slots
import LmdGhost.Proofs.ForkChoice.Deviation
import LmdGhost.Proofs.ForkChoice.Rejection
/-!
The two tests for finality. Queries ask whether the finalized block is on the chain of a block. When
a block is imported, the test is whether the finalized block is what stands on the parent's chain at
the first slot of the finalized epoch. What passes the second test passes the first. The other way
round, the two differ on chains that have gone on from the finalized block before that slot.
-/

namespace LmdGhost.ForkChoice

variable {fc fc' : ForkChoice} {history : List (Event ForkChoice Call)} {root finalized : Root}
  {ancestor : Option Root} {block : BeaconBlock} {state : PostState} {arrival : Arrival}
  {engine : ExecutionEngine} {parent : Node} {slot : Slot}

def Advances (fc : ForkChoice) : Call → Prop
  | .block block state arrival engine =>
    (fc.onBlock block state arrival engine).result.isOk = true →
      fc.tree.contains arrival.root = false →
      ∀ parent, fc.tree.node? block.parent = some parent → parent.slot < block.slot
  | _ => True

theorem Advances.of_all
    (later : (fc.tree.node? block.parent).all (·.slot < block.slot) = true) :
    fc.Advances (.block block state arrival engine) := by
  intro _ _ parent found
  simpa [found] using later

theorem climbs_kept : KeptUnless BlockTree.Climbs BlockTree.Stalls where
  empty := fun _ _ _ _ _ _ _ => nofun
  first := by
    rintro pruneThreshold justifiedEpoch finalizedEpoch block ⟨-, parent, found, -⟩
    simp [BlockTree.node?_empty] at found
  scores := fun _ _ => id
  after := fun wf climbs => wf.climbs_after climbs

theorem not_stalls_of_advances {call : Call} (advances : fc.Advances call) :
    ¬ComesTo BlockTree.Stalls fc call := by
  rintro ⟨_, induces, stalls⟩
  cases induces with
  | @block block state arrival engine entered accepted =>
    obtain ⟨new, parent, found, stalled⟩ := stalls
    obtain ⟨admission, -, rfl⟩ := onBlock_ok accepted
    refine stalled (advances ?_ new parent found)
    rw [accepted]
    rfl
  | _ => exact stalls

theorem climbs_of_run {preset : Preset} {config : ChainConfig} {settings : NodeSettings}
    {anchor : Block} {slot : Slot} {balances : Balances}
    (started : start preset config settings anchor slot balances = .ok fc)
    (run : Run after (fun _ => Advances) fc history fc') :
    fc'.tree.WellFormed ∧ fc'.tree.Climbs := by
  obtain ⟨wf, climbs⟩ := climbs_kept.of_run (climbs_kept.of_start started) run
  refine ⟨wf, climbs.resolve_right ?_⟩
  rintro ⟨event, member, stalled⟩
  obtain ⟨_, advances⟩ := run.allowed_of_mem member
  exact not_stalls_of_advances advances stalled

/-- A known block passes the test of queries just where it descends from the finalized one. -/
theorem contains_eq_descends (wf : fc.tree.WellFormed) (climbs : fc.tree.Climbs) (root : Root) :
    fc.contains root = fc.tree.descends fc.store.finalized.root root := by
  rw [contains, descendsFromFinalized, wf.isDescendant_eq climbs, Bool.and_eq_right_iff_imp]
  intro descends
  obtain ⟨_, d, -, index, -⟩ := wf.descends_iff.mp descends
  exact BlockTree.contains_iff_index.mpr ⟨d, index⟩

theorem isSome_block? (wf : fc.tree.WellFormed) (root : Root) :
    (fc.block? root).isSome = fc.contains root := by
  rw [block?, contains, BlockTree.contains_eq]
  cases index : fc.tree.index[root]? with
  | none => simp [BlockTree.node?, index]
  | some i =>
    obtain ⟨node, at_i, rfl⟩ := wf.indexed.mp index
    rw [wf.node?_root at_i, Option.isSome_some, Bool.true_and]
    cases descends : fc.descendsFromFinalized node.root <;> simp [descends]

theorem checkFinality_eq_error : fc.checkFinality block =
      .error (.invalidBlock (.notFinalizedDescendant finalized ancestor)) ↔
    finalized = fc.store.finalized.root ∧
      fc.ancestor block.parent fc.finalizedSlot = .ok ancestor ∧
      ancestor ≠ some fc.store.finalized.root := by
  rw [checkFinality]
  have fails := fc.ancestor_fails block.parent fc.finalizedSlot
  cases found : fc.ancestor block.parent fc.finalizedSlot with
  | error cause =>
    rw [found, FailsFor.error_iff] at fails
    constructor
    · intro failed
      cases failed
      contradiction
    · rintro ⟨-, reached, -⟩
      contradiction
  | ok reached =>
    dsimp only
    split
    · rename_i named
      constructor
      · intro failed
        contradiction
      · rintro ⟨-, same, other⟩
        exact absurd ((Except.ok.inj same).symm.trans named) other
    · rename_i other
      rw [Except.error.injEq, Error.invalidBlock.injEq, InvalidBlock.notFinalizedDescendant.injEq,
        Except.ok.injEq]
      constructor
      · rintro ⟨rfl, rfl⟩
        exact ⟨rfl, rfl, other⟩
      · rintro ⟨rfl, rfl, -⟩
        exact ⟨rfl, rfl⟩

/-- Only the test for finality refuses a block for not descending from the finalized one. -/
theorem onBlock_undescended_iff (found : fc.tree.node? block.parent = some parent) :
    (fc.onBlock block state arrival engine).result =
        .error (.invalidBlock (.notFinalizedDescendant finalized ancestor)) ↔
      fc.checkSlot block = .ok () ∧ fc.checkFinality block =
        .error (.invalidBlock (.notFinalizedDescendant finalized ancestor)) := by
  have known : fc.knownParent block arrival.root = .ok parent := by simp [knownParent, found]
  have timely : fc.checkSlot block ≠
      .error (.invalidBlock (.notFinalizedDescendant finalized ancestor)) := by
    rw [checkSlot]
    split_ifs <;> simp
  have of_kind {α : Type} {kind : Error → Bool} {check : Except Error α}
      (fails : FailsFor kind check)
      (other : kind (.invalidBlock (.notFinalizedDescendant finalized ancestor)) = false) :
      check ≠ .error (.invalidBlock (.notFinalizedDescendant finalized ancestor)) :=
    fails.ne_error other
  rw [onBlock_eq_error, vet]
  simp only [except_bind_eq_error, known, timely, of_kind (fc.checkMerge_fails _ _ _) rfl,
    of_kind (fc.targetRoot_fails _ _ _) rfl, of_kind (fc.advance?_fails _ _) rfl, pure,
    Except.pure, reduceCtorEq, and_false, exists_false, or_false, false_or, Except.ok.injEq,
    exists_eq_left']
  constructor
  · rintro ⟨_, passed⟩
    exact passed
  · intro passed
    exact ⟨(), passed⟩

/-- A child of a known block is refused if the finalized block does not stand at the slot. -/
theorem undescended_iff (wf : fc.tree.WellFormed)
    (known : fc.tree.contains block.parent = true) :
    (∃ finalized ancestor, (fc.onBlock block state arrival engine).result =
        .error (.invalidBlock (.notFinalizedDescendant finalized ancestor))) ↔
      fc.checkSlot block = .ok () ∧
        fc.ancestor block.parent fc.finalizedSlot ≠ .ok (some fc.store.finalized.root) := by
  obtain ⟨ancestor, reaches⟩ : ∃ ancestor,
      fc.ancestor block.parent fc.finalizedSlot = .ok ancestor := by
    rw [ForkChoice.ancestor, BlockTree.ancestor, if_pos known]
    exact ⟨_, rfl⟩
  obtain ⟨i, parent, at_i, named⟩ := wf.contains_iff.mp known
  have found := wf.node?_root at_i
  rw [named] at found
  simp only [onBlock_undescended_iff found, checkFinality_eq_error, reaches, Except.ok.injEq,
    exists_and_left, ne_eq]
  constructor
  · rintro ⟨passed, _, rfl, _, rfl, other⟩
    exact ⟨passed, other⟩
  · rintro ⟨passed, other⟩
    exact ⟨passed, _, rfl, _, rfl, other⟩

theorem ancestor_eq_some : fc.ancestor root slot = .ok (some finalized) ↔
    fc.tree.ancestor root slot = .ok (some finalized) :=
  Outcome.mapError_eq_ok_iff

/-- What passes the test of imports passes the test of queries. -/
theorem contains_of_ancestor (wf : fc.tree.WellFormed) (climbs : fc.tree.Climbs)
    (reaches : fc.ancestor root slot = .ok (some fc.store.finalized.root)) :
    fc.contains root = true := by
  rw [ancestor_eq_some] at reaches
  obtain ⟨node, found, -⟩ := wf.node?_of_ancestor reaches
  rw [contains_eq_descends wf climbs]
  exact ((wf.ancestor_eq_iff climbs (BlockTree.contains_of_ancestor reaches) found).mp reaches).1

section
variable {preset : Preset} {config : ChainConfig} {settings : NodeSettings} {anchor : Block}
  {slot : Slot} {balances : Balances}

theorem start_finalized
    (started : start preset config settings anchor slot balances = .ok fc) :
    fc.preset = preset ∧ fc.store.finalized = ⟨preset.epochOf anchor.slot, anchor.root⟩ := by
  obtain ⟨head, _, _, _, _, _, state⟩ := start_rehead started
  rw [state]
  exact ⟨rfl, rfl⟩

theorem start_node
    (started : start preset config settings anchor slot balances = .ok fc) :
    ∃ node, fc.tree.nodes[0]? = some node ∧ node.root = anchor.root ∧ node.slot = anchor.slot := by
  obtain ⟨head, state⟩ := start_after started
  have wf := wellFormed_anchored preset config settings anchor slot balances head
  have entered := anchored_tree_eq preset config settings anchor slot balances head
  generalize anchored preset config settings anchor slot balances head = outset at *
  have nodes := congrArg BlockTree.nodes entered
  rw [BlockTree.nodes_insert_of_new (BlockTree.contains_empty _ _ _ _)] at nodes
  have placed : fc.tree.nodes.map (fun node => (node.root, node.slot)) =
      outset.tree.nodes.map fun node => (node.root, node.slot) := by
    rw [state]
    rcases outset.updateHead_tree with tree | ⟨change, tree⟩
    · rw [after, tree]
    · rw [after, tree]
      exact BlockTree.map_applyScores (fun _ => rfl) (fun _ => rfl) wf change
  obtain ⟨node, first, same⟩ := getElem?_of_map_eq placed.symm (i := 0) (by rw [nodes]; rfl)
  obtain ⟨named, timed⟩ := Prod.mk.inj same
  exact ⟨node, first, named, timed⟩

/-- An anchor at the start of its epoch stands at the slot that imports look at. -/
theorem start_ancestor
    (started : start preset config settings anchor slot balances = .ok fc)
    (outset : preset.startSlot (preset.epochOf anchor.slot) = anchor.slot) :
    fc.tree.WellFormed ∧ fc.tree.contains anchor.root = true ∧
      fc.ancestor anchor.root fc.finalizedSlot = .ok (some fc.store.finalized.root) := by
  obtain ⟨wf, -⟩ := climbs_kept.of_start started
  obtain ⟨same, finalized⟩ := start_finalized started
  obtain ⟨node, first, named, timed⟩ := start_node started
  rw [finalizedSlot, same, finalized, outset, ancestor_eq_some, ← named]
  exact ⟨wf, wf.contains_root first, wf.ancestor_of_le first (UInt64.le_of_eq timed)⟩

/--
In every state of a run on which slots grow, a child of a known block that is neither early nor
finalized is refused for its descent if and only if the finalized block does not stand on the
parent's chain at the first slot of the finalized epoch. Where it does, the parent passes the test
of queries. A parent that passes that test has it there, if it is not later than that slot, if and
only if no other block of the chain is between. The children of an anchor at the first slot of an
epoch are not refused for their descent at the start.
-/
theorem finality_tests
    (started : start preset config settings anchor slot balances = .ok fc)
    (run : Run after (fun _ => Advances) fc history fc')
    (known : fc'.tree.contains root = true) :
    (fc'.block? root).isSome = fc'.contains root ∧
      (∀ block state arrival engine, block.parent = root →
        ((∃ finalized ancestor, (fc'.onBlock block state arrival engine).result =
            .error (.invalidBlock (.notFinalizedDescendant finalized ancestor))) ↔
          fc'.checkSlot block = .ok () ∧
            fc'.ancestor root fc'.finalizedSlot ≠ .ok (some fc'.store.finalized.root))) ∧
      (fc'.ancestor root fc'.finalizedSlot = .ok (some fc'.store.finalized.root) →
        fc'.contains root = true) ∧
      (fc'.contains root = true → ∃ finalized,
        fc'.tree.node? fc'.store.finalized.root = some finalized ∧
        (finalized.slot ≤ fc'.finalizedSlot →
          (fc'.ancestor root fc'.finalizedSlot = .ok (some fc'.store.finalized.root) ↔
            ∀ other ∈ fc'.tree.chain root,
              finalized.slot < other.slot → fc'.finalizedSlot < other.slot))) ∧
      (preset.startSlot (preset.epochOf anchor.slot) = anchor.slot →
        ∀ block state arrival engine, block.parent = anchor.root →
          ¬∃ finalized ancestor, (fc.onBlock block state arrival engine).result =
            .error (.invalidBlock (.notFinalizedDescendant finalized ancestor))) := by
  obtain ⟨wf, climbs⟩ := climbs_of_run started run
  refine ⟨isSome_block? wf root, ?_, contains_of_ancestor wf climbs, ?_, ?_⟩
  · rintro block state arrival engine rfl
    exact undescended_iff wf known
  · intro contains
    rw [contains_eq_descends wf climbs] at contains
    obtain ⟨finalized, -, found⟩ := wf.node?_of_descends contains
    refine ⟨finalized, found, fun early => ?_⟩
    rw [ancestor_eq_some, wf.ancestor_eq_iff climbs known found, and_iff_right contains,
      and_iff_right early]
  · rintro outset block state arrival engine child refused
    obtain ⟨wf, known, reaches⟩ := start_ancestor started outset
    rw [← child] at known reaches
    exact ((undescended_iff wf known).mp refused).2 reaches

end

def earlyBlock (slot : Slot) (root parent : Nat) : Call :=
  .block
    { slot, proposer := 0, parent := .ofNat parent, stateRoot := .zero, payload := {} }
    { slot, justified := ⟨0, .ofNat 1⟩, finalized := ⟨0, .ofNat 1⟩, genesisTime := 0
      blockRootAt := fun _ => some (.ofNat 1) }
    { root := .ofNat root, delay := .ofSeconds 5, balances := some genesisBalances
      status := .valid }
    .absent

/-- Two blocks before the empty first slot of an epoch, whose checkpoint is then the first one. -/
def finalizedBeforeEmptySlot : List Call :=
  [.time 24, earlyBlock 6 2 1, earlyBlock 7 3 2, epochBlock 16 4 2 ⟨1, .ofNat 2⟩ ⟨1, .ofNat 2⟩]

theorem run_finalizedBeforeEmptySlot : ∃ history,
    Run after (fun _ => Advances) atGenesis history
      (finalizedBeforeEmptySlot.foldl after atGenesis) := by
  have outset : Run after (fun _ => Advances) atGenesis [] atGenesis := .start
  have first := (outset.call (.time 24) trivial).call (earlyBlock 6 2 1)
    (.of_all (by decide +kernel))
  have second := first.call (earlyBlock 7 3 2) (.of_all (by decide +kernel))
  exact ⟨_, second.call (epochBlock 16 4 2 ⟨1, .ofNat 2⟩ ⟨1, .ofNat 2⟩)
    (.of_all (by decide +kernel))⟩

/-- Nothing that builds on the second of these blocks is imported. -/
theorem children_refused_past_empty_slot :
    ∃ history fc,
      start .minimal .minimal .pruneEagerly genesis 0 genesisBalances = .ok atGenesis ∧
      Run after (fun _ => Advances) atGenesis history fc ∧
      fc.tree.contains (.ofNat 3) = true ∧
      ∀ block state arrival engine, block.parent = .ofNat 3 → fc.checkSlot block = .ok () →
        ∃ finalized ancestor, (fc.onBlock block state arrival engine).result =
          .error (.invalidBlock (.notFinalizedDescendant finalized ancestor)) := by
  obtain ⟨history, run⟩ := run_finalizedBeforeEmptySlot
  have known : (finalizedBeforeEmptySlot.foldl after atGenesis).tree.contains (.ofNat 3) =
      true := by decide +kernel
  refine ⟨history, _, start_genesis, run, known, ?_⟩
  intro block state arrival engine child timely
  apply ((finality_tests start_genesis run known).2.1 block state arrival engine child).mpr
  exact ⟨timely, by decide +kernel⟩

def lateAnchor : Block :=
  { (default : Block) with root := .ofNat 1, status := .valid, slot := 4 }

theorem late_anchor_starts :
    (start .minimal .minimal .pruneEagerly lateAnchor 5 genesisBalances).toOption.isSome =
      true := by
  decide +kernel

theorem refused_child_of_contained :
    (∃ history fc block state arrival engine,
      start .minimal .minimal .pruneEagerly genesis 0 genesisBalances = .ok atGenesis ∧
      Run after (fun _ => Advances) atGenesis history fc ∧
      epochBlock 24 5 3 ⟨0, .ofNat 1⟩ ⟨0, .ofNat 1⟩ = .block block state arrival engine ∧
      fc.contains (.ofNat 3) = true ∧ block.parent = .ofNat 3 ∧
      (fc.onBlock block state arrival engine).result =
        .error (.invalidBlock (.notFinalizedDescendant (.ofNat 2) (some (.ofNat 3))))) ∧
    ∃ fc block state arrival engine,
      start .minimal .minimal .pruneEagerly lateAnchor 5 genesisBalances = .ok fc ∧
      earlyBlock 5 2 1 = .block block state arrival engine ∧
      fc.contains (.ofNat 1) = true ∧ block.parent = .ofNat 1 ∧
      (fc.onBlock block state arrival engine).result =
        .error (.invalidBlock (.notFinalizedDescendant (.ofNat 1) none)) := by
  constructor
  · obtain ⟨history, run⟩ := run_finalizedBeforeEmptySlot
    exact ⟨history, _, _, _, _, _, start_genesis, run, rfl, by decide +kernel, rfl,
      by decide +kernel⟩
  · exact ⟨_, _, _, _, _, Outcome.eq_ok_get late_anchor_starts, rfl, by decide +kernel, rfl,
      by decide +kernel⟩

end LmdGhost.ForkChoice
