import LmdGhost.Proofs.ForkChoice.Selection
import LmdGhost.Proofs.ForkChoice.Weights
import LmdGhost.Proofs.VoteTable.Headroom
/-!
Runs in which no number gets out of range. Where every list of balances fits a change of weight
together with the boost that it leads to, the balances last applied and the boost last entered do so
as well, and a change of weights cannot fail. The head is then found, or the justified block is not
in the tree, or its best descendant is not viable.
-/

namespace LmdGhost.ForkChoice

namespace Error

/-- Whether a number or a position was out of range. -/
def isNumeric : Error → Bool
  | tree (.deltaOverflow _) | tree (.deltaUnderflow _) | tree (.deltaCount _ _)
  | tree (.indexOutOfBounds _) => true
  | _ => false

end Error

/-- Balances that fit a change of weight together with the boost that they lead to. -/
def Fits (preset : Preset) (config : ChainConfig) (settings : NodeSettings) (balances : Balances) :
    Prop :=
  balances.total + (if settings.boostEnabled then
    (settings.boostScore?.getD (boostScore preset config.boostPercent balances)).toNat else 0) ≤
      2 ^ 63 - 1

/-- A tidy call that supplies no balances but those that fit. -/
def Sane (history : List (Event ForkChoice Call)) (fc : ForkChoice) (call : Call) : Prop :=
  Tidy history fc call ∧
    match call with
    | .block _ _ arrival _ =>
      ∀ balances, arrival.balances = some balances → Fits fc.preset fc.config fc.settings balances
    | _ => True

/-- All balances that weights depend on, now or later, fit a change of weight with their boost. -/
structure Affordable (fc : ForkChoice) : Prop where
  justified : Fits fc.preset fc.config fc.settings fc.store.justifiedBalances
  best : Fits fc.preset fc.config fc.settings fc.store.bestJustifiedBalances
  applied : fc.appliedBalances.total + BlockTree.scoreOf fc.tree.boost ≤ 2 ^ 63 - 1

variable {fc fc' : ForkChoice} {gone : List Root} {slot : Slot} {tree : BlockTree}
  {history : List (Event ForkChoice Call)} {call : Call} {cause : Error}

/-- The boost of a state with balances that fit. -/
theorem total_add_scoreOf_boost? {balances : Balances}
    (fits : Fits fc.preset fc.config fc.settings balances)
    (applied : fc.appliedBalances = balances) :
    balances.total + BlockTree.scoreOf fc.boost? ≤ 2 ^ 63 - 1 := by
  rw [Fits] at fits
  rw [boost?, applied]
  cases fc.boostRoot with
  | none => exact (Nat.le_add_right _ _).trans fits
  | some root =>
    cases enabled : fc.settings.boostEnabled with
    | false => exact (Nat.le_add_right _ _).trans fits
    | true =>
      rw [enabled] at fits
      exact fits

namespace Affordable

theorem of_noted (affordable : Affordable fc) (noted : Noted fc fc') : Affordable fc' := by
  obtain ⟨_, _, _, _, rfl⟩ := noted
  exact { affordable with }

theorem of_tree (affordable : Affordable fc) (boost : tree.boost = fc.tree.boost) (synced : Bool) :
    Affordable { fc with tree, synced } := by
  refine { affordable with applied := ?_ }
  rw [boost]
  exact affordable.applied

theorem atSlot (affordable : Affordable fc) (slot : Slot) : Affordable (fc.atSlot slot) :=
  { affordable with }

theorem adoptBestJustified (affordable : Affordable fc) :
    Affordable fc.adoptBestJustified.state := by
  rcases fc.adoptBestJustified_cases with same | ⟨-, -, state⟩
  · rwa [same]
  · rw [state]
    exact { affordable with justified := affordable.best }

theorem onTick (affordable : Affordable fc) (slot : Slot) :
    Affordable (fc.onTick slot).state := by
  rcases fc.onTick_cases slot with same | same | same <;> rw [same]
  · exact affordable
  · exact affordable.atSlot slot
  · exact (affordable.atSlot slot).adoptBestJustified

theorem updateTime (affordable : Affordable fc) (slot : Slot) :
    Affordable (fc.updateTime slot).state :=
  updateTime_invariant affordable (fun slot affordable => affordable.onTick slot)
    (fun affordable => affordable.of_noted (processQueue_noted _))
    (fun affordable => { affordable with }) slot

/-- The boost that is entered goes with the balances that are applied. -/
theorem applyDeltas (justified : Fits fc.preset fc.config fc.settings fc.store.justifiedBalances)
    (best : Fits fc.preset fc.config fc.settings fc.store.bestJustifiedBalances)
    (applied : fc.appliedBalances = fc.store.justifiedBalances) (wf : fc.tree.WellFormed)
    {deltas : List Delta} (ok : (fc.applyDeltas deltas).result = .ok ()) :
    Affordable (fc.applyDeltas deltas).state := by
  rcases applyDeltas_cases fc deltas with ⟨_, -, failed, -⟩ | ⟨scored, -, state⟩
  · rw [failed] at ok
    contradiction
  · rw [state, (wf.applyScores_ok scored).2.1]
    refine ⟨justified, best, ?_⟩
    have fits := total_add_scoreOf_boost? justified applied
    rw [← applied] at fits
    exact fits

theorem reweigh (affordable : Affordable fc) (wf : fc.tree.WellFormed)
    (ok : fc.reweigh.result = .ok ()) : Affordable fc.reweigh.state := by
  rcases fc.reweigh_cases with ⟨_, -, failed, -⟩ | ⟨deltas, -, result, state⟩
  · rw [failed] at ok
    contradiction
  · rw [result] at ok
    rw [state]
    refine Affordable.applyDeltas ?_ ?_ rfl ?_ ok
    · exact affordable.justified
    · exact affordable.best
    · exact wf

theorem selectHead (affordable : Affordable fc) : Affordable fc.selectHead.state := by
  obtain ⟨head, state⟩ := fc.selectHead_state
  rw [state]
  exact { affordable with }

theorem updateHead (affordable : Affordable fc) (wf : fc.tree.WellFormed)
    (ok : fc.synced = false → fc.reweigh.result = .ok ()) : Affordable fc.updateHead.state := by
  rw [ForkChoice.updateHead]
  split
  · exact affordable.selectHead
  · rename_i outdated
    have done := affordable.reweigh wf (ok (Bool.eq_false_iff.mpr outdated))
    exact Outcome.state_bind (P := Affordable) done fun _ _ => done.selectHead

/-- A checkpoint that advances brings the balances that were supplied. -/
theorem imported (affordable : Affordable fc) {block : BeaconBlock} {state : PostState}
    {arrival : Arrival} {engine : ExecutionEngine} {admission : Admission}
    (admitted : fc.vet block state arrival engine = .ok admission)
    (fits : ∀ balances, arrival.balances = some balances →
      Fits fc.preset fc.config fc.settings balances) :
    Affordable (fc.imported block state arrival admission) := by
  have advances := (admitted_of_vet admitted).2.2
  have boost := BlockTree.boost_insert fc.tree (entry block state arrival admission.target)
  have ⟨justified, best⟩ : Fits fc.preset fc.config fc.settings
        (fc.storeAfter state admission).justifiedBalances ∧
      Fits fc.preset fc.config fc.settings
        (fc.storeAfter state admission).bestJustifiedBalances := by
    rw [storeAfter]
    cases advance : admission.advance with
    | none => exact ⟨affordable.justified, affordable.best⟩
    | some advance' =>
      rw [advance] at advances
      have supplied := fits _ (advance?_balances advances)
      constructor
      · dsimp only [Store.followed]
        split
        · exact supplied
        · exact affordable.justified
      · dsimp only [Store.followed]
        split
        · exact supplied
        · exact affordable.best
  refine ⟨justified, best, ?_⟩
  rw [ForkChoice.imported, boost]
  exact affordable.applied

/-- Every call of a sane run keeps all balances affordable unless a change of weights fails. -/
theorem after (affordable : Affordable fc) (wf : fc.tree.WellFormed) (sane : Sane history fc call)
    (ok : call = .head → fc.synced = false → fc.reweigh.result = .ok ()) :
    Affordable (fc.after call) := by
  cases call with
  | block block state arrival engine =>
    rw [ForkChoice.after]
    rcases fc.onBlock_cases block state arrival engine with
      refused | ⟨admission, admitted, -, imported⟩
    · rwa [refused]
    · rw [imported]
      exact affordable.imported admitted sane.2
  | attestation attestation fromBlock =>
    exact affordable.of_noted (onAttestation_noted fc attestation fromBlock)
  | message validator epoch root =>
    exact affordable.of_noted (castVote_noted fc validator epoch root)
  | head => exact affordable.updateHead wf (ok rfl)
  | time slot => exact affordable.updateTime slot
  | tick slot => exact affordable.onTick slot
  | prune finalized => exact affordable.of_tree (wf.boost_prune finalized) fc.synced
  | setPruneThreshold threshold => exact { affordable with }
  | validPayload root =>
    exact affordable.of_tree (BlockTree.confirm_sameButStatuses fc.tree root).boost_eq fc.synced
  | invalidPayload root =>
    have boost := (BlockTree.reject_sameButStatuses fc.tree root).boost_eq
    refine Outcome.state_bind (P := Affordable) ?_ fun _ _ => ?_
    · exact affordable.of_tree boost fc.synced
    · exact affordable.of_tree boost _

end Affordable

theorem lent_le_scoreOf (tree : BlockTree) (boost : Option Boost) (root : Root) :
    tree.lent boost root ≤ BlockTree.scoreOf boost := by
  cases boost with
  | none => exact Nat.le_refl 0
  | some boost =>
    rw [BlockTree.lent]
    split
    · exact Nat.le_refl _
    · exact Nat.zero_le _

/-- Votes that are moved with affordable balances can be entered into the weights. -/
theorem applyScores_of_affordable (tallied : Tallied gone fc) (affordable : Affordable fc)
    (table : VoteTable) {deltas : List Delta}
    (spread : Spread deltas fc.tree.nodes.length fc.store.justifiedBalances.total
      fc.appliedBalances.total)
    (count : deltas.length = fc.tree.nodes.length)
    (moves : fc.votes.Moves fc.tree.index fc.appliedBalances fc.store.justifiedBalances deltas) :
    (fc.tree.applyScores ((fc.withVotes table).scoreChange deltas)).result = .ok () := by
  have limit : Delta.limit = ((2 ^ 63 - 1 : Nat) : Int) := rfl
  have applied := affordable.applied
  have justified : fc.store.justifiedBalances.total +
      BlockTree.scoreOf (fc.withVotes table).boost? ≤ 2 ^ 63 - 1 :=
    total_add_scoreOf_boost? affordable.justified rfl
  have change : ((fc.withVotes table).scoreChange deltas).boost = (fc.withVotes table).boost? := rfl
  apply tallied.wellFormed.applyScores_of_spread count spread
  · rw [change]
    omega
  · omega
  · intro i node at_i
    have moved := tallied.weight_moved moves at_i
    have backed := support_le_total (fc.tree.descends node.root) fc.store.justifiedBalances
      (fc.votes.votes.map (·.latest))
    have lent := lent_le_scoreOf fc.tree (fc.withVotes table).boost? node.root
    refine ⟨UInt64.ofNat (support (fc.tree.descends node.root) fc.store.justifiedBalances 0
      (fc.votes.votes.map (·.latest)) + fc.tree.lent (fc.withVotes table).boost? node.root), ?_⟩
    rw [UInt64.toNat_ofNat_of_lt' (by simp only [UInt64.size]; omega), change]
    change _ = (node.weight.toNat : Int) + (changeUnder _ deltas + _ - _)
    omega

/-- Affordable balances move no weight out of range. -/
theorem reweigh_of_affordable (tallied : Tallied gone fc) (affordable : Affordable fc) :
    fc.reweigh.result = .ok () := by
  have wf := tallied.wellFormed
  have size := wf.size_index
  have justified := affordable.justified
  have applied := affordable.applied
  have limit : Delta.limit = ((2 ^ 63 - 1 : Nat) : Int) := rfl
  rw [Fits] at justified
  have inside : fc.tree.index.Inside fc.tree.index.size := by
    intro root i index
    rw [size]
    exact wf.index_lt index
  obtain ⟨deltas, moved, spread⟩ := fc.votes.deltas_spread fc.appliedBalances
    fc.store.justifiedBalances inside (by omega) (by omega)
  obtain ⟨-, count, moves⟩ := VoteTable.deltas_ok tallied.unset moved
  rw [size] at spread count
  rcases fc.reweigh_cases with ⟨_, failed, -⟩ | ⟨deltas', moved', result, -⟩
  · rw [moved] at failed
    contradiction
  · obtain rfl : deltas = deltas' := Except.ok.inj (moved.symm.trans moved')
    generalize (fc.votes.deltas fc.tree.index fc.appliedBalances
      fc.store.justifiedBalances).state = table at result
    rw [result]
    rcases applyDeltas_cases (fc.withVotes table) deltas with ⟨_, failed, -⟩ | ⟨-, passed, -⟩
    · have scored := applyScores_of_affordable tallied affordable table spread count moves
      cases scored.symm.trans failed
    · exact passed

theorem selectHead_not_numeric (wf : fc.tree.WellFormed)
    (failed : fc.selectHead.result = .error cause) : cause.isNumeric = false := by
  rcases selectHead_cases wf with missing | ⟨_, _, leaf, -, -, -, answer⟩
  · rw [missing] at failed
    cases failed
    rfl
  · rw [answer] at failed
    split at failed
    · contradiction
    · cases failed
      rfl

theorem updateHead_not_numeric (tallied : Tallied gone fc) (affordable : Affordable fc)
    (failed : fc.updateHead.result = .error cause) : cause.isNumeric = false := by
  rw [updateHead] at failed
  split at failed
  · exact selectHead_not_numeric tallied.wellFormed failed
  · have reweighed := reweigh_of_affordable tallied affordable
    rw [Outcome.result_bind_of_ok _ reweighed] at failed
    exact selectHead_not_numeric (tallied.reweigh reweighed).wellFormed failed

section
variable {preset : Preset} {config : ChainConfig} {settings : NodeSettings} {anchor : Block}
  {balances : Balances}

theorem affordable_anchored (fits : Fits preset config settings balances) (head : Node) :
    Affordable (anchored preset config settings anchor slot balances head) := by
  obtain ⟨block, tree, -⟩ := anchored_tree preset config settings anchor slot balances head
  refine ⟨fits, fits, ?_⟩
  rw [tree, BlockTree.boost_insert]
  exact (Nat.le_add_right _ _).trans fits

/-- A start does not fail for a number that is out of range either. -/
theorem start_in_range (nonzero : anchor.root ≠ .zero) (fits : Fits preset config settings balances)
    (failed : start preset config settings anchor slot balances = .error cause) :
    cause.isNumeric = false := by
  have resumed : resume preset config settings (.ofAnchor preset settings anchor slot balances) =
      .error cause := by
    rw [start] at failed
    cases resumed : resume preset config settings
      (.ofAnchor preset settings anchor slot balances) with
    | error cause' =>
      rw [resumed] at failed
      cases failed
      rfl
    | ok _ =>
      rw [resumed] at failed
      contradiction
  rcases resume_error resumed with ⟨fault, rfl⟩ | rfl | ⟨head, failed⟩
  · rfl
  · rfl
  · exact updateHead_not_numeric (Accounted.anchored nonzero head)
      (affordable_anchored fits head) failed

theorem affordable_of_start (nonzero : anchor.root ≠ .zero)
    (fits : Fits preset config settings balances)
    (started : start preset config settings anchor slot balances = .ok fc) :
    Tallied [] fc ∧ Affordable fc := by
  obtain ⟨head, _, -, state⟩ := start_ok started
  have tallied : Tallied [] (anchored preset config settings anchor slot balances head) :=
    Accounted.anchored nonzero head
  have affordable : Affordable (anchored preset config settings anchor slot balances head) :=
    affordable_anchored fits head
  have reweighed := reweigh_of_affordable tallied affordable
  rw [state]
  exact ⟨tallied.updateHead fun _ => reweighed,
    affordable.updateHead tallied.wellFormed fun _ => reweighed⟩

/--
In a run without zero roots, returns after pruning and balances that do not fit, the head never
fails for a number or a position that is out of range, neither at the start nor later.
-/
theorem updateHead_in_range (nonzero : anchor.root ≠ .zero)
    (fits : Fits preset config settings balances) :
    (∀ {cause}, start preset config settings anchor slot balances = .error cause →
        cause.isNumeric = false) ∧
      ∀ {fc history fc' cause}, start preset config settings anchor slot balances = .ok fc →
        Run after Sane fc history fc' → fc'.updateHead.result = .error cause →
          cause.isNumeric = false := by
  refine ⟨start_in_range nonzero fits, ?_⟩
  intro fc history fc' cause started run failed
  let P (history : List (Event ForkChoice Call)) (fc : ForkChoice) : Prop :=
    Tallied (removed history) fc ∧ Affordable fc
  have ⟨tallied, affordable⟩ : P history fc' := by
    apply Run.invariant (P := P) (affordable_of_start nonzero fits started) _ run
    rintro history fc call ⟨tallied, affordable⟩ sane
    have ok : call = .head → fc.synced = false → fc.reweigh.result = .ok () := fun _ _ =>
      reweigh_of_affordable tallied affordable
    exact ⟨Accounted.after tallied sane.1 ok, affordable.after tallied.wellFormed sane ok⟩
  exact updateHead_not_numeric tallied affordable failed

end

/-- The justified block is rejected together with the only block on top of it. -/
theorem updateHead_in_range_without_head :
    ∃ history fc, genesis.root ≠ .zero ∧
      Fits .minimal .minimal .pruneEagerly genesisBalances ∧
      start .minimal .minimal .pruneEagerly genesis 0 genesisBalances = .ok atGenesis ∧
      Run after Sane atGenesis history fc ∧
      ∃ cause, fc.updateHead.result = .error cause ∧ cause.isNumeric = false := by
  have nonzero : genesis.root ≠ .zero := by decide +kernel
  have fits : Fits .minimal .minimal .pruneEagerly genesisBalances := by
    rw [Fits]
    decide +kernel
  have supplied (fc : ForkChoice) (balances : Balances)
      (setup : fc.preset = .minimal ∧ fc.config = .minimal ∧ fc.settings = .pruneEagerly)
      (given : some genesisBalances = some balances) :
      Fits fc.preset fc.config fc.settings balances := by
    rw [setup.1, setup.2.1, setup.2.2, ← Option.some.inj given]
    exact fits
  have outset : Run after Sane atGenesis [] atGenesis := .start
  have grown := (outset.call (.time 16) ⟨trivial, trivial⟩).call
    (syncingBlock 8 2 1 ⟨0, .ofNat 1⟩)
    ⟨fun _ => by constructor <;> decide +kernel, fun _ => supplied _ _ (by decide +kernel)⟩
  have justified := grown.call (syncingBlock 16 3 2 ⟨1, .ofNat 2⟩)
    ⟨fun _ => by constructor <;> decide +kernel, fun _ => supplied _ _ (by decide +kernel)⟩
  have run := justified.call (.invalidPayload (.ofNat 2)) ⟨trivial, trivial⟩
  refine ⟨_, _, nonzero, fits, start_genesis, run, .tree (.headNotViable (.ofNat 2)), ?_, ?_⟩
  · decide +kernel
  · exact (updateHead_in_range nonzero fits).2 start_genesis run (by decide +kernel)

end LmdGhost.ForkChoice
