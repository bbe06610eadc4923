import LmdGhost.Proofs.BlockTree.Headers
import LmdGhost.Proofs.ForkChoice.Selection
/-!
Finality is never lost. As long as the states of accepted blocks have their newer checkpoints on the
blocks' own chains, and only the finalized block is pruned to, the justified block descends from the
finalized one in every state of a run, the finalized checkpoint moves only to later epochs and to
descendants, and every head descends from both.
-/

namespace LmdGhost

/-- The first slots of epochs are in the order of the epochs. -/
theorem Preset.startSlot_mono (preset : Preset) {epoch epoch' : Epoch} (order : epoch ≤ epoch') :
    preset.startSlot epoch ≤ preset.startSlot epoch' := by
  rw [startSlot, startSlot, UInt64.le_iff_toNat_le, Word.toNat_satMul, Word.toNat_satMul]
  have product := Nat.mul_le_mul_right preset.slotsPerEpoch.toNat (UInt64.le_iff_toNat_le.mp order)
  omega

namespace ForkChoice

variable {fc fc' : ForkChoice} {block : BeaconBlock} {state : PostState} {arrival : Arrival}
  {engine : ExecutionEngine} {admission : Admission} {a b origin : Root} {slot slot' : Slot}
  {header : Root → Header}

/-- An arriving block's own chain has a block at a slot, or as the last one before it. -/
def OwnChainHas (fc : ForkChoice) (block : BeaconBlock) (arrival : Arrival) (slot : Slot)
    (root : Root) : Prop :=
  if block.slot ≤ slot then root = arrival.root
  else fc.tree.ancestor block.parent slot = .ok (some root)

instance (fc : ForkChoice) (block : BeaconBlock) (arrival : Arrival) (slot : Slot) (root : Root) :
    Decidable (fc.OwnChainHas block arrival slot root) :=
  inferInstanceAs (Decidable (if block.slot ≤ slot then root = arrival.root
    else fc.tree.ancestor block.parent slot = .ok (some root)))

/--
A block is what its root stands for and later than its parent, and its state has checkpoints that
belong to its chain: the finalized one is not the later one, and those of a state that is ahead are
the blocks of the chain at the starts of their epochs.
-/
structure ChainConsistent (header : Root → Header) (fc : ForkChoice) (block : BeaconBlock)
    (state : PostState) (arrival : Arrival) : Prop where
  named : header arrival.root = { slot := block.slot, parent := block.parent }
  later : (header block.parent).slot < block.slot
  ordered : state.finalized.epoch ≤ state.justified.epoch
  justified : fc.store.justified.epoch < state.justified.epoch ∨
      fc.store.finalized.epoch < state.finalized.epoch →
    fc.OwnChainHas block arrival (fc.preset.startSlot state.justified.epoch) state.justified.root
  finalized : fc.store.finalized.epoch < state.finalized.epoch →
    fc.OwnChainHas block arrival (fc.preset.startSlot state.finalized.epoch) state.finalized.root

/-- Accepted blocks are consistent with their chains, and pruning is to the finalized block. -/
def Consistent (header : Root → Header) (_ : List (Event ForkChoice Call)) (fc : ForkChoice) :
    Call → Prop
  | .block block state arrival engine =>
    (∃ entry, (fc.onBlock block state arrival engine).result = .ok entry) →
      ChainConsistent header fc block state arrival
  | .prune finalized => finalized = fc.store.finalized.root
  | _ => True

/--
A checkpoint is the finalized one, and the justified block descends from its block and is later.
-/
structure Secured (header : Root → Header) (origin : Root) (finalized : Checkpoint)
    (fc : ForkChoice) : Prop where
  wellFormed : fc.tree.WellFormed
  registered : ∃ gone, fc.tree.Registered header origin gone
  checkpoint : fc.store.finalized = finalized
  ordered : finalized.epoch ≤ fc.store.justified.epoch
  descends : fc.tree.descends finalized.root fc.store.justified.root = true

namespace ChainConsistent

variable {gone : List Root} {target : Root}

theorem order (consistent : ChainConsistent header fc block state arrival) :
    (header (header arrival.root).parent).slot < (header arrival.root).slot := by
  rw [consistent.named]
  exact consistent.later

theorem registered (consistent : ChainConsistent header fc block state arrival)
    (registered : fc.tree.Registered header origin gone)
    (known : fc.tree.contains block.parent = true) (target : Root) :
    (fc.tree.insert (entry block state arrival target)).Registered header origin gone := by
  refine registered.insert ?_ ?_ consistent.order
  · exact congrArg (fun header => some header.parent) consistent.named.symm
  · rw [show (entry block state arrival target).root = arrival.root from rfl, consistent.named]
    exact known

/-- Two blocks of an arriving block's chain are in the order of their slots. -/
theorem descends (consistent : ChainConsistent header fc block state arrival)
    (wf : fc.tree.WellFormed) (registered : fc.tree.Registered header origin gone)
    (has : fc.OwnChainHas block arrival slot a) (has' : fc.OwnChainHas block arrival slot' b)
    (order : slot ≤ slot') :
    (fc.tree.insert (entry block state arrival target)).descends a b = true := by
  rw [OwnChainHas] at has has'
  split at has
  · rename_i own
    rw [if_pos (UInt64.le_trans own order)] at has'
    subst has has'
    exact (wf.insert _).descends_refl (BlockTree.contains_insert _ _)
  · split at has'
    · subst has'
      have below := (wf.descends_of_ancestor has has (UInt64.le_refl _)).2
      have known := (wf.contains_of_descends below).2
      apply wf.descends_insert_child rfl below
      intro node found
      have linked := registered.parentIndex_eq wf (by rwa [consistent.named]) consistent.order found
      rwa [consistent.named] at linked
    · exact wf.descends_insert_of (wf.descends_of_ancestor has has' order).1

end ChainConsistent

namespace Secured

variable {finalized : Checkpoint}

/-- What an imported block does to the checkpoints. -/
theorem imported (secured : Secured header origin finalized fc)
    (consistent : ChainConsistent header fc block state arrival)
    (admitted : fc.vet block state arrival engine = .ok admission) :
    ∃ finalized', Secured header origin finalized' (fc.imported block state arrival admission) ∧
      (finalized' = finalized ∨ finalized.epoch < finalized'.epoch ∧
        (fc.imported block state arrival admission).tree.descends finalized.root
          finalized'.root = true) := by
  obtain ⟨wf, ⟨gone, registered⟩, rfl, ordered, descends⟩ := secured
  obtain ⟨late, finalized_above, advances⟩ := admitted_of_vet admitted
  have above := (wf.descends_of_ancestor finalized_above finalized_above (UInt64.le_refl _)).2
  have registered' := consistent.registered registered (wf.contains_of_descends above).2
    admission.target
  have wf' := wf.insert (entry block state arrival admission.target)
  have kept : (fc.tree.insert (entry block state arrival admission.target)).descends
      fc.store.finalized.root fc.store.justified.root = true := wf.descends_insert_of descends
  have finalized_on_chain : fc.OwnChainHas block arrival fc.finalizedSlot
      fc.store.finalized.root := by
    rw [OwnChainHas, if_neg (UInt64.not_le.mpr late)]
    exact finalized_above
  have below_finalized : ∀ {epoch root}, fc.store.finalized.epoch ≤ epoch →
      fc.OwnChainHas block arrival (fc.preset.startSlot epoch) root →
        (fc.tree.insert (entry block state arrival admission.target)).descends
          fc.store.finalized.root root = true := fun order has =>
    consistent.descends wf registered finalized_on_chain has (fc.preset.startSlot_mono order)
  rw [ForkChoice.imported, storeAfter]
  cases moved : admission.advance with
  | none => exact ⟨_, ⟨wf', ⟨gone, registered'⟩, rfl, ordered, kept⟩, .inl rfl⟩
  | some advance =>
    rw [moved] at advances
    obtain ⟨newer, forced⟩ := advance?_eq_some advances
    have justified_on_chain := consistent.justified newer
    -- A new finalized checkpoint takes the justified one of the same state along; otherwise the
    -- justified one moves alone, or not at all.
    by_cases finalize : fc.store.finalized.epoch < state.finalized.epoch
    · have finalized_on_chain' := consistent.finalized finalize
      have store_eq := Store.followed_of_finalize finalize (forced finalize)
      refine ⟨state.finalized, ⟨wf', ⟨gone, registered'⟩, store_eq.1, ?_, ?_⟩, .inr ⟨finalize, ?_⟩⟩
      · simp only [store_eq]
        exact consistent.ordered
      · simp only [store_eq]
        exact consistent.descends wf registered finalized_on_chain' justified_on_chain
          (fc.preset.startSlot_mono consistent.ordered)
      · exact below_finalized (UInt64.le_of_lt finalize) finalized_on_chain'
    · have finalized_eq := Store.followed_finalized advance finalize
      have justified_newer := newer.resolve_right finalize
      have order := UInt64.le_trans ordered (UInt64.le_of_lt justified_newer)
      have justified_eq : (fc.store.followed state advance).justified =
          if advance.justify then state.justified else fc.store.justified := rfl
      refine ⟨fc.store.finalized, ⟨wf', ⟨gone, registered'⟩, finalized_eq, ?_, ?_⟩, .inl rfl⟩ <;>
        simp only [justified_eq] <;> cases advance.justify
      · exact ordered
      · exact order
      · exact kept
      · exact below_finalized order justified_on_chain

/--
Changes that keep the checkpoints and the shape of the tree keep the order of the checkpoints.
-/
theorem of_shape (secured : Secured header origin finalized fc) (wf : fc'.tree.WellFormed)
    (same : fc'.store.finalized = fc.store.finalized)
    (justified : fc'.store.justified = fc.store.justified)
    (index : fc'.tree.index = fc.tree.index)
    (links : parents fc'.tree.nodes = parents fc.tree.nodes) :
    Secured header origin finalized fc' := by
  obtain ⟨gone, registered⟩ := secured.registered
  refine ⟨wf, ⟨gone, registered.of_shape index links⟩, same.trans secured.checkpoint, ?_, ?_⟩ <;>
    rw [justified]
  · exact secured.ordered
  · rw [secured.wellFormed.descends_congr wf index links]
    exact secured.descends

theorem of_sameChain (secured : Secured header origin finalized fc) (same : SameChain fc fc') :
    Secured header origin finalized fc' := by
  obtain ⟨-, store, tree⟩ := same
  refine secured.of_shape (by rw [tree]; exact secured.wellFormed) ?_ ?_ ?_ ?_ <;>
    simp only [store, tree]

theorem reweigh (secured : Secured header origin finalized fc) :
    Secured header origin finalized fc.reweigh.state := by
  have wf := secured.wellFormed
  obtain ⟨preset, store, tree | ⟨change, tree⟩⟩ := fc.reweigh_chain
  · exact secured.of_sameChain ⟨preset, store, tree⟩
  · obtain ⟨index, links⟩ := BlockTree.shape_applyScores wf change
    refine secured.of_shape (by rw [tree]; exact wf.applyScores change) ?_ ?_ ?_ ?_ <;>
      simp only [store, tree, index, links]

theorem selectHead (secured : Secured header origin finalized fc) :
    Secured header origin finalized fc.selectHead.state := by
  obtain ⟨head, state⟩ := fc.selectHead_state
  rw [state]
  exact secured.of_sameChain ⟨rfl, rfl, rfl⟩

theorem updateHead (secured : Secured header origin finalized fc) :
    Secured header origin finalized fc.updateHead.state := by
  rw [ForkChoice.updateHead]
  split
  · exact secured.selectHead
  · have done := secured.reweigh
    exact Outcome.state_bind (P := Secured header origin finalized) done fun _ _ => done.selectHead

theorem atSlot (secured : Secured header origin finalized fc) (slot : Slot) :
    Secured header origin finalized (fc.atSlot slot) :=
  secured.of_shape secured.wellFormed rfl rfl rfl rfl

/-- A promoted checkpoint is later than the justified one, and its chain has the finalized block. -/
theorem adoptBestJustified (secured : Secured header origin finalized fc) :
    Secured header origin finalized fc.adoptBestJustified.state := by
  rcases fc.adoptBestJustified_cases with same | ⟨ahead, finalized_above, state⟩
  · rwa [same]
  · rw [state]
    obtain ⟨wf, registered, rfl, ordered, -⟩ := secured
    refine ⟨wf, registered, rfl, ?_, ?_⟩
    · exact UInt64.le_trans ordered (UInt64.le_of_lt ahead)
    · exact (wf.descends_of_ancestor finalized_above finalized_above (UInt64.le_refl _)).2

theorem onTick (secured : Secured header origin finalized fc) (slot : Slot) :
    Secured header origin finalized (fc.onTick slot).state := by
  rcases fc.onTick_cases slot with same | same | same <;> rw [same]
  · exact secured
  · exact secured.atSlot slot
  · exact (secured.atSlot slot).adoptBestJustified

/-- The justified block is not in front of the finalized one, so pruning to that one keeps both. -/
theorem prune (secured : Secured header origin finalized fc) :
    Secured header origin finalized (fc.prune finalized.root).state := by
  obtain ⟨wf, ⟨gone, registered⟩, rfl, ordered, descends⟩ := secured
  rw [ForkChoice.prune, onTree, Outcome.state_lift]
  rcases wf.prune_cases fc.store.finalized.root with ⟨same, -⟩ | ⟨count, index, dropped, -⟩
  · rw [same]
    exact ⟨wf, ⟨gone, registered⟩, rfl, ordered, descends⟩
  · rw [dropped]
    refine ⟨wf.dropFirst count, ⟨_, registered.dropFirst wf count⟩, rfl, ordered, ?_⟩
    obtain ⟨node, at_count, named⟩ := wf.indexed.mp index
    rw [← Nat.zero_add count] at at_count
    rw [← named] at descends ⊢
    rwa [wf.descends_dropFirst at_count]

/-- A verdict changes statuses only. -/
theorem of_verdict (secured : Secured header origin finalized fc) {tree : BlockTree}
    (same : BlockTree.SameButStatuses fc.tree tree) (synced : Bool) :
    Secured header origin finalized { fc with tree, synced } :=
  secured.of_shape (same.wellFormed secured.wellFormed) rfl rfl same.index_eq same.parents_eq

theorem updateTime (secured : Secured header origin finalized fc) (slot : Slot) :
    Secured header origin finalized (fc.updateTime slot).state :=
  updateTime_invariant secured (fun slot secured => secured.onTick slot)
    (fun secured => secured.of_sameChain (processQueue_noted _).sameChain)
    (fun secured => secured.of_sameChain ⟨rfl, rfl, rfl⟩) slot

/-- No call loses finality, and only to a descendant of a later epoch does the checkpoint move. -/
theorem after (secured : Secured header origin finalized fc)
    {history : List (Event ForkChoice Call)} {call : Call}
    (consistent : Consistent header history fc call) :
    ∃ finalized', Secured header origin finalized' (fc.after call) ∧
      (finalized' = finalized ∨ finalized.epoch < finalized'.epoch ∧
        (fc.after call).tree.descends finalized.root finalized'.root = true) := by
  have kept : ∀ {fc'}, Secured header origin finalized fc' →
      ∃ finalized', Secured header origin finalized' fc' ∧
      (finalized' = finalized ∨ finalized.epoch < finalized'.epoch ∧
        fc'.tree.descends finalized.root finalized'.root = true) := fun secured =>
    ⟨finalized, secured, .inl rfl⟩
  cases call with
  | block block state arrival engine =>
    rw [ForkChoice.after]
    rcases fc.onBlock_cases block state arrival engine with
      refused | ⟨admission, admitted, accepted, state_eq⟩
    · rw [refused]
      exact kept secured
    · rw [state_eq]
      exact secured.imported (consistent ⟨_, accepted⟩) admitted
  | attestation attestation fromBlock =>
    exact kept (secured.of_sameChain (onAttestation_noted fc attestation fromBlock).sameChain)
  | message validator epoch root =>
    exact kept (secured.of_sameChain (castVote_noted fc validator epoch root).sameChain)
  | head => exact kept secured.updateHead
  | time slot => exact kept (secured.updateTime slot)
  | tick slot => exact kept (secured.onTick slot)
  | prune root =>
    obtain rfl : root = fc.store.finalized.root := consistent
    rw [secured.checkpoint]
    exact kept secured.prune
  | setPruneThreshold threshold =>
    exact kept (secured.of_shape (secured.wellFormed.setPruneThreshold threshold) rfl rfl rfl rfl)
  | validPayload root =>
    exact kept (secured.of_verdict (BlockTree.confirm_sameButStatuses fc.tree root) fc.synced)
  | invalidPayload root =>
    have rejected := BlockTree.reject_sameButStatuses fc.tree root
    refine kept (Outcome.state_bind (P := Secured header origin finalized) ?_ fun _ _ => ?_)
    · exact secured.of_verdict rejected fc.synced
    · exact secured.of_verdict rejected _

theorem start {preset : Preset} {config : ChainConfig} {settings : NodeSettings} {anchor : Block}
    {slot : Slot} {balances : Balances}
    (started : ForkChoice.start preset config settings anchor slot balances = .ok fc) :
    ∃ finalized, Secured header anchor.root finalized fc := by
  obtain ⟨head, _, -, state⟩ := start_ok started
  have secured : Secured header anchor.root ⟨preset.epochOf anchor.slot, anchor.root⟩
      (anchored preset config settings anchor slot balances head) := by
    have wf := wellFormed_anchored preset config settings anchor slot balances head
    refine ⟨wf, ⟨[], .of_anchor fun _ => anchored_contains_iff.mp⟩, rfl, UInt64.le_refl _, ?_⟩
    exact wf.descends_refl (anchored_contains_iff.mpr rfl)
  rw [state]
  exact ⟨_, secured.updateHead⟩

theorem of_run {history : List (Event ForkChoice Call)}
    (initial : ∃ finalized, Secured header origin finalized fc)
    (run : Run ForkChoice.after (Consistent header) fc history fc') :
    Secured header origin fc'.store.finalized fc' := by
  let P (_ : List (Event ForkChoice Call)) (fc : ForkChoice) : Prop :=
    ∃ finalized, Secured header origin finalized fc
  have secured : P history fc' := by
    refine Run.invariant (P := P) initial ?_ run
    rintro history fc call ⟨finalized, secured⟩ consistent
    obtain ⟨finalized', secured', -⟩ := secured.after consistent
    exact ⟨finalized', secured'⟩
  obtain ⟨finalized, secured⟩ := secured
  rwa [secured.checkpoint]

/-- A head that is selected descends from the justified block. -/
theorem selectHead_descends (secured : Secured header origin finalized fc) {head : Node}
    (selected : fc.selectHead.result = .ok head) :
    fc.tree.descends fc.store.justified.root head.root = true := by
  have wf := secured.wellFormed
  obtain ⟨i, justified, at_i, named, at_leaf, -⟩ := selectHead_ok wf selected
  rw [← named]
  exact (wf.descends_roots at_i at_leaf).mpr (wf.below_leafAt at_i)

theorem updateHead_descends (secured : Secured header origin finalized fc) {head : Node}
    (updated : fc.updateHead.result = .ok head) :
    fc.updateHead.state.store.justified = fc.store.justified ∧
      fc.updateHead.state.tree.descends fc.store.justified.root head.root = true := by
  obtain ⟨selected, store⟩ := updateHead_ok updated
  have descends := secured.updateHead.selectHead_descends selected
  rw [store] at descends ⊢
  exact ⟨rfl, descends⟩

end Secured

/--
In every state of a run whose blocks are told apart by their roots, the finalized and the justified
block are in the tree, the second below the first; a call leaves the finalized checkpoint as it is
or moves it to a descendant of a later epoch; and every head descends from the justified block and
so from the finalized one.
-/
theorem finality_kept (header : Root → Header) {preset : Preset} {config : ChainConfig}
    {settings : NodeSettings} {anchor : Block} {balances : Balances}
    {history : List (Event ForkChoice Call)}
    (started : start preset config settings anchor slot balances = .ok fc)
    (run : Run after (Consistent header) fc history fc') :
    (fc'.tree.contains fc'.store.finalized.root = true ∧
      fc'.tree.contains fc'.store.justified.root = true ∧
      fc'.tree.descends fc'.store.finalized.root fc'.store.justified.root = true) ∧
    (∀ call, Consistent header history fc' call →
      (fc'.after call).store.finalized = fc'.store.finalized ∨
        fc'.store.finalized.epoch < (fc'.after call).store.finalized.epoch ∧
          (fc'.after call).tree.descends fc'.store.finalized.root
            (fc'.after call).store.finalized.root = true) ∧
    ∀ head, fc'.updateHead.result = .ok head →
      fc'.updateHead.state.tree.descends fc'.store.justified.root head.root = true ∧
        fc'.updateHead.state.tree.descends fc'.store.finalized.root head.root = true := by
  have secured := Secured.of_run (Secured.start started) run
  refine ⟨?_, ?_, ?_⟩
  · obtain ⟨finalized_known, justified_known⟩ :=
      secured.wellFormed.contains_of_descends secured.descends
    exact ⟨finalized_known, justified_known, secured.descends⟩
  · intro call consistent
    obtain ⟨finalized', secured', moved⟩ := secured.after consistent
    rwa [secured'.checkpoint]
  · intro head updated
    obtain ⟨same, descends⟩ := secured.updateHead_descends updated
    have secured' := secured.updateHead
    have above := secured'.descends
    rw [same] at above
    exact ⟨descends, secured'.wellFormed.descends_trans above descends⟩

def epochHeader (root : Root) : Header where
  slot := .ofNat (8 * (root.toNat - 1))
  parent := .ofNat (root.toNat - 1)

/-- Three epochs, after which the first of their blocks is finalized and pruned to. -/
theorem finality_kept_over_epochs :
    ∃ history fc, start .minimal .minimal .pruneEagerly genesis 0 genesisBalances = .ok atGenesis ∧
      Run after (Consistent epochHeader) atGenesis history fc ∧ fc.store.finalized = ⟨1, .ofNat 2⟩ ∧
      fc.tree.contains fc.store.finalized.root = true ∧
      fc.tree.contains fc.store.justified.root = true ∧
      fc.tree.descends fc.store.finalized.root fc.store.justified.root = true := by
  have started : Run after (Consistent epochHeader) atGenesis [] atGenesis := .start
  have first := (started.call (.time 8) trivial).call
    (epochBlock 8 2 1 ⟨0, .ofNat 1⟩ ⟨0, .ofNat 1⟩) fun _ => by constructor <;> decide +kernel
  have second := (first.call (.time 16) trivial).call
    (epochBlock 16 3 2 ⟨1, .ofNat 2⟩ ⟨0, .ofNat 1⟩) fun _ => by constructor <;> decide +kernel
  have third := (second.call (.time 24) trivial).call
    (epochBlock 24 4 3 ⟨2, .ofNat 3⟩ ⟨1, .ofNat 2⟩) fun _ => by constructor <;> decide +kernel
  have pruned := third.call (.prune (.ofNat 2)) (by rw [Consistent]; decide +kernel)
  exact ⟨_, _, start_genesis, pruned, by decide +kernel,
    (finality_kept epochHeader start_genesis pruned).1⟩

end ForkChoice

end LmdGhost
