import LmdGhost.Proofs.ForkChoice.Calls
/-!
Checkpoints and their balances. A checkpoint and the balances of its state enter the store together,
with the block that supplies both, first as the best justified pair or at once as the justified one;
later an epoch may start with the best pair. So the justified balances are always those that came
with the justified checkpoint, and the three checkpoints stay in the order of their epochs.
-/

namespace LmdGhost

namespace Store

variable {store store' : Store} {state : PostState} {advance : Advance}

def justifiedPair (store : Store) : Checkpoint × Balances :=
  (store.justified, store.justifiedBalances)

def bestPair (store : Store) : Checkpoint × Balances :=
  (store.bestJustified, store.bestJustifiedBalances)

def adopted (store : Store) : Store :=
  { store with justified := store.bestJustified, justifiedBalances := store.bestJustifiedBalances }

/-- What passing time makes of a store: another slot and, at most, the best pair as justified. -/
inductive Elapses (store : Store) : Store → Prop where
  | slot (slot : Slot) : Elapses store (store.setSlot slot)
  | adoption (slot : Slot) : store.justified.epoch < store.bestJustified.epoch →
      Elapses store (store.adopted.setSlot slot)

theorem Elapses.trans {store'' : Store} (first : Elapses store store')
    (second : Elapses store' store'') : Elapses store store'' := by
  cases first with
  | slot =>
    cases second with
    | slot slot => exact .slot slot
    | adoption slot ahead => exact .adoption slot ahead
  | adoption _ ahead =>
    cases second with
    | slot slot => exact .adoption slot ahead
    | adoption slot again => exact absurd again (UInt64.lt_irrefl _)

structure Ranked (store : Store) : Prop where
  finalized_le : store.finalized.epoch ≤ store.justified.epoch
  justified_le : store.justified.epoch ≤ store.bestJustified.epoch

namespace Ranked

theorem start (slot : Slot) (checkpoint : Checkpoint) (balances : Balances) :
    (Store.start slot checkpoint checkpoint balances).Ranked :=
  ⟨UInt64.le_refl _, UInt64.le_refl _⟩

theorem elapses (ranked : store.Ranked) (elapses : store.Elapses store') : store'.Ranked := by
  cases elapses with
  | slot => exact ⟨ranked.finalized_le, ranked.justified_le⟩
  | adoption _ ahead =>
    constructor
    · exact UInt64.le_trans ranked.finalized_le (UInt64.le_of_lt ahead)
    · exact UInt64.le_refl _

end Ranked

/-- The epoch of the best justified checkpoint after a block is not below that of its state. -/
theorem followed_best (store : Store) (state : PostState) (advance : Advance) :
    store.bestJustified.epoch ≤ (store.followed state advance).bestJustified.epoch ∧
      (store.justified.epoch < state.justified.epoch →
        state.justified.epoch ≤ (store.followed state advance).bestJustified.epoch) := by
  simp only [followed]
  split
  · rename_i best
    exact ⟨UInt64.le_of_lt best.2, fun _ => UInt64.le_refl _⟩
  · rename_i lower
    refine ⟨UInt64.le_refl _, fun newer => ?_⟩
    exact UInt64.not_lt.mp fun best => lower ⟨newer, best⟩

theorem followed_finalized_le (store : Store) (state : PostState) (advance : Advance) :
    store.finalized.epoch ≤ (store.followed state advance).finalized.epoch := by
  simp only [followed]
  split
  · rename_i newer
    exact UInt64.le_of_lt newer
  · exact UInt64.le_refl _

theorem followed_pairs (store : Store) (state : PostState) (advance : Advance) :
    ((store.followed state advance).bestPair = store.bestPair ∨
      (store.followed state advance).bestPair = (state.justified, advance.balances)) ∧
    ((store.followed state advance).justifiedPair = store.justifiedPair ∨
      (store.followed state advance).justifiedPair = (state.justified, advance.balances)) := by
  constructor
  · simp only [followed, bestPair]
    split
    · exact .inr rfl
    · exact .inl rfl
  · simp only [followed, justifiedPair]
    split
    · exact .inr rfl
    · exact .inl rfl

end Store

namespace ForkChoice

variable {fc fc' : ForkChoice} {history : List (Event ForkChoice Call)} {call : Call} {slot : Slot}
  {initial : Checkpoint × Balances}

theorem adoptBestJustified_elapses (fc : ForkChoice) :
    fc.store.Elapses fc.adoptBestJustified.state.store := by
  rcases fc.adoptBestJustified_cases with same | ⟨ahead, -, state⟩
  · rw [same]
    exact .slot fc.store.slot
  · rw [state]
    exact .adoption fc.store.slot ahead

theorem onTick_elapses (fc : ForkChoice) (slot : Slot) :
    fc.store.Elapses (fc.onTick slot).state.store := by
  have moved : fc.store.Elapses (fc.atSlot slot).store := .slot slot
  rcases fc.onTick_cases slot with same | same | same <;> rw [same]
  · exact .slot fc.store.slot
  · exact moved
  · exact moved.trans (fc.atSlot slot).adoptBestJustified_elapses

theorem updateTime_elapses (fc : ForkChoice) (slot : Slot) :
    fc.store.Elapses (fc.updateTime slot).state.store := by
  let P (fc' : ForkChoice) : Prop := fc.store.Elapses fc'.store
  apply updateTime_invariant (P := P) (.slot fc.store.slot)
  · intro fc' slot elapses
    exact elapses.trans (fc'.onTick_elapses slot)
  · intro fc' elapses
    show fc.store.Elapses fc'.processQueue.state.store
    rw [(processQueue_noted fc').sameChain.store]
    exact elapses
  · intro fc' elapses
    exact elapses

def Call.IsTimely : Call → Prop
  | .time _ | .tick _ => True
  | _ => False

inductive StoreStep (fc : ForkChoice) : Call → Store → Prop where
  | same {call : Call} : StoreStep fc call fc.store
  | followed {block : BeaconBlock} {state : PostState} {arrival : Arrival}
      {engine : ExecutionEngine} {entry : Block} {advance : Advance} :
      (fc.onBlock block state arrival engine).result = .ok entry →
      fc.advance? state arrival.balances = .ok (some advance) →
      StoreStep fc (.block block state arrival engine) (fc.store.followed state advance)
  | elapsed {call : Call} {store : Store} : call.IsTimely → fc.store.Elapses store →
      StoreStep fc call store

theorem storeStep_after (fc : ForkChoice) (call : Call) :
    StoreStep fc call (fc.after call).store := by
  have noted {fc' : ForkChoice} (noted : Noted fc fc') : StoreStep fc call fc'.store := by
    rw [noted.sameChain.store]
    exact .same
  cases call with
  | block block state arrival engine =>
    rw [after]
    rcases fc.onBlock_cases block state arrival engine with
      refused | ⟨admission, admitted, accepted, imported⟩
    · rw [refused]
      exact .same
    · obtain ⟨-, -, advances⟩ := admitted_of_vet admitted
      rw [imported, ForkChoice.imported, storeAfter]
      cases moved : admission.advance with
      | none => exact .same
      | some advance => exact .followed accepted (moved ▸ advances)
  | attestation attestation fromBlock => exact noted (onAttestation_noted fc attestation fromBlock)
  | message validator epoch root => exact noted (castVote_noted fc validator epoch root)
  | head =>
    obtain ⟨_, _, _, _, _, state⟩ := fc.updateHead_rehead
    rw [after, state]
    exact .same
  | time slot => exact .elapsed trivial (fc.updateTime_elapses slot)
  | tick slot => exact .elapsed trivial (fc.onTick_elapses slot)
  | prune | setPruneThreshold | validPayload => exact .same
  | invalidPayload root =>
    let P (fc' : ForkChoice) : Prop := StoreStep fc (.invalidPayload root) fc'.store
    exact Outcome.state_bind (P := P) .same fun _ _ => .same

/-- No accepted block has a state that finalizes a later epoch than it justifies. -/
def Ordered (_ : List (Event ForkChoice Call)) (fc : ForkChoice) : Call → Prop
  | .block block state arrival engine =>
    (∃ entry, (fc.onBlock block state arrival engine).result = .ok entry) →
      state.finalized.epoch ≤ state.justified.epoch
  | _ => True

theorem ranked_after (ranked : fc.store.Ranked) (ordered : Ordered history fc call) :
    (fc.after call).store.Ranked := by
  have step := fc.storeStep_after call
  generalize (fc.after call).store = store at step
  cases step with
  | same => exact ranked
  | elapsed _ elapses => exact ranked.elapses elapses
  | @followed block state arrival engine entry advance accepted advances =>
    have in_order : state.finalized.epoch ≤ state.justified.epoch := ordered ⟨_, accepted⟩
    obtain ⟨newer, forced⟩ := advance?_eq_some advances
    obtain ⟨best_grows, best_above⟩ := fc.store.followed_best state advance
    have finalized_le : fc.store.finalized.epoch ≤ state.justified.epoch := by
      rcases newer with justified | finalized
      · exact UInt64.le_trans ranked.finalized_le (UInt64.le_of_lt justified)
      · exact UInt64.le_trans (UInt64.le_of_lt finalized) in_order
    by_cases finalize : fc.store.finalized.epoch < state.finalized.epoch
    · -- The justified checkpoint of a state that finalizes may be earlier than the store's.
      obtain ⟨finalized_eq, justified_eq⟩ := Store.followed_of_finalize finalize (forced finalize)
      constructor
      · rwa [finalized_eq, justified_eq]
      · rw [justified_eq]
        by_cases ahead : fc.store.justified.epoch < state.justified.epoch
        · exact best_above ahead
        · have behind := UInt64.not_lt.mp ahead
          exact UInt64.le_trans (UInt64.le_trans behind ranked.justified_le) best_grows
    · have ahead := newer.resolve_right finalize
      constructor
      · rw [Store.followed_finalized advance finalize]
        simp only [Store.followed]
        split
        · exact finalized_le
        · exact ranked.finalized_le
      · simp only [Store.followed] at best_above best_grows ⊢
        cases advance.justify with
        | true => exact best_above ahead
        | false => exact UInt64.le_trans ranked.justified_le best_grows

/-- The best justified and the finalized checkpoint never move to an earlier epoch. -/
theorem epochs_le_after (fc : ForkChoice) (call : Call) :
    fc.store.finalized.epoch ≤ (fc.after call).store.finalized.epoch ∧
      fc.store.bestJustified.epoch ≤ (fc.after call).store.bestJustified.epoch := by
  have step := fc.storeStep_after call
  generalize (fc.after call).store = store at step
  cases step with
  | same => exact ⟨UInt64.le_refl _, UInt64.le_refl _⟩
  | elapsed _ elapses => cases elapses <;> exact ⟨UInt64.le_refl _, UInt64.le_refl _⟩
  | @followed _ state _ _ _ advance =>
    exact ⟨fc.store.followed_finalized_le state advance, (fc.store.followed_best state advance).1⟩

/-- A call imports a block that comes with a justified checkpoint and its balances. -/
def Supplies (event : Event ForkChoice Call) (pair : Checkpoint × Balances) : Prop :=
  match event.call with
  | .block block state arrival engine =>
    (∃ entry, (event.before.onBlock block state arrival engine).result = .ok entry) ∧
      state.justified = pair.1 ∧ arrival.balances = some pair.2
  | _ => False

def Keep (part : Store → α) (events : List (Event ForkChoice Call)) : Prop :=
  ∀ event ∈ events, part (event.before.after event.call).store = part event.before.store

/--
A part of the store has been as it is from the start on, or since a call that is its source, given
the calls before.
-/
def Since (part : Store → α) (initial : α)
    (source : List (Event ForkChoice Call) → Event ForkChoice Call → α → Prop)
    (history : List (Event ForkChoice Call)) (value : α) : Prop :=
  (Keep part history ∧ value = initial) ∨
    ∃ later event earlier, history = later ++ event :: earlier ∧ Keep part later ∧
      source earlier event value

/-- The best pair is that of the anchor, or the last call that changed it has supplied it. -/
def BestSupplied (initial : Checkpoint × Balances) :
    List (Event ForkChoice Call) → Checkpoint × Balances → Prop :=
  Since Store.bestPair initial fun _ => Supplies

/--
The justified pair is that of the anchor, or the last call that changed it has supplied it or has
adopted it as the best pair of the time, when an epoch started.
-/
def JustifiedSupplied (initial : Checkpoint × Balances) :
    List (Event ForkChoice Call) → Checkpoint × Balances → Prop :=
  Since Store.justifiedPair initial fun earlier event pair =>
    Supplies event pair ∨ event.call.IsTimely ∧ event.before.store.bestPair = pair ∧
      BestSupplied initial earlier pair

theorem Since.after {part : Store → α} {initial : α}
    {source : List (Event ForkChoice Call) → Event ForkChoice Call → α → Prop}
    (since : Since part initial source history (part fc.store))
    (step : part (fc.after call).store = part fc.store ∨
      source history ⟨fc, call⟩ (part (fc.after call).store)) :
    Since part initial source (⟨fc, call⟩ :: history) (part (fc.after call).store) := by
  rcases step with same | sourced
  · have kept {events : List (Event ForkChoice Call)} (keep : Keep part events) :
        Keep part (⟨fc, call⟩ :: events) := by
      intro event member
      rcases List.mem_cons.mp member with rfl | member
      · exact same
      · exact keep event member
    rw [same]
    rcases since with ⟨keep, unchanged⟩ | ⟨later, event, earlier, rfl, keep, sourced⟩
    · exact .inl ⟨kept keep, unchanged⟩
    · exact .inr ⟨⟨fc, call⟩ :: later, event, earlier, rfl, kept keep, sourced⟩
  · exact .inr ⟨[], ⟨fc, call⟩, history, rfl, List.forall_mem_nil _, sourced⟩

/-- What a call makes of the two pairs. -/
theorem pairs_after (fc : ForkChoice) (call : Call) :
    ((fc.after call).store.bestPair = fc.store.bestPair ∨
      Supplies ⟨fc, call⟩ (fc.after call).store.bestPair) ∧
    ((fc.after call).store.justifiedPair = fc.store.justifiedPair ∨
      Supplies ⟨fc, call⟩ (fc.after call).store.justifiedPair ∨
      call.IsTimely ∧ (fc.after call).store.justifiedPair = fc.store.bestPair) := by
  have step := fc.storeStep_after call
  generalize (fc.after call).store = store at step
  cases step with
  | same => exact ⟨.inl rfl, .inl rfl⟩
  | elapsed timely elapses =>
    cases elapses with
    | slot => exact ⟨.inl rfl, .inl rfl⟩
    | adoption => exact ⟨.inl rfl, .inr (.inr ⟨timely, rfl⟩)⟩
  | @followed block state arrival engine entry advance accepted advances =>
    have supplies : Supplies ⟨fc, .block block state arrival engine⟩
        (state.justified, advance.balances) :=
      ⟨⟨_, accepted⟩, rfl, advance?_balances advances⟩
    obtain ⟨best, justified⟩ := fc.store.followed_pairs state advance
    constructor
    · rcases best with kept | brought
      · exact .inl kept
      · rw [brought]
        exact .inr supplies
    · rcases justified with kept | brought
      · exact .inl kept
      · rw [brought]
        exact .inr (.inl supplies)

theorem start_store {preset : Preset} {config : ChainConfig} {settings : NodeSettings}
    {anchor : Block} {balances : Balances}
    (started : start preset config settings anchor slot balances = .ok fc) :
    fc.store = Store.start slot ⟨preset.epochOf anchor.slot, anchor.root⟩
      ⟨preset.epochOf anchor.slot, anchor.root⟩ balances := by
  obtain ⟨head, _, _, _, _, _, state⟩ := start_rehead started
  rw [state]
  rfl

structure Paired (initial : Checkpoint × Balances) (history : List (Event ForkChoice Call))
    (fc : ForkChoice) : Prop where
  ranked : fc.store.Ranked
  best : BestSupplied initial history fc.store.bestPair
  justified : JustifiedSupplied initial history fc.store.justifiedPair

namespace Paired

theorem after (paired : Paired initial history fc) (ordered : Ordered history fc call) :
    Paired initial (⟨fc, call⟩ :: history) (fc.after call) := by
  obtain ⟨best, justified⟩ := fc.pairs_after call
  refine ⟨ranked_after paired.ranked ordered, Since.after paired.best best, ?_⟩
  refine Since.after paired.justified (justified.imp_right ?_)
  rintro (supplied | ⟨timely, adopted⟩)
  · exact .inl supplied
  · refine .inr ⟨timely, adopted.symm, ?_⟩
    rw [adopted]
    exact paired.best

theorem start {preset : Preset} {config : ChainConfig} {settings : NodeSettings} {anchor : Block}
    {balances : Balances}
    (started : ForkChoice.start preset config settings anchor slot balances = .ok fc) :
    Paired (⟨preset.epochOf anchor.slot, anchor.root⟩, balances) [] fc := by
  have store := start_store started
  constructor
  · rw [store]
    exact .start slot _ balances
  · rw [store]
    exact .inl ⟨List.forall_mem_nil _, rfl⟩
  · rw [store]
    exact .inl ⟨List.forall_mem_nil _, rfl⟩

theorem of_run {preset : Preset} {config : ChainConfig} {settings : NodeSettings} {anchor : Block}
    {balances : Balances}
    (started : ForkChoice.start preset config settings anchor slot balances = .ok fc)
    (run : Run ForkChoice.after Ordered fc history fc') :
    Paired (⟨preset.epochOf anchor.slot, anchor.root⟩, balances) history fc' :=
  Run.invariant (P := Paired (⟨preset.epochOf anchor.slot, anchor.root⟩, balances))
    (Paired.start started) Paired.after run

end Paired

/--
In every state of a run whose accepted blocks finalize no later epoch than they justify, the
checkpoints are in the order of their epochs, the finalized and the best justified one have not
moved to an earlier epoch, and each justified checkpoint has the balances that came with it.
-/
theorem checkpoints_paired {preset : Preset} {config : ChainConfig} {settings : NodeSettings}
    {anchor : Block} {balances : Balances}
    (started : start preset config settings anchor slot balances = .ok fc)
    (run : Run after Ordered fc history fc') :
    fc'.store.Ranked ∧
    (∀ event ∈ history, event.before.store.finalized.epoch ≤ fc'.store.finalized.epoch ∧
      event.before.store.bestJustified.epoch ≤ fc'.store.bestJustified.epoch) ∧
    BestSupplied (⟨preset.epochOf anchor.slot, anchor.root⟩, balances) history
      fc'.store.bestPair ∧
    JustifiedSupplied (⟨preset.epochOf anchor.slot, anchor.root⟩, balances) history
      fc'.store.justifiedPair := by
  have paired := Paired.of_run started run
  refine ⟨paired.ranked, ?_, paired.best, paired.justified⟩
  clear started paired
  induction run with
  | start => exact List.forall_mem_nil _
  | @call earlier fc' _ call _ ih =>
    obtain ⟨finalized, best⟩ := fc'.epochs_le_after call
    intro event member
    rcases List.mem_cons.mp member with rfl | member
    · exact ⟨finalized, best⟩
    · obtain ⟨finalized_before, best_before⟩ := ih event member
      exact ⟨UInt64.le_trans finalized_before finalized, UInt64.le_trans best_before best⟩

/-- A fork justifies a later epoch late in the current one, and the next one adopts it. -/
theorem checkpoints_paired_after_adoption :
    ∃ history fc, start .mainnet .mainnet .pruneEagerly genesis 0 genesisBalances = .ok atMainnet ∧
      Run after Ordered atMainnet history fc ∧
      fc.store.justifiedPair = (⟨3, .ofNat 1⟩, [200]) ∧ fc.store.Ranked ∧
      JustifiedSupplied (⟨0, .ofNat 1⟩, genesisBalances) history fc.store.justifiedPair := by
  have started : Run after Ordered atMainnet [] atMainnet := .start
  have first := (started.call (.time 138) trivial).call
    (epochBlock 32 2 1 ⟨0, .ofNat 1⟩ ⟨0, .ofNat 1⟩) fun _ => by decide +kernel
  have second := first.call (epochBlock 64 3 2 ⟨1, .ofNat 2⟩ ⟨0, .ofNat 1⟩) fun _ => by
    decide +kernel
  have fork := second.call (.block
    { slot := 128, proposer := 0, parent := .ofNat 1, stateRoot := .zero, payload := {} }
    { slot := 128, justified := ⟨3, .ofNat 1⟩, finalized := ⟨0, .ofNat 1⟩, genesisTime := 0
      blockRootAt := fun _ => none }
    { root := .ofNat 4, delay := ⟨0⟩, balances := some [200], status := .valid } .absent)
    fun _ => by decide +kernel
  have adopted := fork.call (.time 160) trivial
  obtain ⟨ranked, -, -, justified⟩ := checkpoints_paired start_mainnet adopted
  exact ⟨_, _, start_mainnet, adopted, by decide +kernel, ranked, justified⟩

end ForkChoice

end LmdGhost
