import LmdGhost.Proofs.ForkChoice.Admission
/-!
Justified checkpoints that have to wait. Late in an epoch a newer justified checkpoint on another
branch is only noted, as the best one, and adopted when the next epoch starts. One is noted at a
time, and another one takes its place only if it is of a later epoch. So no justified epoch is
lost unless the finalized checkpoint has moved to another branch than that of the one noted.
-/

namespace LmdGhost.ForkChoice

variable {fc fc' init : ForkChoice} {header : Root → Header} {origin : Root} {slot : Slot}
  {history : List (Event ForkChoice Call)} {call : Call} {checkpoint : Checkpoint}
  {initial : Checkpoint × Balances} {allowed : List (Event ForkChoice Call) → ForkChoice → Call →
    Prop}

/-- A call imports a block whose state has a justified checkpoint. -/
def Brings (event : Event ForkChoice Call) (checkpoint : Checkpoint) : Prop :=
  match event.call with
  | .block block state arrival engine =>
    (∃ entry, (event.before.onBlock block state arrival engine).result = .ok entry) ∧
      state.justified = checkpoint
  | _ => False

def HasFinalized (header : Root → Header) (origin : Root) (fc : ForkChoice)
    (checkpoint : Checkpoint) : Prop :=
  StandsAt header origin fc.finalizedSlot checkpoint.root fc.store.finalized.root

theorem Consistent.is_ordered (consistent : Consistent header history fc call) :
    Ordered history fc call := by
  cases call with
  | block => exact fun accepted => (consistent accepted).ordered
  | _ => trivial

theorem finalized_after (fc : ForkChoice) (call : Call) :
    (fc.after call).store.finalized = fc.store.finalized ∨
      fc.store.finalized.epoch < (fc.after call).store.finalized.epoch := by
  have step := fc.storeStep_after call
  generalize (fc.after call).store = store at step
  cases step with
  | same => exact .inl rfl
  | elapsed _ elapses => cases elapses <;> exact .inl rfl
  | @followed _ state _ _ _ advance =>
    simp only [Store.followed]
    split
    · rename_i newer
      exact .inr newer
    · exact .inl rfl

/-- Since a call of a run the finalized checkpoint has stayed, or it has moved to a later epoch. -/
theorem finalized_since (run : Run after allowed init history fc)
    {later earlier : List (Event ForkChoice Call)} {event : Event ForkChoice Call}
    (split : history = later ++ event :: earlier) :
    fc.preset = (event.before.after event.call).preset ∧
      (fc.store.finalized = (event.before.after event.call).store.finalized ∨
        (event.before.after event.call).store.finalized.epoch < fc.store.finalized.epoch) := by
  induction run generalizing later with
  | start => simp at split
  | @call history fc run call permitted ih =>
    cases later with
    | nil =>
      obtain ⟨rfl, -⟩ := List.cons.inj split
      exact ⟨rfl, .inl rfl⟩
    | cons _ later =>
      obtain ⟨-, split⟩ := List.cons.inj split
      obtain ⟨setup, since⟩ := ih split
      refine ⟨(SameSetup.after fc call).preset.trans setup, ?_⟩
      rcases fc.finalized_after call with same | moved
      · rwa [same]
      · rcases since with same | before
        · exact .inr (same ▸ moved)
        · exact .inr (UInt64.lt_trans before moved)

theorem advance?_ne_none {state : PostState} {balances : Option Balances}
    (newer : fc.store.justified.epoch < state.justified.epoch) :
    fc.advance? state balances ≠ .ok none := by
  simp only [advance?, newer, true_or, if_true]
  cases balances with
  | none => simp
  | some balances =>
    dsimp only
    split
    · simp
    · cases fc.mayJustify state with
      | error cause => simp
      | ok justify => simp

/-- The justified epoch of a block that is imported is not above the best one afterwards. -/
theorem brought_le_after (ranked : fc.store.Ranked) (brings : Brings ⟨fc, call⟩ checkpoint) :
    checkpoint.epoch ≤ (fc.after call).store.bestJustified.epoch := by
  cases call with
  | block block state arrival engine =>
    obtain ⟨⟨entered, accepted⟩, rfl⟩ := brings
    obtain ⟨admission, admitted, -⟩ := onBlock_ok accepted
    obtain ⟨-, -, advances⟩ := admitted_of_vet admitted
    have grows := (fc.epochs_le_after (.block block state arrival engine)).2
    by_cases newer : fc.store.justified.epoch < state.justified.epoch
    · rw [after, (onBlock_of_admitted admitted).2, imported, storeAfter]
      cases moved : admission.advance with
      | none =>
        rw [moved] at advances
        exact absurd advances (advance?_ne_none newer)
      | some advance => exact (fc.store.followed_best state advance).2 newer
    · have behind := UInt64.not_lt.mp newer
      exact UInt64.le_trans (UInt64.le_trans behind ranked.justified_le) grows
  | _ => exact brings.elim

/-- What the call supplies as the best justified checkpoint is on the finalized chain. -/
theorem hasFinalized_after (traceable : fc.tree.Traceable header origin)
    (ranked : fc.store.Ranked) (consistent : Consistent header history fc call) :
    (fc.after call).store.bestPair = fc.store.bestPair ∨
      Supplies ⟨fc, call⟩ (fc.after call).store.bestPair ∧
        HasFinalized header origin (fc.after call) (fc.after call).store.bestPair.1 := by
  have setup := (SameSetup.after fc call).preset
  rw [HasFinalized, finalizedSlot, setup]
  rcases (fc.pairs_after call).1 with same | supplies
  · exact .inl same
  · refine (em _).imp_right fun changed => ⟨supplies, ?_⟩
    have step := fc.storeStep_after call
    generalize (fc.after call).store = store at step changed ⊢
    cases step with
    | same => contradiction
    | elapsed _ elapses => cases elapses <;> contradiction
    | @followed block state arrival engine entered advance accepted advances =>
      have own := consistent ⟨_, accepted⟩
      obtain ⟨admission, admitted, -⟩ := onBlock_ok accepted
      obtain ⟨late, reaches, -⟩ := admitted_of_vet admitted
      by_cases newer : fc.store.justified.epoch < state.justified.epoch ∧
          fc.store.bestJustified.epoch < state.justified.epoch
      · have best : (fc.store.followed state advance).bestPair.1 = state.justified := by
          simp only [Store.bestPair, Store.followed, newer, and_self, if_true]
        have justified := (own.justified (.inl newer.1)).standsAt traceable accepted own.named
          own.later
        rw [best]
        by_cases finalize : fc.store.finalized.epoch < state.finalized.epoch
        · have finalized := (own.finalized finalize).standsAt traceable accepted own.named own.later
          have order := fc.preset.startSlot_mono own.ordered
          simp only [Store.followed, finalize, if_true]
          exact finalized.of_later justified order
        · have has : fc.OwnChainHas block arrival fc.finalizedSlot fc.store.finalized.root := by
            rw [OwnChainHas, if_neg (UInt64.not_le.mpr late)]
            exact reaches
          have finalized := has.standsAt traceable accepted own.named own.later
          have order := fc.preset.startSlot_mono
            (UInt64.le_trans ranked.finalized_le (UInt64.le_of_lt newer.1))
          rw [Store.followed_finalized advance finalize]
          exact finalized.of_later justified order
      · simp only [Store.bestPair, Store.followed, newer, if_false, not_true] at changed

structure Deferring (header : Root → Header) (origin : Root) (initial : Checkpoint × Balances)
    (history : List (Event ForkChoice Call)) (fc : ForkChoice) : Prop where
  traceable : fc.tree.Traceable header origin
  ranked : fc.store.Ranked
  initial_le : initial.1.epoch ≤ fc.store.finalized.epoch
  brought_le : ∀ event ∈ history, ∀ checkpoint, Brings event checkpoint →
    checkpoint.epoch ≤ fc.store.bestJustified.epoch
  best : Since Store.bestPair initial
    (fun _ event pair => Supplies event pair ∧
      HasFinalized header origin (event.before.after event.call) pair.1) history fc.store.bestPair

namespace Deferring

theorem after (deferring : Deferring header origin initial history fc)
    (consistent : Consistent header history fc call) :
    Deferring header origin initial (⟨fc, call⟩ :: history) (fc.after call) := by
  obtain ⟨traceable, ranked, initial_le, brought_le, best⟩ := deferring
  obtain ⟨finalized_grows, best_grows⟩ := fc.epochs_le_after call
  constructor
  · apply traceable_after traceable
    rintro entered ⟨accepted⟩
    have own := consistent ⟨_, accepted⟩
    exact extends_of_accepted accepted own.named own.later
  · exact ranked_after ranked consistent.is_ordered
  · exact UInt64.le_trans initial_le finalized_grows
  · intro event member checkpoint brings
    rcases List.mem_cons.mp member with rfl | member
    · exact brought_le_after ranked brings
    · exact UInt64.le_trans (brought_le event member checkpoint brings) best_grows
  · exact best.after (hasFinalized_after traceable ranked consistent)

theorem start {preset : Preset} {config : ChainConfig} {settings : NodeSettings} {anchor : Block}
    {balances : Balances} (named : (header anchor.root).slot = anchor.slot)
    (started : ForkChoice.start preset config settings anchor slot balances = .ok fc) :
    Deferring header anchor.root (⟨preset.epochOf anchor.slot, anchor.root⟩, balances) [] fc := by
  obtain ⟨ranked, best, -⟩ := Paired.start started
  refine ⟨traceable_start named started, ranked, ?_, List.forall_mem_nil _, ?_⟩
  · rw [start_store started]
    exact UInt64.le_refl _
  · exact .inl ⟨List.forall_mem_nil _, by rw [start_store started]; rfl⟩

end Deferring

/-- A tick to the first slot of an epoch, where it succeeds, adopts what is to be adopted. -/
theorem onTick_boundary (boundary : fc.preset.isEpochStart slot = true)
    (ticked : (fc.onTick slot).result = .ok ()) :
    (fc.onTick slot).state = (fc.atSlot slot).adoptBestJustified.state ∧
      (fc.atSlot slot).adoptBestJustified.result = .ok () := by
  rw [onTick] at ticked ⊢
  dsimp only at ticked ⊢
  split at ticked
  · contradiction
  · rename_i near
    rw [if_neg near, if_pos boundary]
    exact ⟨rfl, ticked⟩

/-- The best justified checkpoint is behind or adopted, or its chain is found not to fit. -/
theorem adopted_or_off_chain (adopted : fc.adoptBestJustified.result = .ok ()) :
    fc.store.bestJustified.epoch ≤ fc.adoptBestJustified.state.store.justified.epoch ∨
      fc.adoptBestJustified.state.store.justified = fc.store.justified ∧
        fc.store.justified.epoch < fc.store.bestJustified.epoch ∧
        ∃ found, fc.tree.ancestor fc.store.bestJustified.root fc.finalizedSlot = .ok found ∧
          found ≠ some fc.store.finalized.root := by
  rw [adoptBestJustified, ForkChoice.ancestor] at adopted ⊢
  split
  · rename_i behind
    exact .inl behind
  · rename_i ahead
    rw [if_neg ahead] at adopted
    cases found : fc.tree.ancestor fc.store.bestJustified.root fc.finalizedSlot with
    | error cause =>
      rw [found] at adopted
      contradiction
    | ok ancestor =>
      simp only [Outcome.mapError_ok]
      split
      · exact .inl (UInt64.le_refl _)
      · rename_i other
        exact .inr ⟨rfl, UInt64.not_le.mp ahead, ancestor, rfl, other⟩

/--
The best justified checkpoint is at a block whose chain does not have the finalized one, and the
finalized checkpoint has moved to a later epoch since the block came that has supplied it.
-/
structure Outrun (history : List (Event ForkChoice Call)) (fc : ForkChoice) : Prop where
  off_chain : ∃ found, fc.tree.ancestor fc.store.bestJustified.root fc.finalizedSlot = .ok found ∧
    found ≠ some fc.store.finalized.root
  finalized_since : ∃ later event earlier, history = later ++ event :: earlier ∧
    Keep Store.bestPair later ∧ Supplies event fc.store.bestPair ∧
    (event.before.after event.call).store.finalized.epoch < fc.store.finalized.epoch

/-- The best justified checkpoint is on the finalized chain unless that has moved since. -/
theorem Deferring.outrun (deferring : Deferring header origin initial history fc)
    (run : Run ForkChoice.after allowed init history fc)
    (finalized_known : fc.tree.contains fc.store.finalized.root = true)
    (ahead : fc.store.justified.epoch < fc.store.bestJustified.epoch)
    (off_chain : ∃ found,
      fc.tree.ancestor fc.store.bestJustified.root fc.finalizedSlot = .ok found ∧
        found ≠ some fc.store.finalized.root) : Outrun history fc := by
  obtain ⟨traceable, ranked, initial_le, -, best⟩ := deferring
  refine ⟨off_chain, ?_⟩
  rcases best with ⟨-, unchanged⟩ | ⟨later, event, earlier, split, keep, supplies, stands⟩
  · -- The checkpoint of the anchor is never ahead.
    have same : fc.store.bestJustified = initial.1 := congrArg (·.1) unchanged
    rw [same] at ahead
    have order := UInt64.le_trans initial_le ranked.finalized_le
    exact absurd ahead (UInt64.not_lt.mpr order)
  · refine ⟨later, event, earlier, split, keep, supplies, ?_⟩
    obtain ⟨setup, same | moved⟩ := finalized_since run split
    · obtain ⟨found, reaches, other⟩ := off_chain
      have best_known : fc.tree.contains fc.store.bestJustified.root = true := by
        cases known : fc.tree.contains fc.store.bestJustified.root with
        | true => rfl
        | false => simp [BlockTree.ancestor, known] at reaches
      rw [HasFinalized, finalizedSlot, ← setup, ← same] at stands
      have reached : fc.tree.ancestor fc.store.bestJustified.root fc.finalizedSlot =
          .ok (some fc.store.finalized.root) :=
        (traceable.ancestor_eq_some_iff best_known finalized_known).mpr stands
      rw [reaches, Except.ok.injEq] at reached
      exact absurd reached other
    · exact moved

/--
In a run whose blocks are told apart by their roots and consistent with their chains, and which is
pruned to finalized blocks only: after a tick to the first slot of an epoch the justified epoch is
not below that of the state of any block imported so far; or it has stayed as it is, because the
best justified checkpoint, whose epoch is not below these either, does not have the finalized block
on its chain, and the finalized checkpoint has moved since it was noted.
-/
theorem justified_of_tick (header : Root → Header) {preset : Preset} {config : ChainConfig}
    {settings : NodeSettings} {anchor : Block} {first : Slot} {balances : Balances}
    (named : (header anchor.root).slot = anchor.slot)
    (started : start preset config settings anchor first balances = .ok fc)
    (run : Run after (Consistent header) fc history fc')
    (boundary : fc'.preset.isEpochStart slot = true)
    (ticked : (fc'.onTick slot).result = .ok ()) :
    (∀ event ∈ history, ∀ checkpoint, Brings event checkpoint →
      checkpoint.epoch ≤ (fc'.onTick slot).state.store.justified.epoch) ∨
    (fc'.onTick slot).state.store.justified = fc'.store.justified ∧
      (∀ event ∈ history, ∀ checkpoint, Brings event checkpoint →
        checkpoint.epoch ≤ fc'.store.bestJustified.epoch) ∧ Outrun history fc' := by
  have deferring := Run.invariant
    (P := Deferring header anchor.root (⟨preset.epochOf anchor.slot, anchor.root⟩, balances))
    (.start named started) (fun deferring consistent => deferring.after consistent) run
  obtain ⟨⟨finalized_known, -, -⟩, -, -⟩ := finality_kept header started run
  obtain ⟨state, adopted⟩ := onTick_boundary boundary ticked
  rw [state]
  rcases adopted_or_off_chain adopted with reached | ⟨same, ahead, off_chain⟩
  · left
    intro event member checkpoint brings
    exact UInt64.le_trans (deferring.brought_le event member checkpoint brings) reached
  · exact .inr ⟨same, deferring.brought_le, deferring.outrun run finalized_known ahead off_chain⟩

/-- Two forks, one from the anchor and one from the first of three blocks in a row. -/
def rivalHeader (root : Root) : Header :=
  if root = .ofNat 6 then ⟨128, .ofNat 2⟩ else forkHeader root

/-- Late in the fifth epoch the first fork justifies the fourth one. -/
def forked : ForkChoice :=
  [.time 138, epochBlock 32 2 1 ⟨0, .ofNat 1⟩ ⟨0, .ofNat 1⟩,
    epochBlock 64 3 2 ⟨1, .ofNat 2⟩ ⟨0, .ofNat 1⟩,
    epochBlock 128 4 1 ⟨3, .ofNat 1⟩ ⟨0, .ofNat 1⟩].foldl after atMainnet

theorem run_forked :
    ∃ history, Run after (Consistent rivalHeader) atMainnet history forked := by
  have started : Run after (Consistent rivalHeader) atMainnet [] atMainnet := .start
  have first := (started.call (.time 138) trivial).call
    (epochBlock 32 2 1 ⟨0, .ofNat 1⟩ ⟨0, .ofNat 1⟩) fun _ => by constructor <;> decide +kernel
  have second := first.call (epochBlock 64 3 2 ⟨1, .ofNat 2⟩ ⟨0, .ofNat 1⟩) fun _ => by
    constructor <;> decide +kernel
  have fork := second.call (epochBlock 128 4 1 ⟨3, .ofNat 1⟩ ⟨0, .ofNat 1⟩) fun _ => by
    constructor <;> decide +kernel
  exact ⟨_, fork⟩

/-- The checkpoint of the fork is adopted when the next epoch starts. -/
theorem justified_of_tick_after_fork :
    ∃ history, start .mainnet .mainnet .pruneEagerly genesis 0 genesisBalances = .ok atMainnet ∧
      Run after (Consistent rivalHeader) atMainnet history (forked.after (.time 159)) ∧
      forked.store.justified = ⟨1, .ofNat 2⟩ ∧
      ((forked.after (.time 159)).onTick 160).state.store.justified = ⟨3, .ofNat 1⟩ ∧
      ∀ event ∈ history, ∀ checkpoint, Brings event checkpoint → checkpoint.epoch ≤ 3 := by
  obtain ⟨history, run⟩ := run_forked
  have waited := run.call (.time 159) trivial
  have ticked : ((forked.after (.time 159)).onTick 160).result = .ok () := by decide +kernel
  have adopted : ((forked.after (.time 159)).onTick 160).state.store.justified =
      ⟨3, .ofNat 1⟩ := by decide +kernel
  refine ⟨_, start_mainnet, waited, by decide +kernel, adopted, ?_⟩
  rcases justified_of_tick rivalHeader rfl start_mainnet waited (by decide +kernel) ticked with
    reached | ⟨same, -⟩
  · rwa [adopted] at reached
  · rw [adopted] at same
    exact absurd same (by decide +kernel)

/-- The second branch finalizes its first block, which the first fork does not have. -/
def outpaced : ForkChoice :=
  forked.after (epochBlock 96 5 3 ⟨2, .ofNat 3⟩ ⟨1, .ofNat 2⟩)

def rivalBlock : Call :=
  epochBlock 128 6 2 ⟨3, .ofNat 2⟩ ⟨1, .ofNat 2⟩

def rivals : ForkChoice :=
  (outpaced.after rivalBlock).after (.time 159)

/-- The checkpoint of the first fork has held the place that the one of the second fork needed. -/
theorem deferred_justification_lost :
    ∃ history, start .mainnet .mainnet .pruneEagerly genesis 0 genesisBalances = .ok atMainnet ∧
      Run after (Consistent rivalHeader) atMainnet history rivals ∧
      (∃ event ∈ history, Brings event ⟨3, .ofNat 2⟩) ∧
      rivals.tree.ancestor (.ofNat 2) rivals.finalizedSlot =
        .ok (some rivals.store.finalized.root) ∧
      rivals.preset.isEpochStart 160 = true ∧ (rivals.onTick 160).result = .ok () ∧
      (rivals.onTick 160).state.store.justified = ⟨2, .ofNat 3⟩ ∧
      ¬(3 : Epoch) ≤ (rivals.onTick 160).state.store.justified.epoch := by
  obtain ⟨history, run⟩ := run_forked
  have finalized := run.call (epochBlock 96 5 3 ⟨2, .ofNat 3⟩ ⟨1, .ofNat 2⟩) fun _ => by
    constructor <;> decide +kernel
  have rival : Run after (Consistent rivalHeader) atMainnet _ (outpaced.after rivalBlock) :=
    finalized.call rivalBlock fun _ => by constructor <;> decide +kernel
  have waited := rival.call (.time 159) trivial
  refine ⟨_, start_mainnet, waited, ⟨⟨outpaced, rivalBlock⟩, ?_, ?_⟩, ?_⟩
  · exact List.mem_cons_of_mem _ List.mem_cons_self
  · exact ⟨⟨_, Outcome.eq_ok_get (by decide +kernel)⟩, rfl⟩
  · decide +kernel

end LmdGhost.ForkChoice
