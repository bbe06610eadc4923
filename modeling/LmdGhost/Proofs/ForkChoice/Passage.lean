import LmdGhost.Proofs.BlockTree.Lineage
import LmdGhost.Proofs.ForkChoice.Accounts
import LmdGhost.Proofs.ForkChoice.Admission
import LmdGhost.Proofs.ForkChoice.Queue
/-!
How time gets on. A tick fails at the start of an epoch if the best justified block is to be adopted
but is not in the tree; all other ticks go through. In a run where checkpoints are blocks of the
chains that bring them, the best justified block can only be missing because it has been pruned.
-/

namespace LmdGhost.ForkChoice

/-- The best justified checkpoint is to be adopted, but its block is not in the tree. -/
def Blocked (fc : ForkChoice) : Prop :=
  fc.store.justified.epoch < fc.store.bestJustified.epoch ∧
    fc.tree.contains fc.store.bestJustified.root = false

/-- A slot is the first on the way to another at which a tick fails. -/
structure Obstructs (fc : ForkChoice) (slot stop : Slot) : Prop where
  blocked : fc.Blocked
  later : fc.store.slot < stop
  reached : stop ≤ slot
  boundary : fc.preset.isEpochStart stop = true
  first : ∀ earlier, fc.store.slot < earlier → earlier < stop →
    fc.preset.isEpochStart earlier = false

variable {fc fc' fc'' init : ForkChoice} {history : List (Event ForkChoice Call)} {call : Call}
  {slot stop : Slot} {count : Nat} {root found : Root} {header : Root → Header} {origin : Root}

theorem adoptBestJustified_ok (free : ¬fc.Blocked) : fc.adoptBestJustified.result = .ok () := by
  rw [adoptBestJustified]
  split
  · rfl
  · rename_i ahead
    have known : fc.tree.contains fc.store.bestJustified.root = true := by
      by_contra absent
      exact free ⟨UInt64.not_le.mp ahead, Bool.not_eq_true _ ▸ absent⟩
    simp only [ForkChoice.ancestor, BlockTree.ancestor, known, if_true, Outcome.mapError_ok]
    split <;> rfl

theorem adoptBestJustified_of_blocked (blocked : fc.Blocked) :
    fc.adoptBestJustified = .fail fc (.missingBlock fc.store.bestJustified.root) := by
  obtain ⟨ahead, absent⟩ := blocked
  simp [adoptBestJustified, UInt64.not_le.mpr ahead, ForkChoice.ancestor, BlockTree.ancestor,
    absent, Error.ofTree]

/-- After adopting the best justified checkpoint nothing is left to be adopted. -/
theorem not_blocked_adoptBestJustified (free : ¬fc.Blocked) :
    ¬fc.adoptBestJustified.state.Blocked := by
  rcases fc.adoptBestJustified_cases with same | ⟨-, -, same⟩
  · rwa [same]
  · rw [same]
    exact fun blocked => UInt64.lt_irrefl _ blocked.1

structure Elapsed (fc : ForkChoice) (count : Nat) (fc' : ForkChoice) : Prop where
  ticked : Ticked fc fc'
  slot : fc'.store.slot.toNat = fc.store.slot.toNat + count
  boost : fc'.boostRoot = if count = 0 then fc.boostRoot else none
  best : fc'.store.bestJustified = fc.store.bestJustified
  blocked : fc'.Blocked ↔ fc.Blocked

theorem toNat_succ (room : slot.toNat + 1 < UInt64.size) : (slot + 1).toNat = slot.toNat + 1 := by
  rw [UInt64.toNat_add]
  exact Nat.mod_eq_of_lt room

theorem onTick_next (room : fc.store.slot.toNat + 1 < UInt64.size) :
    fc.onTick (fc.store.slot + 1) =
      let next := fc.atSlot (fc.store.slot + 1)
      if fc.preset.isEpochStart (fc.store.slot + 1) then next.adoptBestJustified
      else .done next () := by
  have next := toNat_succ room
  have near : ¬(fc.store.slot + 1 < fc.store.slot ∨
      Word.satAdd fc.store.slot 1 < fc.store.slot + 1) := by
    simp only [UInt64.lt_iff_toNat_lt, next, Word.toNat_satAdd, UInt64.toNat_one]
    omega
  simp only [onTick, if_neg near]
  rfl

namespace Elapsed

theorem refl (fc : ForkChoice) : Elapsed fc 0 fc :=
  ⟨.refl fc, rfl, rfl, rfl, Iff.rfl⟩

theorem next (elapsed : Elapsed fc count fc') (tick : Elapsed fc' 1 fc'') :
    Elapsed fc (count + 1) fc'' where
  ticked := elapsed.ticked.trans tick.ticked
  slot := by rw [tick.slot, elapsed.slot, Nat.add_assoc]
  boost := tick.boost
  best := tick.best.trans elapsed.best
  blocked := tick.blocked.trans elapsed.blocked

theorem atSlot (room : fc.store.slot.toNat + 1 < UInt64.size) :
    Elapsed fc 1 (fc.atSlot (fc.store.slot + 1)) :=
  ⟨⟨_, _, _, rfl⟩, toNat_succ room, rfl, rfl, Iff.rfl⟩

theorem adoptBestJustified (elapsed : Elapsed fc count fc') (free : ¬fc'.Blocked) :
    Elapsed fc count fc'.adoptBestJustified.state := by
  have still := not_blocked_adoptBestJustified free
  rcases fc'.adoptBestJustified_cases with same | ⟨-, -, same⟩
  · rwa [same]
  · rw [same] at still ⊢
    refine ⟨elapsed.ticked.trans ⟨_, _, _, rfl⟩, elapsed.slot, elapsed.boost, elapsed.best, ?_⟩
    exact iff_of_false still fun blocked => free (elapsed.blocked.mpr blocked)

/-- A tick goes through unless an epoch starts and the best justified block is missing. -/
theorem onTick (room : fc.store.slot.toNat + 1 < UInt64.size)
    (free : fc.preset.isEpochStart (fc.store.slot + 1) = true → ¬fc.Blocked) :
    (fc.onTick (fc.store.slot + 1)).result = .ok () ∧
      Elapsed fc 1 (fc.onTick (fc.store.slot + 1)).state := by
  rw [onTick_next room]
  dsimp only
  split
  · rename_i boundary
    have free : ¬(fc.atSlot (fc.store.slot + 1)).Blocked := free boundary
    exact ⟨adoptBestJustified_ok free, (atSlot room).adoptBestJustified free⟩
  · exact ⟨rfl, atSlot room⟩

theorem advanceTime (room : fc.store.slot.toNat + count < UInt64.size)
    (free : ∀ stop, fc.store.slot < stop → stop.toNat ≤ fc.store.slot.toNat + count →
      fc.preset.isEpochStart stop = true → ¬fc.Blocked) :
    (fc.advanceTime count).result = .ok () ∧ Elapsed fc count (fc.advanceTime count).state := by
  induction count with
  | zero => exact ⟨rfl, .refl fc⟩
  | succ count ih =>
    obtain ⟨ok, elapsed⟩ := ih (by omega) fun stop later reached =>
      free stop later (by omega)
    rw [advanceTime_succ, Outcome.result_bind_of_ok _ ok, Outcome.state_bind_of_ok _ ok]
    generalize (fc.advanceTime count).state = fc' at elapsed ⊢
    have room' : fc'.store.slot.toNat + 1 < UInt64.size := by
      rw [elapsed.slot]
      exact room
    have slot : (fc'.store.slot + 1).toNat = fc.store.slot.toNat + count + 1 := by
      rw [toNat_succ room', elapsed.slot]
    have free' (boundary : fc'.preset.isEpochStart (fc'.store.slot + 1) = true) : ¬fc'.Blocked := by
      rw [elapsed.ticked.preset] at boundary
      rw [elapsed.blocked]
      refine free (fc'.store.slot + 1) ?_ (Nat.le_of_eq slot) boundary
      rw [UInt64.lt_iff_toNat_lt, slot]
      omega
    obtain ⟨ok, tick⟩ := onTick room' free'
    exact ⟨ok, elapsed.next tick⟩

end Elapsed

namespace Obstructs

theorem onTick (blocked : fc.Blocked) (room : fc.store.slot.toNat + 1 < UInt64.size)
    (boundary : fc.preset.isEpochStart (fc.store.slot + 1) = true) :
    (fc.onTick (fc.store.slot + 1)).result = .error (.missingBlock fc.store.bestJustified.root) ∧
      Elapsed fc 1 (fc.onTick (fc.store.slot + 1)).state := by
  have blocked : (fc.atSlot (fc.store.slot + 1)).Blocked := blocked
  rw [onTick_next room, if_pos boundary, adoptBestJustified_of_blocked blocked]
  exact ⟨rfl, .atSlot room⟩

/-- Ticks go on up to the start of an epoch, and there they stop. -/
theorem advanceTime (obstructs : fc.Obstructs slot stop)
    (enough : stop.toNat ≤ fc.store.slot.toNat + count) :
    (fc.advanceTime count).result = .error (.missingBlock fc.store.bestJustified.root) ∧
      Elapsed fc (stop.toNat - fc.store.slot.toNat) (fc.advanceTime count).state := by
  have later := UInt64.lt_iff_toNat_lt.mp obstructs.later
  induction count with
  | zero => omega
  | succ count ih =>
    rw [advanceTime_succ]
    by_cases before : stop.toNat ≤ fc.store.slot.toNat + count
    · obtain ⟨failed, elapsed⟩ := ih before
      rw [Outcome.result_bind_of_error _ failed, Outcome.state_bind_of_error _ failed]
      exact ⟨rfl, elapsed⟩
    · -- The last of these ticks is the one that fails.
      have last : stop.toNat = fc.store.slot.toNat + count + 1 := by omega
      have bound := stop.toNat_lt_size
      have room : fc.store.slot.toNat + count < UInt64.size := by omega
      obtain ⟨ok, elapsed⟩ := Elapsed.advanceTime room fun earlier after reached boundary => by
        have early := UInt64.lt_iff_toNat_lt.mpr (show earlier.toNat < stop.toNat by omega)
        rw [obstructs.first earlier after early] at boundary
        contradiction
      rw [Outcome.result_bind_of_ok _ ok, Outcome.state_bind_of_ok _ ok, ← elapsed.best]
      generalize (fc.advanceTime count).state = fc' at elapsed ⊢
      have room' : fc'.store.slot.toNat + 1 < UInt64.size := by
        rw [elapsed.slot]
        omega
      have here : fc'.store.slot + 1 = stop := by
        rw [← UInt64.toNat_inj, toNat_succ room', elapsed.slot, last]
      have boundary : fc'.preset.isEpochStart (fc'.store.slot + 1) = true := by
        rw [elapsed.ticked.preset, here]
        exact obstructs.boundary
      obtain ⟨failed, tick⟩ := onTick (elapsed.blocked.mpr obstructs.blocked) room' boundary
      have count_eq : stop.toNat - fc.store.slot.toNat = count + 1 := by omega
      rw [count_eq]
      exact ⟨failed, elapsed.next tick⟩

end Obstructs

/-- If the best justified block is missing, the first start of an epoch on the way obstructs. -/
theorem exists_obstructs (blocked : fc.Blocked) (later : fc.store.slot < stop)
    (reached : stop ≤ slot) (boundary : fc.preset.isEpochStart stop = true) :
    ∃ first, fc.Obstructs slot first := by
  induction n : stop.toNat using Nat.strong_induction_on generalizing stop with
  | _ n ih =>
    by_cases first : ∃ earlier, fc.store.slot < earlier ∧ earlier < stop ∧
        fc.preset.isEpochStart earlier = true
    · obtain ⟨earlier, after, before, boundary⟩ := first
      have order := n ▸ UInt64.lt_iff_toNat_lt.mp before
      exact ih _ order after (UInt64.le_trans (UInt64.le_of_lt before) reached) boundary rfl
    · refine ⟨stop, blocked, later, reached, boundary, fun earlier after before => ?_⟩
      by_contra stop
      exact first ⟨earlier, after, before, Bool.not_eq_false _ ▸ stop⟩

/-- Nothing obstructs the way to a slot before the one that does. -/
theorem Obstructs.free_before (obstructs : fc.Obstructs slot stop) {earlier : Slot}
    (before : earlier < stop) (other : Slot) : ¬fc.Obstructs earlier other := by
  intro sooner
  have interior := obstructs.first other sooner.later (UInt64.lt_of_le_of_lt sooner.reached before)
  rw [sooner.boundary] at interior
  contradiction

/-- Unless it is obstructed time gets to a slot, and what is due leaves the queue. -/
theorem updateTime_ok (sized : fc.Sized) (free : ∀ stop, ¬fc.Obstructs slot stop) :
    (fc.updateTime slot).result = .ok (max fc.store.slot slot) ∧
      (fc.updateTime slot).state.store.slot = max fc.store.slot slot ∧
      (fc.updateTime slot).state.boostRoot = (if fc.store.slot < slot then none else fc.boostRoot) ∧
      (fc.updateTime slot).state.queue = fc.queue.filter (max fc.store.slot slot ≤ ·.slot) := by
  have bound := slot.toNat_lt_size
  have here := fc.store.slot.toNat_lt_size
  have room : fc.store.slot.toNat + (slot.toNat - fc.store.slot.toNat) < UInt64.size := by omega
  obtain ⟨ok, elapsed⟩ := Elapsed.advanceTime room fun stop later reached boundary blocked => by
    have later' := UInt64.lt_iff_toNat_lt.mp later
    have reached : stop ≤ slot := UInt64.le_iff_toNat_le.mpr (by omega)
    obtain ⟨first, obstructs⟩ := exists_obstructs blocked later reached boundary
    exact free first obstructs
  rw [updateTime, Outcome.result_bind_of_ok _ ok, Outcome.state_bind_of_ok _ ok]
  generalize (fc.advanceTime (slot.toNat - fc.store.slot.toNat)).state = fc' at elapsed ⊢
  have counted : fc'.processQueue.result = .ok () :=
    processQueue_ok (by rw [elapsed.ticked.queue]; exact sized.queued)
  have voted := fc'.processQueue_voted
  have slot_eq : fc'.store.slot = max fc.store.slot slot := by
    rw [← UInt64.toNat_inj, UInt64.toNat_max, elapsed.slot]
    omega
  rw [Outcome.result_bind_of_ok _ counted, Outcome.state_bind_of_ok _ counted, Outcome.result_done,
    Outcome.state_done, voted.store, voted.boostRoot, voted.queue]
  refine ⟨congrArg _ slot_eq, slot_eq, ?_, ?_⟩
  · have moved : slot.toNat - fc.store.slot.toNat = 0 ↔ ¬fc.store.slot < slot := by
      rw [UInt64.lt_iff_toNat_lt]
      omega
    simp only [taken, elapsed.boost, moved, ite_not]
  · rw [← slot_eq, ← elapsed.ticked.queue]
    rfl

theorem updateTime_fails (obstructs : fc.Obstructs slot stop) :
    (fc.updateTime slot).result = .error (.missingBlock fc.store.bestJustified.root) ∧
      (fc.updateTime slot).state.store.slot = stop ∧
      (fc.updateTime slot).state.boostRoot = none ∧
      (fc.updateTime slot).state.queue = fc.queue ∧
      (fc.updateTime slot).state.Blocked := by
  have later := UInt64.lt_iff_toNat_lt.mp obstructs.later
  have reached := UInt64.le_iff_toNat_le.mp obstructs.reached
  obtain ⟨failed, elapsed⟩ := obstructs.advanceTime
    (show stop.toNat ≤ fc.store.slot.toNat + (slot.toNat - fc.store.slot.toNat) by omega)
  rw [updateTime, Outcome.result_bind_of_error _ failed, Outcome.state_bind_of_error _ failed]
  refine ⟨rfl, ?_, ?_, elapsed.ticked.queue, elapsed.blocked.mpr obstructs.blocked⟩
  · rw [← UInt64.toNat_inj, elapsed.slot]
    omega
  · rw [elapsed.boost, if_neg (by omega)]

/--
A block is what its root stands for, and a checkpoint of its state that is newer than that of the
store is the block of its chain at the start of the epoch.
-/
structure Rooted (header : Root → Header) (origin : Root) (fc : ForkChoice) (block : BeaconBlock)
    (state : PostState) (arrival : Arrival) : Prop where
  named : header arrival.root = { slot := block.slot, parent := block.parent }
  justified : fc.store.justified.epoch < state.justified.epoch →
    StandsAt header origin (fc.preset.startSlot state.justified.epoch) arrival.root
      state.justified.root
  finalized : fc.store.finalized.epoch < state.finalized.epoch →
    StandsAt header origin (fc.preset.startSlot state.finalized.epoch) arrival.root
      state.finalized.root

/-- Checkpoints are those of the chains that bring them, and pruning is to the finalized block. -/
def Passable (header : Root → Header) (origin : Root) (_ : List (Event ForkChoice Call))
    (fc : ForkChoice) (call : Call) : Prop :=
  call.IsSized ∧
    match call with
    | .block block state arrival engine =>
      (∃ entry, (fc.onBlock block state arrival engine).result = .ok entry) →
        Rooted header origin fc block state arrival
    | .prune finalized => finalized = fc.store.finalized.root
    | _ => True

def Seen (history : List (Event ForkChoice Call)) (fc : ForkChoice) (root : Root) : Prop :=
  fc.tree.contains root = true ∨ root ∈ removed history

def Enters (fc : ForkChoice) (root : Root) : Call → Prop
  | .block block state arrival engine =>
    (∃ entry, (fc.onBlock block state arrival engine).result = .ok entry) ∧ root = arrival.root
  | _ => False

/-- A call keeps all blocks but those that it removes, and no others get in than it brings. -/
theorem contains_after (wf : fc.tree.WellFormed) (call : Call) (root : Root) :
    (fc.tree.contains root = true →
      (fc.after call).tree.contains root = true ∨ root ∈ removedBy fc call) ∧
    ((fc.after call).tree.contains root = true →
      fc.tree.contains root = true ∨ fc.Enters root call) := by
  have unchanged (index : (fc.after call).tree.index = fc.tree.index) :
      (fc.tree.contains root = true →
        (fc.after call).tree.contains root = true ∨ root ∈ removedBy fc call) ∧
      ((fc.after call).tree.contains root = true →
        fc.tree.contains root = true ∨ fc.Enters root call) := by
    have same : (fc.after call).tree.contains root = fc.tree.contains root :=
      congrArg (·.contains root) index
    rw [same]
    exact ⟨.inl, .inl⟩
  rcases fc.tree_after call with same | ⟨induced, induces, tree⟩
  · exact unchanged (congrArg (·.index) same)
  · cases induces with
    | block accepted =>
      obtain ⟨admission, -, rfl⟩ := onBlock_ok accepted
      rw [tree, BlockTree.after, BlockTree.contains_insert_iff]
      constructor
      · exact fun known => .inl (.inr known)
      · rintro (new | known)
        · exact .inr ⟨⟨_, accepted⟩, new⟩
        · exact .inl known
    | prune finalized =>
      rcases wf.prune_cases finalized with ⟨same, -⟩ | ⟨count, -, dropped, pruned⟩
      · exact unchanged (congrArg (·.index) (tree.trans same))
      · rw [tree, BlockTree.after, dropped, removedBy_prune pruned]
        exact ⟨wf.contains_dropFirst, .inl ∘ wf.contains_of_dropFirst⟩
    | head change => exact unchanged (tree ▸ (BlockTree.shape_applyScores wf change).1)
    | setPruneThreshold => exact unchanged (tree ▸ rfl)
    | validPayload root =>
      exact unchanged (tree ▸ (BlockTree.confirm_sameButStatuses fc.tree root).index_eq)
    | invalidPayload root =>
      exact unchanged (tree ▸ (BlockTree.reject_sameButStatuses fc.tree root).index_eq)

theorem contains_of_removedBy (wf : fc.tree.WellFormed) (left : root ∈ removedBy fc call) :
    fc.tree.contains root = true := by
  cases call with
  | prune finalized =>
    rcases wf.prune_cases finalized with ⟨-, failed | none⟩ | ⟨count, -, -, pruned⟩
    · simp [removedBy, ForkChoice.prune, onTree, failed] at left
    · simp [removedBy_prune none] at left
    · rw [removedBy_prune pruned] at left
      obtain ⟨i, -, index⟩ := wf.mem_take_roots.mp left
      exact BlockTree.contains_iff_index.mpr ⟨i, index⟩
  | _ => exact absurd left (List.not_mem_nil)

namespace Seen

theorem after (wf : fc.tree.WellFormed) (seen : Seen history fc root) (call : Call) :
    Seen (⟨fc, call⟩ :: history) (fc.after call) root := by
  rcases seen with known | gone
  · exact ((fc.contains_after wf call root).1 known).imp_right (List.mem_append_left _)
  · exact .inr (List.mem_append_right _ gone)

theorem before (wf : fc.tree.WellFormed)
    (seen : Seen (⟨fc, call⟩ :: history) (fc.after call) root) :
    Seen history fc root ∨ fc.Enters root call := by
  rcases seen with known | gone
  · exact ((fc.contains_after wf call root).2 known).imp_left .inl
  · rcases List.mem_append.mp gone with now | earlier
    · exact .inl (.inl (contains_of_removedBy wf now))
    · exact .inl (.inr earlier)

/-- The blocks of the chain of a block that was seen have been seen. -/
theorem of_standsAt (parents : ∀ {root}, Seen history fc root → root ≠ origin →
    Seen history fc (header root).parent) (stands : StandsAt header origin slot root found)
    (seen : Seen history fc root) : Seen history fc found := by
  induction stands with
  | here => exact seen
  | before _ other _ ih => exact ih (parents seen other)

end Seen

structure Charted (header : Root → Header) (origin : Root) (history : List (Event ForkChoice Call))
    (fc : ForkChoice) : Prop where
  wellFormed : fc.tree.WellFormed
  sized : fc.Sized
  parents : ∀ {root}, Seen history fc root → root ≠ origin → Seen history fc (header root).parent
  best : Seen history fc fc.store.bestJustified.root

theorem contains_of_accepted {block : BeaconBlock} {state : PostState} {arrival : Arrival}
    {engine : ExecutionEngine} {entered : Block}
    (accepted : (fc.onBlock block state arrival engine).result = .ok entered) :
    fc.tree.contains block.parent = true ∧
      (fc.after (.block block state arrival engine)).tree.contains arrival.root = true := by
  obtain ⟨admission, admitted, rfl⟩ := onBlock_ok accepted
  obtain ⟨-, reaches, -⟩ := admitted_of_vet admitted
  refine ⟨BlockTree.contains_of_ancestor reaches, ?_⟩
  rw [after, (onBlock_of_admitted admitted).2]
  exact BlockTree.contains_insert fc.tree (entry block state arrival admission.target)

namespace Charted

theorem after (charted : Charted header origin history fc)
    (passable : Passable header origin history fc call) :
    Charted header origin (⟨fc, call⟩ :: history) (fc.after call) := by
  have wf := charted.wellFormed
  have parents {root : Root} (seen : Seen (⟨fc, call⟩ :: history) (fc.after call) root)
      (other : root ≠ origin) :
      Seen (⟨fc, call⟩ :: history) (fc.after call) (header root).parent := by
    rcases seen.before wf with old | enters
    · exact (charted.parents old other).after wf call
    · cases call with
      | block block state arrival engine =>
        obtain ⟨⟨entered, accepted⟩, rfl⟩ := enters
        have parent : Seen history fc (header arrival.root).parent := by
          rw [(passable.2 ⟨entered, accepted⟩).named]
          exact .inl (contains_of_accepted accepted).1
        exact parent.after wf _
      | _ => exact enters.elim
  refine ⟨wellFormed_after wf call, charted.sized.after passable.1, parents, ?_⟩
  have old := charted.best.after wf call
  have step := fc.storeStep_after call
  generalize stored : (fc.after call).store = store at step
  cases step with
  | same => exact old
  | elapsed _ elapses =>
    cases elapses with
    | slot | adoption => exact old
  | @followed block state arrival engine entered advance accepted =>
    simp only [Store.followed]
    split
    · rename_i newer
      have rooted := passable.2 ⟨entered, accepted⟩
      have entered := (contains_of_accepted accepted).2
      exact Seen.of_standsAt parents (rooted.justified newer.1) (.inl entered)
    · exact old

theorem start {preset : Preset} {config : ChainConfig} {settings : NodeSettings} {anchor : Block}
    {balances : Balances} (size : balances.length < UInt64.size)
    (started : ForkChoice.start preset config settings anchor slot balances = .ok fc) :
    Charted header anchor.root [] fc := by
  obtain ⟨head, state⟩ := start_after started
  have wf := wellFormed_anchored preset config settings anchor slot balances head
  have only {root : Root} : Seen [] (anchored preset config settings anchor slot balances head)
      root ↔ root = anchor.root := by
    simp [Seen, removed, anchored_contains_iff]
  have charted : Charted header anchor.root []
      (anchored preset config settings anchor slot balances head) :=
    ⟨wf, ⟨size, size, List.forall_mem_nil _⟩, fun seen other => absurd (only.mp seen) other,
      only.mpr rfl⟩
  have step : Passable header anchor.root []
      (anchored preset config settings anchor slot balances head) .head := ⟨trivial, trivial⟩
  have updated := charted.after step
  rw [← state] at updated
  exact ⟨updated.wellFormed, updated.sized, updated.parents, updated.best⟩

end Charted

/--
In a run where checkpoints are those of the chains that bring them and pruning is to the finalized
block, time gets to every slot unless, at the start of an epoch, the best justified checkpoint is to
be adopted and its block has been pruned. Then time stops there, and the queue is left as it is.
-/
theorem updateTime_passes (header : Root → Header) {preset : Preset} {config : ChainConfig}
    {settings : NodeSettings} {anchor : Block} {balances : Balances}
    (size : balances.length < UInt64.size)
    (started : start preset config settings anchor slot balances = .ok init)
    (run : Run after (Passable header anchor.root) init history fc) :
    (fc.Blocked → fc.store.bestJustified.root ∈ removed history) ∧
    ∀ slot,
      ((∀ stop, ¬fc.Obstructs slot stop) →
        (fc.updateTime slot).result = .ok (max fc.store.slot slot) ∧
        (fc.updateTime slot).state.store.slot = max fc.store.slot slot ∧
        (fc.updateTime slot).state.boostRoot =
          (if fc.store.slot < slot then none else fc.boostRoot) ∧
        (fc.updateTime slot).state.queue = fc.queue.filter (max fc.store.slot slot ≤ ·.slot)) ∧
      ∀ stop, fc.Obstructs slot stop →
        (fc.updateTime slot).result = .error (.missingBlock fc.store.bestJustified.root) ∧
        (fc.updateTime slot).state.store.slot = stop ∧
        (fc.updateTime slot).state.boostRoot = none ∧
        (fc.updateTime slot).state.queue = fc.queue ∧ (fc.updateTime slot).state.Blocked := by
  have charted := Run.invariant (P := Charted header anchor.root) (.start size started)
    Charted.after run
  refine ⟨fun blocked => ?_, fun slot => ⟨updateTime_ok charted.sized, fun _ => updateTime_fails⟩⟩
  have absent := blocked.2
  exact charted.best.resolve_left (by simp [absent])

/-- Blocks that the headers name, with checkpoints that are found on their chains. -/
theorem passable_epochBlock {root parent : Nat} {justified finalized : Checkpoint}
    (named : forkHeader (.ofNat root) = { slot, parent := .ofNat parent })
    (justifies : standsAt? forkHeader origin (fc.preset.startSlot justified.epoch) 4 (.ofNat root) =
      some justified.root)
    (finalizes : standsAt? forkHeader origin (fc.preset.startSlot finalized.epoch) 4 (.ofNat root) =
      some finalized.root) :
    Passable forkHeader origin history fc (epochBlock slot root parent justified finalized) := by
  constructor
  · rintro balances supplied
    cases supplied
    decide
  · intro _
    exact ⟨named, fun _ => .of_found 4 justifies, fun _ => .of_found 4 finalizes⟩

/--
A fork justifies a later epoch, the other side finalizes, and the block that the fork has justified
is pruned. One attestation waits.
-/
def forsakenCalls : List Call :=
  [.time 138,
    epochBlock 32 2 1 ⟨0, .ofNat 1⟩ ⟨0, .ofNat 1⟩,
    epochBlock 64 3 2 ⟨1, .ofNat 2⟩ ⟨0, .ofNat 1⟩,
    epochBlock 128 4 1 ⟨3, .ofNat 1⟩ ⟨0, .ofNat 1⟩,
    epochBlock 96 5 3 ⟨2, .ofNat 3⟩ ⟨1, .ofNat 2⟩,
    .attestation ⟨[0], ⟨138, 0, .ofNat 5, ⟨0, .ofNat 1⟩, ⟨4, .ofNat 5⟩⟩⟩ false,
    .prune (.ofNat 2)]

def forsaken : ForkChoice :=
  forsakenCalls.foldl after atMainnet

theorem run_forsaken :
    ∃ history, Run after (Passable forkHeader genesis.root) atMainnet history forsaken := by
  have started : Run after (Passable forkHeader genesis.root) atMainnet [] atMainnet := .start
  have moved := started.call (.time 138) ⟨trivial, trivial⟩
  have first := moved.call (epochBlock 32 2 1 ⟨0, .ofNat 1⟩ ⟨0, .ofNat 1⟩) <|
    passable_epochBlock (by decide +kernel) (by decide +kernel) (by decide +kernel)
  have second := first.call (epochBlock 64 3 2 ⟨1, .ofNat 2⟩ ⟨0, .ofNat 1⟩) <|
    passable_epochBlock (by decide +kernel) (by decide +kernel) (by decide +kernel)
  have fork := second.call (epochBlock 128 4 1 ⟨3, .ofNat 1⟩ ⟨0, .ofNat 1⟩) <|
    passable_epochBlock (by decide +kernel) (by decide +kernel) (by decide +kernel)
  have finalized := fork.call (epochBlock 96 5 3 ⟨2, .ofNat 3⟩ ⟨1, .ofNat 2⟩) <|
    passable_epochBlock (by decide +kernel) (by decide +kernel) (by decide +kernel)
  have attested := finalized.call
    (.attestation ⟨[0], ⟨138, 0, .ofNat 5, ⟨0, .ofNat 1⟩, ⟨4, .ofNat 5⟩⟩⟩ false) ⟨trivial, trivial⟩
  have pruned := attested.call (.prune (.ofNat 2)) ⟨trivial, by decide +kernel⟩
  exact ⟨_, pruned⟩

theorem slot_forsaken : forsaken.store.slot = 138 := by
  decide +kernel

theorem obstructs_forsaken : forsaken.Obstructs 160 160 := by
  have preset : forsaken.preset = .mainnet := by decide +kernel
  constructor
  case blocked => exact ⟨by decide +kernel, by decide +kernel⟩
  case first =>
    rw [slot_forsaken, preset]
    intro earlier later before
    have later : 138 < earlier.toNat := UInt64.lt_iff_toNat_lt.mp later
    have before : earlier.toNat < 160 := UInt64.lt_iff_toNat_lt.mp before
    apply beq_false_of_ne
    intro multiple
    have rest : earlier.toNat % 32 = 0 := congrArg UInt64.toNat multiple
    omega
  all_goals decide +kernel

/-- The slot of the attestation that waits is over, and still its vote is not counted. -/
theorem updateTime_forsaken :
    ∃ history, start .mainnet .mainnet .pruneEagerly genesis 0 genesisBalances = .ok atMainnet ∧
      Run after (Passable forkHeader genesis.root) atMainnet history forsaken ∧
      (forsaken.updateTime 160).result = .error (.missingBlock (.ofNat 1)) ∧
      (forsaken.updateTime 160).result ≠ .ok (max forsaken.store.slot 160) ∧
      (forsaken.updateTime 160).state.store.slot = 160 ∧
      (forsaken.updateTime 160).state.queue.map (·.slot) = [138] := by
  obtain ⟨history, run⟩ := run_forsaken
  refine ⟨history, start_mainnet, run, ?_, ?_, ?_, ?_⟩
  · decide +kernel
  · decide +kernel
  · decide +kernel
  · decide +kernel

/-- Within the epoch time passes, but not into the next one. -/
theorem updateTime_passes_within_epoch :
    ∃ history, genesisBalances.length < UInt64.size ∧
      start .mainnet .mainnet .pruneEagerly genesis 0 genesisBalances = .ok atMainnet ∧
      Run after (Passable forkHeader genesis.root) atMainnet history forsaken ∧
      (forsaken.updateTime 159).result = .ok 159 ∧
      (forsaken.updateTime 160).result = .error (.missingBlock (.ofNat 1)) ∧
      .ofNat 1 ∈ removed history := by
  obtain ⟨history, run⟩ := run_forsaken
  have size : genesisBalances.length < UInt64.size := by decide
  obtain ⟨gone, passes⟩ := updateTime_passes forkHeader size start_mainnet run
  have best : forsaken.store.bestJustified.root = .ofNat 1 := by decide +kernel
  have free := obstructs_forsaken.free_before (show (159 : Slot) < 160 by decide)
  obtain ⟨ok, -⟩ := (passes 159).1 free
  obtain ⟨failed, -⟩ := (passes 160).2 160 obstructs_forsaken
  have gone := gone obstructs_forsaken.blocked
  rw [slot_forsaken] at ok
  rw [best] at failed gone
  exact ⟨history, size, start_mainnet, run, ok, failed, gone⟩

end LmdGhost.ForkChoice
