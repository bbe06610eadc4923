import LmdGhost.Proofs.ForkChoice.Recollection
import LmdGhost.Proofs.Run
import Mathlib.Data.List.TakeWhile
/-!
Which block is boosted. It is the first timely block of the current slot, from its import until the
slot ends, as long as time is not set to the slot that has come already. Such a tick is allowed, and
it ends the boost like any other one: the next timely block of the same slot is boosted then.
-/

namespace LmdGhost.ForkChoice

/-- The block that a call imports in time for a boost, be it the first of its slot or not. -/
def timely? (event : Event ForkChoice Call) : Option Root :=
  match event.call with
  | .block block state arrival engine =>
    let fc := event.before
    if (fc.onBlock block state arrival engine).result.isOk && fc.settings.boostEnabled &&
        block.slot == fc.store.slot && arrival.delay < fc.settings.timelyThreshold fc.config then
      some arrival.root
    else none
  | _ => none

def ticksInPlace (event : Event ForkChoice Call) : Bool :=
  match event.call with
  | .tick slot => slot == event.before.store.slot
  | _ => false

/-- The calls that were made in a slot, latest first. -/
def inSlot (slot : Slot) (history : List (Event ForkChoice Call)) : List (Event ForkChoice Call) :=
  history.filter (·.before.store.slot == slot)

/-- Those of them that were made after the last tick in place. -/
def sinceTick (slot : Slot) (history : List (Event ForkChoice Call)) :
    List (Event ForkChoice Call) :=
  (inSlot slot history).takeWhile (!ticksInPlace ·)

/-- The first block that calls, latest first, have imported in time. -/
def firstTimely (events : List (Event ForkChoice Call)) : Option Root :=
  events.reverse.findSome? timely?

/-- The first timely block of some calls is boosted, and before it came there was no boost. -/
structure BoostsFirst (events : List (Event ForkChoice Call)) (fc : ForkChoice) : Prop where
  first : fc.boostRoot = firstTimely events
  lasting : ∀ event ∈ events,
    event.before.boostRoot = none ∨ event.before.boostRoot = fc.boostRoot

inductive Turn (event : Event ForkChoice Call) (fc : ForkChoice) : Prop where
  | rises (later : event.before.store.slot < fc.store.slot) (ended : fc.boostRoot = none)
  | restarts (in_place : ticksInPlace event = true) (slot : fc.store.slot = event.before.store.slot)
      (ended : fc.boostRoot = none)
  | goesOn (no_tick : ticksInPlace event = false) (slot : fc.store.slot = event.before.store.slot)
      (boost : fc.boostRoot = event.before.boostRoot.or (timely? event))

structure SameBoost (fc fc' : ForkChoice) : Prop where
  slot : fc'.store.slot = fc.store.slot
  boost : fc'.boostRoot = fc.boostRoot

variable {fc fc' init : ForkChoice} {history events : List (Event ForkChoice Call)} {call : Call}
  {slot : Slot}

namespace SameBoost

theorem refl (fc : ForkChoice) : SameBoost fc fc :=
  ⟨rfl, rfl⟩

theorem trans {fc'' : ForkChoice} (left : SameBoost fc fc') (right : SameBoost fc' fc'') :
    SameBoost fc fc'' :=
  ⟨right.slot.trans left.slot, right.boost.trans left.boost⟩

theorem of_noted (noted : Noted fc fc') : SameBoost fc fc' := by
  obtain ⟨_, _, _, _, rfl⟩ := noted
  exact ⟨rfl, rfl⟩

theorem of_rehead (rehead : Rehead fc fc') : SameBoost fc fc' := by
  obtain ⟨_, _, _, _, _, rfl⟩ := rehead
  exact ⟨rfl, rfl⟩

/-- Where no block is imported and no tick made in place, the slot goes on with the same boost. -/
theorem turn (same : SameBoost fc fc') (no_tick : ticksInPlace ⟨fc, call⟩ = false)
    (no_block : timely? ⟨fc, call⟩ = none) : Turn ⟨fc, call⟩ fc' :=
  .goesOn no_tick same.slot (by rw [same.boost, no_block, Option.or_none])

end SameBoost

/-- A tick is refused, which cannot happen in place, or it sets the slot and ends the boost. -/
theorem onTick_ends_boost (fc : ForkChoice) (slot : Slot) :
    (slot ≠ fc.store.slot ∧ (fc.onTick slot).state = fc) ∨
      (fc.store.slot ≤ slot ∧ (fc.onTick slot).state.store.slot = slot ∧
        (fc.onTick slot).state.boostRoot = none) := by
  rw [onTick]
  dsimp only
  split
  · rename_i refused
    refine .inl ⟨?_, rfl⟩
    rintro rfl
    simp only [UInt64.lt_iff_toNat_lt, Word.toNat_satAdd, UInt64.toNat_one] at refused
    have bound := fc.store.slot.toNat_lt_size
    omega
  · rename_i near
    refine .inr ⟨UInt64.not_lt.mp (not_or.mp near).1, ?_⟩
    split
    · rcases (fc.atSlot slot).adoptBestJustified_cases with same | ⟨-, -, same⟩
      · exact same ▸ ⟨rfl, rfl⟩
      · exact same ▸ ⟨rfl, rfl⟩
    · exact ⟨rfl, rfl⟩

theorem turn_onTick (fc : ForkChoice) (slot : Slot) :
    Turn ⟨fc, .tick slot⟩ (fc.onTick slot).state := by
  rcases fc.onTick_ends_boost slot with ⟨elsewhere, same⟩ | ⟨order, at_slot, ended⟩
  · rw [same]
    exact (SameBoost.refl fc).turn (beq_eq_false_iff_ne.mpr elsewhere) rfl
  · by_cases in_place : slot = fc.store.slot
    · exact .restarts (beq_iff_eq.mpr in_place) (at_slot.trans in_place) ended
    · refine .rises ?_ ended
      rw [at_slot]
      exact UInt64.lt_of_le_of_ne order (Ne.symm in_place)

theorem turn_onBlock (fc : ForkChoice) (block : BeaconBlock) (state : PostState)
    (arrival : Arrival) (engine : ExecutionEngine) :
    Turn ⟨fc, .block block state arrival engine⟩ (fc.onBlock block state arrival engine).state := by
  cases vetted : fc.vet block state arrival engine with
  | error cause =>
    obtain ⟨refused, same⟩ := onBlock_of_refused vetted
    rw [same]
    exact (SameBoost.refl fc).turn rfl (by simp [timely?, refused, Except.isOk, Except.toBool])
  | ok admission =>
    obtain ⟨accepted, imported⟩ := onBlock_of_admitted vetted
    have slot : (fc.storeAfter state admission).slot = fc.store.slot := by
      rw [storeAfter]
      cases admission.advance <;> rfl
    rw [imported]
    refine .goesOn rfl slot ?_
    cases boosted : fc.boostRoot <;>
      simp [ForkChoice.imported, boosts, timely?, boosted, slot, accepted, Except.isOk,
        Except.toBool]

/-- Ticks from slot to slot leave the boost as it is where they get nowhere, and else end it. -/
theorem advanceTime_ends_boost (fc : ForkChoice) (count : Nat) :
    SameBoost fc (fc.advanceTime count).state ∨
      fc.store.slot < (fc.advanceTime count).state.store.slot ∧
        (fc.advanceTime count).state.boostRoot = none := by
  induction count with
  | zero => exact .inl (.refl fc)
  | succ count ih =>
    let P (fc' : ForkChoice) : Prop :=
      SameBoost fc fc' ∨ fc.store.slot < fc'.store.slot ∧ fc'.boostRoot = none
    rw [advanceTime_succ]
    refine Outcome.state_bind (P := P) ih fun _ _ => ?_
    have reached := (fc.advanceTime_ticked count).2
    generalize (fc.advanceTime count).state = fc' at ih reached ⊢
    rcases fc'.onTick_ends_boost (fc'.store.slot + 1) with ⟨-, same⟩ | ⟨order, next, ended⟩
    · rwa [same]
    · refine .inr ⟨?_, ended⟩
      rw [next]
      refine UInt64.lt_of_le_of_lt reached (UInt64.lt_of_le_of_ne order ?_)
      simp

/-- An update of time ends the boost if it gets to another slot, also where it gets stuck there. -/
theorem turn_updateTime (fc : ForkChoice) (slot : Slot) :
    Turn ⟨fc, .time slot⟩ (fc.updateTime slot).state := by
  have ticked := fc.advanceTime_ends_boost (slot.toNat - fc.store.slot.toNat)
  have counted : SameBoost (fc.advanceTime (slot.toNat - fc.store.slot.toNat)).state
      (fc.updateTime slot).state := by
    rw [updateTime]
    generalize fc.advanceTime (slot.toNat - fc.store.slot.toNat) = advanced
    refine Outcome.state_bind (P := SameBoost advanced.state) (.refl _) fun _ _ => ?_
    have processed := SameBoost.of_noted advanced.state.processQueue_noted
    exact Outcome.state_bind (P := SameBoost advanced.state) processed fun _ _ => { processed with }
  rcases ticked with same | ⟨later, ended⟩
  · exact (same.trans counted).turn rfl rfl
  · exact .rises (counted.slot ▸ later) (counted.boost.trans ended)

theorem turn_after (fc : ForkChoice) (call : Call) : Turn ⟨fc, call⟩ (fc.after call) := by
  cases call with
  | block block state arrival engine => exact turn_onBlock fc block state arrival engine
  | time slot => exact turn_updateTime fc slot
  | tick slot => exact turn_onTick fc slot
  | attestation attestation fromBlock =>
    exact (SameBoost.of_noted (onAttestation_noted fc attestation fromBlock)).turn rfl rfl
  | message validator epoch root =>
    exact (SameBoost.of_noted (castVote_noted fc validator epoch root)).turn rfl rfl
  | head => exact (SameBoost.of_rehead fc.updateHead_rehead).turn rfl rfl
  | prune | setPruneThreshold | validPayload =>
    exact SameBoost.turn ⟨rfl, rfl⟩ rfl rfl
  | invalidPayload root =>
    have same : SameBoost fc (fc.onInvalidPayload root).state :=
      Outcome.state_bind (P := SameBoost fc) ⟨rfl, rfl⟩ fun _ _ => ⟨rfl, rfl⟩
    exact same.turn rfl rfl

theorem firstTimely_cons (event : Event ForkChoice Call) (events : List (Event ForkChoice Call)) :
    firstTimely (event :: events) = (firstTimely events).or (timely? event) := by
  rw [firstTimely, firstTimely, List.reverse_cons, List.findSome?_append, List.findSome?_singleton]

namespace BoostsFirst

theorem nil (ended : fc.boostRoot = none) : BoostsFirst [] fc :=
  ⟨ended, List.forall_mem_nil _⟩

theorem cons (boosts : BoostsFirst events fc)
    (boost : fc'.boostRoot = fc.boostRoot.or (timely? ⟨fc, call⟩)) :
    BoostsFirst (⟨fc, call⟩ :: events) fc' := by
  have none_or_same : fc.boostRoot = none ∨ fc.boostRoot = fc'.boostRoot := by
    rw [boost]
    cases fc.boostRoot
    · exact .inl rfl
    · exact .inr rfl
  refine ⟨?_, List.forall_mem_cons.mpr ⟨none_or_same, fun event member => ?_⟩⟩
  · rw [boost, boosts.first, firstTimely_cons]
  · rcases boosts.lasting event member with unset | same
    · exact .inl unset
    · rwa [same]

end BoostsFirst

structure Boosted (history : List (Event ForkChoice Call)) (fc : ForkChoice) : Prop where
  past : ∀ event ∈ history, event.before.store.slot ≤ fc.store.slot
  first : BoostsFirst (sinceTick fc.store.slot history) fc

namespace Boosted

theorem after (boosted : Boosted history fc) (call : Call) :
    Boosted (⟨fc, call⟩ :: history) (fc.after call) := by
  have order := fc.slot_le_after call
  refine ⟨List.forall_mem_cons.mpr ⟨order, fun event member =>
    UInt64.le_trans (boosted.past event member) order⟩, ?_⟩
  cases fc.turn_after call with
  | rises later ended =>
    -- All calls were made in earlier slots.
    have none_yet : inSlot (fc.after call).store.slot (⟨fc, call⟩ :: history) = [] := by
      rw [inSlot, List.filter_eq_nil_iff]
      refine List.forall_mem_cons.mpr ⟨?_, fun event member => ?_⟩
      · simpa using UInt64.ne_of_lt later
      · simpa using UInt64.ne_of_lt (UInt64.lt_of_le_of_lt (boosted.past event member) later)
    rw [sinceTick, none_yet]
    exact .nil ended
  | restarts in_place slot ended =>
    have none_since : sinceTick (fc.after call).store.slot (⟨fc, call⟩ :: history) = [] := by
      rw [slot, sinceTick, inSlot, List.filter_cons_of_pos (by simp),
        List.takeWhile_cons_of_neg (by simp [in_place])]
    rw [none_since]
    exact .nil ended
  | goesOn no_tick slot boost =>
    have one_more : sinceTick (fc.after call).store.slot (⟨fc, call⟩ :: history) =
        ⟨fc, call⟩ :: sinceTick fc.store.slot history := by
      rw [slot, sinceTick, inSlot, List.filter_cons_of_pos (by simp),
        List.takeWhile_cons_of_pos (by simp [no_tick])]
      rfl
    rw [one_more]
    exact boosted.first.cons boost

theorem start {preset : Preset} {config : ChainConfig} {settings : NodeSettings} {anchor : Block}
    {slot : Slot} {balances : Balances}
    (started : ForkChoice.start preset config settings anchor slot balances = .ok fc) :
    Boosted [] fc := by
  obtain ⟨head, rehead⟩ := start_rehead started
  exact ⟨List.forall_mem_nil _, .nil (SameBoost.of_rehead rehead).boost⟩

end Boosted

/--
In every state of a run the boost is that of the first timely block since the slot has come or has
last been ticked in place, and it ends whenever another slot comes. So unless there has been a tick
in place, the first timely block of the slot is boosted, and has been so since its import.
-/
theorem first_timely_boosted {preset : Preset} {config : ChainConfig} {settings : NodeSettings}
    {anchor : Block} {slot : Slot} {balances : Balances}
    (started : start preset config settings anchor slot balances = .ok init)
    (run : Run after (fun _ _ _ => True) init history fc) :
    BoostsFirst (sinceTick fc.store.slot history) fc ∧
    (∀ call, fc.store.slot < (fc.after call).store.slot → (fc.after call).boostRoot = none) ∧
    ((∀ event ∈ inSlot fc.store.slot history, ticksInPlace event = false) →
      BoostsFirst (inSlot fc.store.slot history) fc) := by
  have boosted : Boosted history fc := Run.invariant (P := Boosted) (.start started)
    (fun {_ _ call} boosted _ => boosted.after call) run
  refine ⟨boosted.first, fun call later => ?_, fun no_tick => ?_⟩
  · cases fc.turn_after call with
    | rises _ ended => exact ended
    | restarts _ slot | goesOn _ slot => exact absurd slot.symm (UInt64.ne_of_lt later)
  · have all_since : sinceTick fc.store.slot history = inSlot fc.store.slot history := by
      rw [sinceTick, List.takeWhile_eq_self_iff]
      exact fun event member => by rw [no_tick event member]; rfl
    rw [← all_since]
    exact boosted.first

def rival (root parent : Nat) : Call :=
  epochBlock 8 root parent ⟨0, .ofNat 1⟩ ⟨0, .ofNat 1⟩

/--
The first of two timely blocks is boosted until the next slot, whatever comes in between: the other
one, a block that is refused, and an update of time to the slot that has come already.
-/
theorem rivals_boost_first : ∃ history fc,
    start .minimal .minimal .pruneEagerly genesis 0 genesisBalances = .ok atGenesis ∧
    Run after (fun _ _ _ => True) atGenesis history fc ∧
    (∀ event ∈ inSlot fc.store.slot history, ticksInPlace event = false) ∧
    (inSlot fc.store.slot history).map timely? =
      [none, none, some (.ofNat 3), some (.ofNat 2)] ∧
    BoostsFirst (inSlot fc.store.slot history) fc ∧ fc.boostRoot = some (.ofNat 2) ∧
    fc.store.slot < (fc.after (.tick 9)).store.slot ∧
    (fc.after (.tick 9)).boostRoot = none := by
  have outset : Run after (fun _ _ _ => True) atGenesis [] atGenesis := .start
  have run := ((((outset.call (.time 8) trivial).call (rival 2 1) trivial).call
    (rival 3 1) trivial).call (rival 4 9) trivial).call (.time 8) trivial
  obtain ⟨-, ends, lasts⟩ := first_timely_boosted start_genesis run
  refine ⟨_, _, start_genesis, run, ?_, ?_, lasts ?_, ?_, ?_, ends (.tick 9) ?_⟩ <;>
    decide +kernel

/--
Two blocks of one slot are boosted one after the other, with a tick in between to the slot that has
come already.
-/
theorem rivals_boosted_both : ∃ history fc,
    start .minimal .minimal .pruneEagerly genesis 0 genesisBalances = .ok atGenesis ∧
    Run after (fun _ _ _ => True) atGenesis history fc ∧ fc.store.slot = 8 ∧
    (inSlot 8 history).map timely? = [some (.ofNat 3), none, some (.ofNat 2)] ∧
    (inSlot 8 history).map (·.before.boostRoot) = [none, some (.ofNat 2), none] ∧
    fc.boostRoot = some (.ofNat 3) ∧ ¬BoostsFirst (inSlot fc.store.slot history) fc := by
  have outset : Run after (fun _ _ _ => True) atGenesis [] atGenesis := .start
  have run := (((outset.call (.time 8) trivial).call (rival 2 1) trivial).call
    (.tick 8) trivial).call (rival 3 1) trivial
  refine ⟨_, _, start_genesis, run, ?_, ?_, ?_, ?_, fun boosts => absurd boosts.first ?_⟩ <;>
    decide +kernel

end LmdGhost.ForkChoice
