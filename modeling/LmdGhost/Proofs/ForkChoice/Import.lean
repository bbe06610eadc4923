import LmdGhost.ForkChoice.Import
import LmdGhost.Proofs.Outcome
/-!
What the import of a block does. A refused block changes nothing. An admitted one builds on a block
whose chain has the finalized one, and its import does not fail: the checkpoints follow its state
where that is ahead, and the block enters the tree.
-/

namespace LmdGhost

def Store.followed (store : Store) (state : PostState) (advance : Advance) : Store :=
  let best := store.justified.epoch < state.justified.epoch ∧
    store.bestJustified.epoch < state.justified.epoch
  { store with
    bestJustified := if best then state.justified else store.bestJustified
    bestJustifiedBalances := if best then advance.balances else store.bestJustifiedBalances
    finalized :=
      if store.finalized.epoch < state.finalized.epoch then state.finalized else store.finalized
    justified := if advance.justify then state.justified else store.justified
    justifiedBalances := if advance.justify then advance.balances else store.justifiedBalances }

theorem Store.setFinalized_of_lt {store : Store} {checkpoint : Checkpoint}
    (newer : store.finalized.epoch < checkpoint.epoch) :
    store.setFinalized checkpoint =
      (Outcome.done { store with finalized := checkpoint } store.finalized).report
        [.finalized checkpoint store.finalized.epoch] := by
  rw [setFinalized, if_neg (UInt64.not_lt.mpr (UInt64.le_of_lt newer))]

theorem Store.follow_eq (store : Store) (state : PostState) (advance : Advance) :
    (store.follow state advance).result = .ok () ∧
      (store.follow state advance).state = store.followed state advance := by
  rw [follow, followed]
  by_cases finalize : store.finalized.epoch < state.finalized.epoch <;>
    by_cases newer : store.justified.epoch < state.justified.epoch <;>
    by_cases best : store.bestJustified.epoch < state.justified.epoch <;>
    cases advance.justify <;>
    simp [finalize, newer, best, setBestJustified, setJustified, setFinalized_of_lt, Outcome.bind,
      Outcome.report, Outcome.done]

/-- A state that finalizes takes the justified checkpoint along, if its advance is right. -/
theorem Store.followed_of_finalize {store : Store} {state : PostState} {advance : Advance}
    (finalize : store.finalized.epoch < state.finalized.epoch) (justify : advance.justify = true) :
    (store.followed state advance).finalized = state.finalized ∧
      (store.followed state advance).justified = state.justified := by
  simp only [followed, finalize, justify, if_true, and_self]

theorem Store.followed_finalized {store : Store} {state : PostState} (advance : Advance)
    (stays : ¬store.finalized.epoch < state.finalized.epoch) :
    (store.followed state advance).finalized = store.finalized := by
  simp only [followed, stays, if_false]

namespace ForkChoice

variable {fc : ForkChoice} {block : BeaconBlock} {state : PostState} {arrival : Arrival}
  {engine : ExecutionEngine} {admission : Admission} {advance : Advance}
  {balances : Option Balances}

def storeAfter (fc : ForkChoice) (state : PostState) (admission : Admission) : Store :=
  match admission.advance with
  | none => fc.store
  | some advance => fc.store.followed state advance

def imported (fc : ForkChoice) (block : BeaconBlock) (state : PostState) (arrival : Arrival)
    (admission : Admission) : ForkChoice :=
  let moved := { fc with store := fc.storeAfter state admission }
  { moved with
    tree := fc.tree.insert (entry block state arrival admission.target)
    boostRoot := if moved.boosts block arrival then some arrival.root else fc.boostRoot
    synced := false }

theorem onBlock_of_refused {cause : Error}
    (refused : fc.vet block state arrival engine = .error cause) :
    (fc.onBlock block state arrival engine).result = .error cause ∧
      (fc.onBlock block state arrival engine).state = fc := by
  rw [onBlock, refused]
  exact ⟨rfl, rfl⟩

theorem onBlock_of_admitted (admitted : fc.vet block state arrival engine = .ok admission) :
    (fc.onBlock block state arrival engine).result =
        .ok (entry block state arrival admission.target) ∧
      (fc.onBlock block state arrival engine).state =
        fc.imported block state arrival admission := by
  rw [onBlock, admitted]
  dsimp only
  rw [imported, storeAfter]
  cases admission.advance with
  | none => exact ⟨rfl, rfl⟩
  | some advance =>
    obtain ⟨ok, followed⟩ := fc.store.follow_eq state advance
    simp [Outcome.bind, Outcome.lift, ok, followed, Outcome.done]

/-- A block is refused, and nothing changes, or it is admitted and imported. -/
theorem onBlock_cases (fc : ForkChoice) (block : BeaconBlock) (state : PostState)
    (arrival : Arrival) (engine : ExecutionEngine) :
    (fc.onBlock block state arrival engine).state = fc ∨
    ∃ admission, fc.vet block state arrival engine = .ok admission ∧
      (fc.onBlock block state arrival engine).result =
        .ok (entry block state arrival admission.target) ∧
      (fc.onBlock block state arrival engine).state =
        fc.imported block state arrival admission := by
  cases vetted : fc.vet block state arrival engine with
  | error cause => exact .inl (onBlock_of_refused vetted).2
  | ok admission => exact .inr ⟨admission, rfl, onBlock_of_admitted vetted⟩

theorem onBlock_ok {entered : Block}
    (accepted : (fc.onBlock block state arrival engine).result = .ok entered) :
    ∃ admission, fc.vet block state arrival engine = .ok admission ∧
      entered = entry block state arrival admission.target := by
  cases vetted : fc.vet block state arrival engine with
  | error cause =>
    rw [(onBlock_of_refused vetted).1] at accepted
    contradiction
  | ok admission =>
    rw [(onBlock_of_admitted vetted).1] at accepted
    cases accepted
    exact ⟨admission, rfl, rfl⟩

theorem onBlock_eq_error {cause : Error} :
    (fc.onBlock block state arrival engine).result = .error cause ↔
      fc.vet block state arrival engine = .error cause := by
  cases vetted : fc.vet block state arrival engine with
  | error reported => rw [(onBlock_of_refused vetted).1, Except.error.injEq, Except.error.injEq]
  | ok admission =>
    rw [(onBlock_of_admitted vetted).1]
    exact iff_of_false nofun nofun

theorem checkFinality_ok (passed : fc.checkFinality block = .ok ()) :
    fc.tree.ancestor block.parent fc.finalizedSlot = .ok (some fc.store.finalized.root) := by
  rw [checkFinality, ForkChoice.ancestor] at passed
  cases found : fc.tree.ancestor block.parent fc.finalizedSlot with
  | error cause =>
    simp only [found, Outcome.mapError_error] at passed
    contradiction
  | ok ancestor =>
    simp only [found, Outcome.mapError_ok] at passed
    split at passed
    · rename_i named
      rw [named]
    · contradiction

/-- What the checks of an admitted block have found. -/
theorem admitted_of_vet (admitted : fc.vet block state arrival engine = .ok admission) :
    fc.finalizedSlot < block.slot ∧
      fc.tree.ancestor block.parent fc.finalizedSlot = .ok (some fc.store.finalized.root) ∧
      fc.advance? state arrival.balances = .ok admission.advance := by
  simp only [vet, except_bind_eq_ok] at admitted
  obtain ⟨_, -, _, late, _, final, _, -, target, -, advance, advances, admitted⟩ := admitted
  cases admitted
  refine ⟨?_, checkFinality_ok final, advances⟩
  rw [checkSlot] at late
  split at late
  · contradiction
  · split at late
    · contradiction
    · rename_i later
      exact UInt64.not_le.mp later

theorem advance?_balances (advances : fc.advance? state balances = .ok (some advance)) :
    balances = some advance.balances := by
  simp only [advance?] at advances
  split at advances
  · cases balances with
    | none => contradiction
    | some balances =>
      dsimp only at advances
      split at advances
      · cases advances
        rfl
      · split at advances
        · contradiction
        · cases advances
          rfl
  · cases advances

theorem advance?_eq_some (advances : fc.advance? state balances = .ok (some advance)) :
    (fc.store.justified.epoch < state.justified.epoch ∨
      fc.store.finalized.epoch < state.finalized.epoch) ∧
    (fc.store.finalized.epoch < state.finalized.epoch → advance.justify = true) := by
  simp only [advance?] at advances
  split at advances
  · rename_i newer
    refine ⟨newer, fun finalize => ?_⟩
    cases balances with
    | none => contradiction
    | some balances =>
      simp only [finalize, if_true] at advances
      cases advances
      rfl
  · cases advances

end ForkChoice

end LmdGhost
