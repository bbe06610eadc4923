import LmdGhost.Proofs.BlockTree.Headroom
/-!
Votes that are settled in range. A vote takes its old balance from one position and adds its new
balance at another, so all votes together gain no more than the new balances come to and lose no
more than the old ones. Where both totals fit a change, no vote fails.
-/

namespace LmdGhost

def Balances.total (balances : Balances) : Nat :=
  (balances.map (·.toNat)).sum

variable {covers : Root → Bool} {balances : Balances} {first : Nat} {blocks : List Root}
  {root : Root} {index : RootIndex} {deltas : List Delta} {count : Nat} {gain loss : Int}

/-- The balances from a validator on are at least those behind the blocks of these validators. -/
theorem support_le_drop (covers : Root → Bool) (balances : Balances) (first : Nat)
    (blocks : List Root) :
    support covers balances first blocks ≤ Balances.total (balances.drop first) := by
  induction blocks generalizing first with
  | nil => exact Nat.zero_le _
  | cons root blocks ih =>
    have later := ih (first + 1)
    rw [support_cons]
    have taken : (balances.of first).toNat + Balances.total (balances.drop (first + 1)) =
        Balances.total (balances.drop first) := by
      cases at_first : balances[first]? with
      | none =>
        have past := List.getElem?_eq_none_iff.mp at_first
        rw [Balances.of, at_first, List.drop_eq_nil_of_le past,
          List.drop_eq_nil_of_le (Nat.le_succ_of_le past)]
        rfl
      | some balance =>
        obtain ⟨bound, rfl⟩ := List.getElem?_eq_some_iff.mp at_first
        rw [Balances.of, at_first, List.drop_eq_getElem_cons bound, Balances.total, Balances.total,
          List.map_cons, List.sum_cons]
        rfl
    split <;> omega

theorem support_le_total (covers : Root → Bool) (balances : Balances) (blocks : List Root) :
    support covers balances 0 blocks ≤ balances.total :=
  support_le_drop covers balances 0 blocks

def RootIndex.Inside (index : RootIndex) (count : Nat) : Prop :=
  ∀ ⦃root : Root⦄ ⦃i : Nat⦄, index[root]? = some i → i < count

/-- An amount is entered at one position at most. -/
theorem shiftDelta_spread (combine : Delta → Delta → Option Delta) (root : Root) (amount : Gwei)
    (spread : Spread deltas count gain loss) (inside : index.Inside count) {gained lost : Int}
    (gained_nonneg : 0 ≤ gained) (lost_nonneg : 0 ≤ lost)
    (entered : ∀ delta : Delta, -loss ≤ delta.toInt → delta.toInt ≤ gain →
      ∃ sum, (Delta.ofGwei? amount).bind (combine delta) = some sum ∧
        sum.toInt = delta.toInt + (gained - lost)) :
    ∃ deltas', shiftDelta combine index root amount deltas = .ok deltas' ∧
      Spread deltas' count (gain + gained) (loss + lost) := by
  rw [shiftDelta]
  cases at_root : index[root]? with
  | none => exact ⟨deltas, rfl, spread.mono (by omega) (by omega)⟩
  | some i =>
    obtain ⟨delta, at_i, lower, upper⟩ := spread.at_position (inside at_root)
    obtain ⟨sum, is_sum, value⟩ := entered delta lower upper
    simp only [at_i, is_sum]
    refine ⟨_, rfl, spread.enter (some i) List.length_set gained_nonneg lost_nonneg fun j => ?_⟩
    rw [deltaAt_set at_i, value, add_sub_cancel_left]
    simp only [Option.some.injEq]

namespace Vote

theorem settle_spread (vote : Vote) (old new : Gwei) (spread : Spread deltas count gain loss)
    (inside : index.Inside count) (gain_fits : gain + new.toNat ≤ Delta.limit)
    (loss_fits : loss + old.toNat ≤ Delta.limit) :
    ∃ vote' deltas', vote.settle index old new deltas = .ok (vote', deltas') ∧
      Spread deltas' count (gain + new.toNat) (loss + old.toNat) := by
  obtain ⟨gain_nonneg, loss_nonneg⟩ := spread.nonneg
  have old_nonneg := Int.natCast_nonneg old.toNat
  have new_nonneg := Int.natCast_nonneg new.toNat
  rw [settle]
  split
  · exact ⟨vote, deltas, rfl, spread.mono (by omega) (by omega)⟩
  · have taken (delta : Delta) (lower : -loss ≤ delta.toInt) (upper : delta.toInt ≤ gain) :
        ∃ sum, (Delta.ofGwei? old).bind delta.sub? = some sum ∧
          sum.toInt = delta.toInt + (0 - old.toNat) := by
      rw [zero_sub, ← sub_eq_add_neg]
      exact Delta.sub_ofGwei (by omega) (by omega) (by omega)
    obtain ⟨between, is_between, spread'⟩ := shiftDelta_spread Delta.sub? vote.counted old spread
      inside (Int.le_refl 0) old_nonneg taken
    have added (delta : Delta) (lower : -(loss + old.toNat) ≤ delta.toInt)
        (upper : delta.toInt ≤ gain + 0) :
        ∃ sum, (Delta.ofGwei? new).bind delta.add? = some sum ∧
          sum.toInt = delta.toInt + (new.toNat - 0) := by
      rw [sub_zero]
      exact Delta.add_ofGwei (by omega) (by omega) (by omega)
    obtain ⟨deltas', is_deltas', spread''⟩ := shiftDelta_spread Delta.add? vote.latest new spread'
      inside new_nonneg (Int.le_refl 0) added
    refine ⟨{ vote with counted := vote.latest }, deltas', ?_, spread''.mono (by omega) (by omega)⟩
    simp only [is_between, is_deltas', bind, Except.bind, pure, Except.pure]

/-- Votes are settled if all balances that are added, and all that are taken, fit a change. -/
theorem settleFrom_spread (old new : Balances) (first : Nat) (votes : List Vote)
    (spread : Spread deltas count gain loss) (inside : index.Inside count)
    (gain_fits : gain + support (fun _ => true) new first (votes.map (·.latest)) ≤ Delta.limit)
    (loss_fits : loss + support (fun _ => true) old first (votes.map (·.counted)) ≤ Delta.limit) :
    ∃ deltas', (settleFrom index old new first votes deltas).result = .ok deltas' ∧
      Spread deltas' count (gain + support (fun _ => true) new first (votes.map (·.latest)))
        (loss + support (fun _ => true) old first (votes.map (·.counted))) := by
  induction votes generalizing first deltas gain loss with
  | nil => exact ⟨deltas, rfl, spread.mono (by simp) (by simp)⟩
  | cons vote votes ih =>
    simp only [List.map_cons, support_cons, if_true, Nat.cast_add] at gain_fits loss_fits ⊢
    obtain ⟨vote', between, step, spread'⟩ := settle_spread vote (old.of first) (new.of first)
      spread inside (by omega) (by omega)
    obtain ⟨deltas', rest, spread''⟩ := ih (first + 1) spread' (by omega) (by omega)
    refine ⟨deltas', ?_, spread''.mono (by omega) (by omega)⟩
    simp only [settleFrom, step, Outcome.result_lift, rest, Outcome.mapError_ok]

end Vote

/-- Votes are moved if the balances to be taken and those to be added each fit a change. -/
theorem VoteTable.deltas_spread (table : VoteTable) (old new : Balances)
    (inside : index.Inside index.size) (old_fits : (old.total : Int) ≤ Delta.limit)
    (new_fits : (new.total : Int) ≤ Delta.limit) :
    ∃ deltas, (table.deltas index old new).result = .ok deltas ∧
      Spread deltas index.size new.total old.total := by
  have gained := support_le_total (fun _ => true) new (table.votes.map (·.latest))
  have lost := support_le_total (fun _ => true) old (table.votes.map (·.counted))
  obtain ⟨deltas, settled, spread⟩ := Vote.settleFrom_spread old new 0 table.votes
    (Spread.blank index.size) inside (by omega) (by omega)
  refine ⟨deltas, ?_, spread.mono (by omega) (by omega)⟩
  simp only [VoteTable.deltas, Outcome.result_lift, settled, Outcome.mapError_ok]

end LmdGhost
