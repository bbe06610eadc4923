import LmdGhost.Proofs.BlockTree.Backing
import Mathlib.Algebra.Order.BigOperators.Group.Finset
/-!
Changes of weight that stay in range. A change at a position is what the position gains less what it
loses. Where all gains together fit a change, and all losses together do, so does every part of them
that can come together on the way up, in whatever order; and where every weight that is due fits a
weight, the pass over the weights does not fail.
-/

namespace LmdGhost

open Finset

namespace Delta

def limit : Int := 9223372036854775807

variable {delta : Delta} {amount : Gwei} {n : Int}

theorem ofInt?_of_le (lower : -limit ≤ n) (upper : n ≤ limit) :
    ∃ d, ofInt? n = some d ∧ d.toInt = n := by
  rw [limit] at lower upper
  have range : ofInt? n = some (Int64.ofInt n) := by
    rw [ofInt?, Int64.toInt_minValue, Int64.toInt_maxValue, if_pos (by omega)]
  exact ⟨_, range, ofInt?_eq_some.mp range⟩

theorem add_ofGwei (fits : (amount.toNat : Int) ≤ limit) (lower : -limit ≤ delta.toInt)
    (upper : delta.toInt + amount.toNat ≤ limit) :
    ∃ sum, (ofGwei? amount).bind delta.add? = some sum ∧
      sum.toInt = delta.toInt + amount.toNat := by
  obtain ⟨entered, is_entered, value⟩ := ofInt?_of_le (by omega) fits
  have sum := ofInt?_of_le (by omega) upper
  rwa [ofGwei?, is_entered, Option.bind_some, add?, value]

theorem sub_ofGwei (fits : (amount.toNat : Int) ≤ limit)
    (lower : -limit ≤ delta.toInt - amount.toNat) (upper : delta.toInt ≤ limit) :
    ∃ difference, (ofGwei? amount).bind delta.sub? = some difference ∧
      difference.toInt = delta.toInt - amount.toNat := by
  obtain ⟨entered, is_entered, value⟩ := ofInt?_of_le (by omega) fits
  have difference := ofInt?_of_le lower (by omega)
  rwa [ofGwei?, is_entered, Option.bind_some, sub?, value]

end Delta

theorem lentTo_nonneg (boost : Option Boost) (root : Root) : 0 ≤ lentTo boost root := by
  cases boost with
  | none => exact Int.le_refl 0
  | some boost =>
    rw [lentTo]
    split
    · exact Int.natCast_nonneg _
    · exact Int.le_refl 0

theorem lentAt_nonneg (boost : Option Boost) (nodes : List Node) (j : Nat) :
    0 ≤ lentAt boost nodes j := by
  rw [lentAt]
  cases nodes[j]? with
  | none => exact Int.le_refl 0
  | some node => exact lentTo_nonneg boost node.root

/--
The changes of the first `count` positions are gains less losses, with at most these amounts gained
and lost at all of them together.
-/
def Spread (deltas : List Delta) (count : Nat) (gain loss : Int) : Prop :=
  count ≤ deltas.length ∧ ∃ gains losses : Nat → Int, (∀ j, 0 ≤ gains j) ∧ (∀ j, 0 ≤ losses j) ∧
    (∀ j < count, deltaAt deltas j = gains j - losses j) ∧
    ∑ j ∈ range count, gains j ≤ gain ∧ ∑ j ∈ range count, losses j ≤ loss

namespace Spread

variable {deltas deltas' : List Delta} {count k : Nat} {gain gain' loss loss' : Int}

theorem blank (n : Nat) : Spread (List.replicate n 0) n 0 0 := by
  refine ⟨by simp, fun _ => 0, fun _ => 0, fun _ => Int.le_refl 0, fun _ => Int.le_refl 0, ?_, ?_⟩
  · intro j bound
    simp [deltaAt, bound]
  · simp

theorem mono (spread : Spread deltas count gain loss) (more : gain ≤ gain') (more' : loss ≤ loss') :
    Spread deltas count gain' loss' := by
  obtain ⟨bound, gains, losses, gains_nonneg, losses_nonneg, change, gained, lost⟩ := spread
  exact ⟨bound, gains, losses, gains_nonneg, losses_nonneg, change, gained.trans more,
    lost.trans more'⟩

/-- The change at one position, which takes its part of the gains and the losses. -/
theorem at_position (spread : Spread deltas count gain loss) (bound : k < count) :
    ∃ delta, deltas[k]? = some delta ∧ -loss ≤ delta.toInt ∧ delta.toInt ≤ gain := by
  obtain ⟨inside, gains, losses, gains_nonneg, losses_nonneg, change, gained, lost⟩ := spread
  have at_k := List.getElem?_eq_getElem (Nat.lt_of_lt_of_le bound inside)
  have member := mem_range.mpr bound
  have gains_k := single_le_sum (f := gains) (fun j _ => gains_nonneg j) member
  have losses_k := single_le_sum (f := losses) (fun j _ => losses_nonneg j) member
  have change_k := change k bound
  have := gains_nonneg k
  have := losses_nonneg k
  rw [deltaAt_of_getElem? at_k] at change_k
  exact ⟨_, at_k, by omega, by omega⟩

/-- The last of the positions is set apart with its gain and its loss. -/
theorem last (spread : Spread deltas (k + 1) gain loss) : ∃ gained lost, 0 ≤ gained ∧ 0 ≤ lost ∧
    deltaAt deltas k = gained - lost ∧ Spread deltas k (gain - gained) (loss - lost) := by
  obtain ⟨inside, gains, losses, gains_nonneg, losses_nonneg, change, gained, lost⟩ := spread
  rw [sum_range_succ] at gained lost
  refine ⟨gains k, losses k, gains_nonneg k, losses_nonneg k, change k (Nat.lt_succ_self k),
    by omega, gains, losses, gains_nonneg, losses_nonneg, ?_, by omega, by omega⟩
  intro j bound
  exact change j (Nat.lt_succ_of_lt bound)

theorem nonneg (spread : Spread deltas count gain loss) : 0 ≤ gain ∧ 0 ≤ loss := by
  obtain ⟨-, gains, losses, gains_nonneg, losses_nonneg, -, gained, lost⟩ := spread
  exact ⟨(sum_nonneg fun j _ => gains_nonneg j).trans gained,
    (sum_nonneg fun j _ => losses_nonneg j).trans lost⟩

/-- A gain and a loss that are entered at one position, if at any. -/
theorem enter (spread : Spread deltas count gain loss) (position : Option Nat)
    (same : deltas'.length = deltas.length) {gained lost : Int} (gained_nonneg : 0 ≤ gained)
    (lost_nonneg : 0 ≤ lost)
    (changed : ∀ j, deltaAt deltas' j =
      deltaAt deltas j + if position = some j then gained - lost else 0) :
    Spread deltas' count (gain + gained) (loss + lost) := by
  obtain ⟨inside, gains, losses, gains_nonneg, losses_nonneg, change, gain_le, loss_le⟩ := spread
  have once {amount : Int} (amount_nonneg : 0 ≤ amount) :
      ∑ j ∈ range count, (if position = some j then amount else 0) ≤ amount := by
    cases position with
    | none => simpa using amount_nonneg
    | some p =>
      simp only [Option.some.injEq, sum_ite_eq]
      split <;> omega
  have := once gained_nonneg
  have := once lost_nonneg
  refine ⟨by omega, fun j => gains j + if position = some j then gained else 0,
    fun j => losses j + if position = some j then lost else 0, ?_, ?_, ?_, ?_, ?_⟩
  · intro j
    have := gains_nonneg j
    dsimp only
    split <;> omega
  · intro j
    have := losses_nonneg j
    dsimp only
    split <;> omega
  · intro j bound
    rw [changed, change j bound]
    dsimp only
    split <;> omega
  · rw [sum_add_distrib]
    omega
  · rw [sum_add_distrib]
    omega

end Spread

namespace BlockTree

variable {boost previous : Option Boost} {tally : Tally} {node : Node} {k count : Nat}
  {gain loss : Int}

theorem enterBoost_of_lent {combine : Delta → Delta → Option Delta} {delta : Delta}
    (entered : ∀ score : Gwei, lentTo boost node.root = score.toNat →
      ∃ total, (Delta.ofGwei? score).bind (combine delta) = some total) :
    ∃ total, enterBoost combine boost node delta = some total := by
  cases boost with
  | none => exact ⟨delta, rfl⟩
  | some boost =>
    rw [enterBoost]
    split
    · rename_i named
      exact entered boost.score (if_pos named)
    · exact ⟨delta, rfl⟩

namespace Tally

theorem passUp_of_le {nodes : List Node} {deltas : List Delta} (spread : Spread deltas k gain loss)
    {parent : Option Nat} (before : ∀ p, parent = some p → p < k) {delta : Delta}
    (lower : -Delta.limit ≤ delta.toInt - loss) (upper : gain + delta.toInt ≤ Delta.limit) :
    (passUp ⟨nodes, deltas⟩ parent delta).result = .ok () := by
  cases parent with
  | none => rfl
  | some p =>
    obtain ⟨owed, at_p, least, most⟩ := spread.at_position (before p rfl)
    obtain ⟨sum, is_sum, -⟩ :=
      Delta.ofInt?_of_le (n := owed.toInt + delta.toInt) (by omega) (by omega)
    simp only [passUp, at_p, Delta.add?, is_sum, Outcome.result_done]

/--
A step succeeds if gains and losses fit a change together with the boosts at its position, and if
the new weight fits a weight.
-/
theorem weigh_of_le (first : ParentsFirst (parents tally.nodes))
    (at_k : tally.nodes[k]? = some node) (spread : Spread tally.deltas (k + 1) gain loss)
    (gain_fits : gain + lentTo boost node.root ≤ Delta.limit)
    (loss_fits : loss + lentTo previous node.root ≤ Delta.limit)
    {weight : Gwei}
    (weight_eq : (weight.toNat : Int) = node.weight.toNat + due boost previous tally k) :
    (tally.weigh boost previous k).result = .ok () := by
  obtain ⟨gained, lost, gained_nonneg, lost_nonneg, change, rest⟩ := spread.last
  obtain ⟨delta, deltas_k, -, -⟩ := spread.at_position (Nat.lt_succ_self k)
  obtain ⟨gain_left, loss_left⟩ := rest.nonneg
  have entered := lentTo_nonneg boost node.root
  have taken := lentTo_nonneg previous node.root
  rw [deltaAt_of_getElem? deltas_k] at change
  rw [due, deltaAt_of_getElem? deltas_k, lentAt_of_getElem? at_k, lentAt_of_getElem? at_k]
    at weight_eq
  obtain ⟨raised, is_raised⟩ : ∃ raised, enterBoost Delta.add? boost node delta = some raised := by
    apply enterBoost_of_lent
    intro score lent
    exact (Delta.add_ofGwei (by omega) (by omega) (by omega)).imp fun _ => And.left
  have raised_eq := enterBoost_add is_raised
  obtain ⟨total, is_total⟩ : ∃ total, enterBoost Delta.sub? previous node raised = some total := by
    apply enterBoost_of_lent
    intro score lent
    exact (Delta.sub_ofGwei (by omega) (by omega) (by omega)).imp fun _ => And.left
  have total_eq := enterBoost_sub is_total
  have is_weight : total.addTo? node.weight = some weight :=
    Word.ofInt?_eq_some.mpr (by omega)
  have before : ∀ p, node.parentIndex = some p → p < k := fun p link =>
    first (parents_of_getElem? at_k link)
  simp only [weigh, at_k, deltas_k, is_raised, Option.bind_some, is_total, is_weight]
  exact passUp_of_le rest before (by omega) (by omega)

/-- What the next step gains and loses is passed on, and with it what the boosts come to. -/
theorem spread_weigh (spread : Spread tally.deltas (k + 1) gain loss)
    (ok : (tally.weigh boost previous k).result = .ok ()) :
    Spread (tally.weigh boost previous k).state.deltas k (gain + lentAt boost tally.nodes k)
      (loss + lentAt previous tally.nodes k) := by
  obtain ⟨gained, lost, gained_nonneg, lost_nonneg, change, rest⟩ := spread.last
  obtain ⟨node, -, -, -, -, deltas⟩ := weigh_ok ok
  have entered := lentAt_nonneg boost tally.nodes k
  have taken := lentAt_nonneg previous tally.nodes k
  have due_eq : due boost previous tally k =
      gained + lentAt boost tally.nodes k - (lost + lentAt previous tally.nodes k) := by
    rw [due, change]
    omega
  rw [due_eq] at deltas
  have passed := rest.enter node.parentIndex (length_deltas_weigh boost previous k tally)
    (Int.add_nonneg gained_nonneg entered) (Int.add_nonneg lost_nonneg taken) deltas
  exact passed.mono (by omega) (by omega)

open Classical in
/--
What it takes for the first `count` steps of a pass to succeed: gains and losses that fit a change
together with the boosts, and weights that are in range with all that is due below them.
-/
structure Roomy (boost previous : Option Boost) (count : Nat) (tally : Tally) : Prop where
  first : ParentsFirst (parents tally.nodes)
  inside : count ≤ tally.nodes.length
  spread : ∃ gain loss, Spread tally.deltas count gain loss ∧
    gain + ∑ j ∈ range count, lentAt boost tally.nodes j ≤ Delta.limit ∧
    loss + ∑ j ∈ range count, lentAt previous tally.nodes j ≤ Delta.limit
  weights : ∀ {i : Nat} {node : Node}, i < count → tally.nodes[i]? = some node →
    ∃ weight : Gwei, (weight.toNat : Int) = node.weight.toNat +
      ∑ j ∈ range count, if Below (parents tally.nodes) i j then due boost previous tally j else 0

namespace Roomy

theorem weight_last (roomy : Roomy boost previous (k + 1) tally)
    (at_k : tally.nodes[k]? = some node) :
    ∃ weight : Gwei, (weight.toNat : Int) = node.weight.toNat + due boost previous tally k := by
  classical
  obtain ⟨weight, weight_eq⟩ := roomy.weights (Nat.lt_succ_self k) at_k
  have bound := (List.getElem?_eq_some_iff.mp at_k).1
  have below : Below (parents tally.nodes) k k := .refl (by simpa using bound)
  have none_before : ∑ j ∈ range k,
      (if Below (parents tally.nodes) k j then due boost previous tally j else 0) = 0 := by
    refine Finset.sum_eq_zero fun j member => if_neg fun below => ?_
    have later := below.le roomy.first
    have before := mem_range.mp member
    omega
  rw [sum_range_succ, none_before, if_pos below, Int.zero_add] at weight_eq
  exact ⟨weight, weight_eq⟩

/-- The next step succeeds and leaves room for the steps after it. -/
theorem weigh (roomy : Roomy boost previous (k + 1) tally) :
    (tally.weigh boost previous k).result = .ok () ∧
      Roomy boost previous k (tally.weigh boost previous k).state := by
  have at_k := List.getElem?_eq_getElem (Nat.lt_of_succ_le roomy.inside)
  obtain ⟨gain, loss, spread, gain_fits, loss_fits⟩ := roomy.spread
  obtain ⟨weight, weight_eq⟩ := roomy.weight_last at_k
  rw [sum_range_succ] at gain_fits loss_fits
  have entered := sum_nonneg fun j (_ : j ∈ range k) => lentAt_nonneg boost tally.nodes j
  have taken := sum_nonneg fun j (_ : j ∈ range k) => lentAt_nonneg previous tally.nodes j
  have passed : (tally.weigh boost previous k).result = .ok () := by
    rw [lentAt_of_getElem? at_k] at gain_fits loss_fits
    exact weigh_of_le roomy.first at_k spread (by omega) (by omega) weight_eq
  refine ⟨passed, ?_, ?_, ?_, ?_⟩
  · rw [parents_weigh]
    exact roomy.first
  · have same := congrArg List.length (parents_weigh boost previous k tally)
    simp only [length_parents] at same
    rw [same]
    exact Nat.le_of_succ_le roomy.inside
  · refine ⟨_, _, spread_weigh spread passed, ?_, ?_⟩
    · simp only [lentAt_weigh]
      omega
    · simp only [lentAt_weigh]
      omega
  · intro i node' before at_i
    have bound := Nat.lt_of_lt_of_le (Nat.lt_succ_of_lt before) roomy.inside
    have at_i' := List.getElem?_eq_getElem bound
    obtain ⟨between, at_i'', conserved⟩ := weigh_conserves roomy.first passed at_i'
    rw [at_i] at at_i''
    cases at_i''
    rw [parents_weigh, conserved]
    exact roomy.weights (Nat.lt_succ_of_lt before) at_i'

theorem weighAll (roomy : Roomy boost previous count tally) :
    (tally.weighAll boost previous count).result = .ok () := by
  induction count generalizing tally with
  | zero => rfl
  | succ k ih =>
    obtain ⟨passed, roomy'⟩ := roomy.weigh
    rw [Tally.weighAll, Outcome.result_bind_of_ok _ passed]
    exact ih roomy'

end Roomy

end Tally

def scoreOf (boost : Option Boost) : Nat :=
  (boost.map (·.score.toNat)).getD 0

namespace WellFormed

variable {tree : BlockTree} {change : ScoreChange}

/-- A boost is for one block, so it lends its score once. -/
theorem sum_lentAt_le (wf : tree.WellFormed) (boost : Option Boost) :
    ∑ j ∈ range tree.nodes.length, lentAt boost tree.nodes j ≤ scoreOf boost := by
  have total := wf.sum_lentAt boost fun _ => true
  simp only [if_true] at total
  rw [total]
  cases boost with
  | none => exact Int.le_refl 0
  | some boost =>
    dsimp only
    split
    · exact Int.le_refl _
    · exact Int.natCast_nonneg _

/--
New scores are entered where gains and losses fit a change together with the boosts, and where all
new weights are in range.
-/
theorem applyScores_of_spread (wf : tree.WellFormed)
    (count : change.deltas.length = tree.nodes.length)
    (spread : Spread change.deltas tree.nodes.length gain loss)
    (gain_fits : gain + scoreOf change.boost ≤ Delta.limit)
    (loss_fits : loss + scoreOf tree.boost ≤ Delta.limit)
    (weights : ∀ {i : Nat} {node : Node}, tree.nodes[i]? = some node →
      ∃ weight : Gwei, (weight.toNat : Int) = node.weight.toNat +
        (changeUnder (tree.under node.root) change.deltas + tree.lent change.boost node.root -
          tree.lent tree.boost node.root)) :
    (tree.applyScores change).result = .ok () := by
  have entered := wf.sum_lentAt_le change.boost
  have taken := wf.sum_lentAt_le tree.boost
  have roomy : Tally.Roomy change.boost tree.boost tree.nodes.length
      ⟨tree.nodes, change.deltas⟩ := by
    refine ⟨wf.first, Nat.le_refl _, ⟨gain, loss, spread, ?_, ?_⟩, ?_⟩
    · exact (Int.add_le_add_left entered gain).trans gain_fits
    · exact (Int.add_le_add_left taken loss).trans loss_fits
    · intro i node _ at_i
      rw [wf.sum_due count at_i]
      exact weights at_i
  rcases wf.bounded.applyScores_cases change with
    ⟨off, -⟩ | ⟨-, cause, failed, -⟩ | ⟨-, -, passed, -⟩
  · exact absurd count off
  · rw [weighed, roomy.weighAll] at failed
    contradiction
  · exact passed

end WellFormed

end BlockTree

end LmdGhost
