import LmdGhost.BlockTree.Scores
import LmdGhost.Proofs.BlockTree.WellFormed
import LmdGhost.Proofs.Outcome
import Mathlib.Algebra.BigOperators.Group.Finset.Basic
import Mathlib.Algebra.BigOperators.Intervals
/-!
The pass that changes weights. What it still has to pass on to a node, together with the weight that
the node has so far, stays the same from step to step. So the pass, if it succeeds, adds to the
weight of every node the changes of all nodes below it, in exact integers.
-/

namespace LmdGhost

open Finset

def Node.weightless (node : Node) : Node :=
  { node with weight := 0 }

@[simp]
theorem Node.weightless_weight (node : Node) (weight : Gwei) :
    Node.weightless { node with weight } = node.weightless :=
  rfl

theorem places_of_weightless {nodes nodes' : List Node}
    (same : nodes.map Node.weightless = nodes'.map Node.weightless) :
    nodes.map Node.place = nodes'.map Node.place :=
  map_eq_of_map_eq same fun _ => rfl

/-- The change at a position, none past the end. -/
def deltaAt (deltas : List Delta) (i : Nat) : Int :=
  (deltas[i]?.map (·.toInt)).getD 0

def lentTo (boost : Option Boost) (root : Root) : Int :=
  match boost with
  | none => 0
  | some boost => if boost.root = root then boost.score.toNat else 0

def lentAt (boost : Option Boost) (nodes : List Node) (j : Nat) : Int :=
  (nodes[j]?.map fun node => lentTo boost node.root).getD 0

theorem Delta.ofGwei?_eq_some {amount : Gwei} {d : Delta} :
    Delta.ofGwei? amount = some d ↔ d.toInt = amount.toNat :=
  Delta.ofInt?_eq_some

theorem lentAt_of_getElem? {boost : Option Boost} {nodes : List Node} {j : Nat} {node : Node}
    (at_j : nodes[j]? = some node) : lentAt boost nodes j = lentTo boost node.root := by
  rw [lentAt, at_j, Option.map_some, Option.getD_some]

theorem deltaAt_of_getElem? {deltas : List Delta} {i : Nat} {delta : Delta}
    (h : deltas[i]? = some delta) : deltaAt deltas i = delta.toInt := by
  rw [deltaAt, h, Option.map_some, Option.getD_some]

theorem deltaAt_set {deltas : List Delta} {p : Nat} {old new : Delta} (h : deltas[p]? = some old)
    (j : Nat) :
    deltaAt (deltas.set p new) j =
      deltaAt deltas j + if p = j then new.toInt - old.toInt else 0 := by
  have bound := (List.getElem?_eq_some_iff.mp h).1
  rw [deltaAt, List.getElem?_set]
  by_cases same : p = j
  · subst same
    rw [if_pos rfl, if_pos rfl, if_pos bound, deltaAt_of_getElem? h, Option.map_some,
      Option.getD_some]
    omega
  · rw [if_neg same, if_neg same, deltaAt]
    omega

/-- A change at one position enters a sum over positions once, if it is summed over. -/
theorem sum_of_one_change (P : Nat → Prop) [DecidablePred P] (f : Nat → Int) {count p : Nat}
    (bound : p < count) (change : Int) :
    ∑ j ∈ range count, (if P j then f j + (if p = j then change else 0) else 0) =
      ∑ j ∈ range count, (if P j then f j else 0) + if P p then change else 0 := by
  have split_term : ∀ j, (if P j then f j + (if p = j then change else 0) else 0) =
      (if P j then f j else 0) + if p = j then (if P p then change else 0) else 0 := by
    intro j
    by_cases same : p = j
    · subst same
      by_cases fits : P p <;> simp [fits]
    · by_cases fits : P j <;> simp [fits, same]
  simp only [split_term, sum_add_distrib, sum_ite_eq, mem_range, bound, if_true]

namespace BlockTree

variable {boost previous : Option Boost} {tally : Tally} {node : Node} {i k count : Nat}

theorem enterBoost_add {delta total : Delta}
    (h : enterBoost Delta.add? boost node delta = some total) :
    total.toInt = delta.toInt + lentTo boost node.root := by
  cases boost with
  | none =>
    cases h
    simp [lentTo]
  | some boost =>
    simp only [enterBoost] at h
    split at h
    · rename_i named
      obtain ⟨score, exact_score, sum⟩ := Option.bind_eq_some_iff.mp h
      rw [Delta.ofGwei?_eq_some] at exact_score
      rw [Delta.add?, Delta.ofInt?_eq_some, exact_score] at sum
      simp [lentTo, named, sum]
    · rename_i other
      cases h
      simp [lentTo, other]

theorem enterBoost_sub {delta total : Delta}
    (h : enterBoost Delta.sub? boost node delta = some total) :
    total.toInt = delta.toInt - lentTo boost node.root := by
  cases boost with
  | none =>
    cases h
    simp [lentTo]
  | some boost =>
    simp only [enterBoost] at h
    split at h
    · rename_i named
      obtain ⟨score, exact_score, difference⟩ := Option.bind_eq_some_iff.mp h
      rw [Delta.ofGwei?_eq_some] at exact_score
      rw [Delta.sub?, Delta.ofInt?_eq_some, exact_score] at difference
      simp [lentTo, named, difference]
    · rename_i other
      cases h
      simp [lentTo, other]

namespace Tally

theorem passUp_nodes (tally : Tally) (parent : Option Nat) (delta : Delta) :
    (tally.passUp parent delta).state.nodes = tally.nodes := by
  cases parent with
  | none => rfl
  | some p =>
    simp only [passUp]
    cases tally.deltas[p]? with
    | none => rfl
    | some sum =>
      dsimp only
      cases sum.add? delta <;> rfl

theorem passUp_ok {parent : Option Nat} {delta : Delta}
    (ok : (tally.passUp parent delta).result = .ok ()) (j : Nat) :
    deltaAt (tally.passUp parent delta).state.deltas j =
      deltaAt tally.deltas j + if parent = some j then delta.toInt else 0 := by
  cases parent with
  | none => simp [passUp]
  | some p =>
    simp only [passUp] at ok ⊢
    cases deltas_p : tally.deltas[p]? with
    | none =>
      simp only [deltas_p] at ok
      contradiction
    | some owed =>
      simp only [deltas_p] at ok ⊢
      cases passed : owed.add? delta with
      | none =>
        simp only [passed] at ok
        contradiction
      | some sum =>
        rw [Delta.add?, Delta.ofInt?_eq_some] at passed
        simp only [Outcome.state_done, deltaAt_set deltas_p, Option.some.injEq]
        rw [passed, add_sub_cancel_left]

theorem weigh_weightless (boost previous : Option Boost) (k : Nat) (tally : Tally) :
    (tally.weigh boost previous k).state.nodes.map Node.weightless =
      tally.nodes.map Node.weightless := by
  rw [weigh]
  split
  · rename_i node delta at_k _
    split
    · rfl
    · split
      · rfl
      · rw [passUp_nodes]
        exact map_set_of_eq at_k (node.weightless_weight _)
  · rfl

theorem lentAt_weigh (lent boost previous : Option Boost) (k j : Nat) (tally : Tally) :
    lentAt lent (tally.weigh boost previous k).state.nodes j = lentAt lent tally.nodes j := by
  have forgets (nodes : List Node) : lentAt lent nodes j =
      ((nodes.map Node.weightless)[j]?.map fun node => lentTo lent node.root).getD 0 := by
    rw [lentAt, List.getElem?_map, Option.map_map]
    rfl
  rw [forgets, forgets, weigh_weightless]

theorem parents_weigh (boost previous : Option Boost) (k : Nat) (tally : Tally) :
    parents (tally.weigh boost previous k).state.nodes = parents tally.nodes :=
  parents_eq_of_places (places_of_weightless (weigh_weightless boost previous k tally))

theorem length_deltas_weigh (boost previous : Option Boost) (k : Nat) (tally : Tally) :
    (tally.weigh boost previous k).state.deltas.length = tally.deltas.length := by
  have passed (tally : Tally) (parent : Option Nat) (delta : Delta) :
      (tally.passUp parent delta).state.deltas.length = tally.deltas.length := by
    cases parent with
    | none => rfl
    | some p =>
      rw [passUp]
      split
      · rfl
      · split
        · rfl
        · exact List.length_set
  rw [weigh]
  split
  · split
    · rfl
    · split
      · rfl
      · exact passed _ _ _
  · rfl

theorem weighAll_weightless (boost previous : Option Boost) (count : Nat) (tally : Tally) :
    (weighAll boost previous count tally).state.nodes.map Node.weightless =
      tally.nodes.map Node.weightless := by
  induction count generalizing tally with
  | zero => rfl
  | succ count ih =>
    let P (state : Tally) : Prop :=
      state.nodes.map Node.weightless = tally.nodes.map Node.weightless
    rw [weighAll]
    apply Outcome.state_bind (P := P)
    · exact weigh_weightless boost previous count tally
    · intro _ _
      exact (ih _).trans (weigh_weightless boost previous count tally)

/-- What a node's own change comes to: the change itself, the boost and the last one taken back. -/
def due (boost previous : Option Boost) (tally : Tally) (j : Nat) : Int :=
  deltaAt tally.deltas j + lentAt boost tally.nodes j - lentAt previous tally.nodes j

theorem weigh_ok (ok : (tally.weigh boost previous k).result = .ok ()) :
    ∃ (node : Node) (weight : Gwei), tally.nodes[k]? = some node ∧
      (weight.toNat : Int) = node.weight.toNat + due boost previous tally k ∧
      (tally.weigh boost previous k).state.nodes = tally.nodes.set k { node with weight } ∧
      ∀ j, deltaAt (tally.weigh boost previous k).state.deltas j =
        deltaAt tally.deltas j +
          if node.parentIndex = some j then due boost previous tally k else 0 := by
  rw [weigh] at ok ⊢
  split at ok
  · rename_i node delta at_k deltas_k
    simp only [at_k]
    cases entered : (enterBoost Delta.add? boost node delta).bind
        (enterBoost Delta.sub? previous node) with
    | none =>
      simp only [entered] at ok
      contradiction
    | some total =>
      obtain ⟨raised, added, taken⟩ := Option.bind_eq_some_iff.mp entered
      have sum : total.toInt = due boost previous tally k := by
        rw [enterBoost_sub taken, enterBoost_add added, due, deltaAt_of_getElem? deltas_k,
          lentAt_of_getElem? at_k, lentAt_of_getElem? at_k]
      simp only [entered] at ok ⊢
      cases weighed : total.addTo? node.weight with
      | none =>
        simp only [weighed] at ok
        contradiction
      | some weight =>
        simp only [weighed] at ok ⊢
        rw [Delta.addTo?, Word.ofInt?_eq_some, sum] at weighed
        refine ⟨node, weight, rfl, weighed, ?_, ?_⟩
        · rw [passUp_nodes]
        · intro j
          rw [passUp_ok ok, sum]
  · contradiction

open Classical in
/-- What is passed on to the parent is counted for the nodes above, the parent's node apart. -/
theorem sum_passed_up {parents : List (Option Nat)} (first : ParentsFirst parents)
    {parent : Option Nat} (linked : parents[k]? = some parent) (f : Nat → Int) (x : Int) :
    ∑ j ∈ range k, (if Below parents i j then f j + (if parent = some j then x else 0) else 0) =
      ∑ j ∈ range k, (if Below parents i j then f j else 0) +
        if i ≠ k ∧ Below parents i k then x else 0 := by
  simp only [Below.proper_iff first linked]
  cases parent with
  | none => simp
  | some p =>
    simp only [Option.some.injEq, exists_eq_left']
    exact sum_of_one_change (Below parents i) f (first linked) x

open Classical in
/-- A step that succeeds keeps the sum of the weight of a node and of what is due below it. -/
theorem weigh_conserves (first : ParentsFirst (parents tally.nodes))
    (ok : (tally.weigh boost previous k).result = .ok ()) (at_i : tally.nodes[i]? = some node) :
    ∃ node', (tally.weigh boost previous k).state.nodes[i]? = some node' ∧
      (node'.weight.toNat : Int) +
        ∑ j ∈ range k, (if Below (parents tally.nodes) i j then
          due boost previous (tally.weigh boost previous k).state j else 0) =
      node.weight.toNat +
        ∑ j ∈ range (k + 1), if Below (parents tally.nodes) i j then
          due boost previous tally j else 0 := by
  obtain ⟨top, weight, at_k, exact_weight, nodes, deltas⟩ := weigh_ok ok
  have bound := (List.getElem?_eq_some_iff.mp at_k).1
  have linked : (parents tally.nodes)[k]? = some top.parentIndex := by
    rw [getElem?_parents, at_k, Option.map_some]
  -- What is due elsewhere has changed at the parent alone.
  have due_eq : ∀ j, due boost previous (tally.weigh boost previous k).state j =
      due boost previous tally j +
        if top.parentIndex = some j then due boost previous tally k else 0 := by
    intro j
    simp only [due, deltas, lentAt_weigh]
    omega
  have at_i' : (tally.weigh boost previous k).state.nodes[i]? =
      some (if i = k then { top with weight } else node) := by
    rw [nodes, List.getElem?_set]
    by_cases here : k = i
    · simp [here.symm, bound]
    · rw [if_neg here, if_neg (Ne.symm here), at_i]
  refine ⟨_, at_i', ?_⟩
  rw [sum_range_succ]
  simp only [due_eq]
  rw [sum_passed_up first linked]
  by_cases here : i = k
  · subst here
    have below : Below (parents tally.nodes) i i := .refl (by simpa using bound)
    rw [at_k] at at_i
    cases at_i
    simp only [if_true, ne_eq, not_true_eq_false, false_and, if_false, below, exact_weight]
    omega
  · simp only [here, if_false, ne_eq, not_false_eq_true, true_and]

open Classical in
/-- A pass that succeeds adds to a node what is due at all positions below it. -/
theorem weighAll_ok (first : ParentsFirst (parents tally.nodes))
    (ok : (weighAll boost previous count tally).result = .ok ())
    (at_i : tally.nodes[i]? = some node) :
    ∃ node', (weighAll boost previous count tally).state.nodes[i]? = some node' ∧
      (node'.weight.toNat : Int) = node.weight.toNat +
        ∑ j ∈ range count,
          if Below (parents tally.nodes) i j then due boost previous tally j else 0 := by
  induction count generalizing tally node with
  | zero => exact ⟨node, at_i, by simp⟩
  | succ k ih =>
    rw [weighAll] at ok ⊢
    obtain ⟨_, weighed, rest⟩ := Outcome.bind_eq_ok_iff.mp ok
    rw [Outcome.state_bind_of_ok _ weighed]
    have same := parents_weigh boost previous k tally
    obtain ⟨between, at_i', conserved⟩ := weigh_conserves first weighed at_i
    obtain ⟨node', at_end, total⟩ := ih (by rwa [same]) rest at_i'
    rw [same] at total
    exact ⟨node', at_end, total.trans conserved⟩

end Tally

end BlockTree

end LmdGhost
