import LmdGhost.Proofs.BlockTree.Guidance
/-!
Pruning and changes of scores commute. A step of either pass at a kept position does to the pruned
tree what it does to the whole one, except that nothing is passed on or chosen across the cut; a
step at a position in front of the cut does nothing to what is kept. So the passes over the pruned
tree end in what is kept of the passes over the whole tree.
-/

namespace LmdGhost

theorem drop_set_map (f : Node → Node) (nodes : List Node) (count k : Nat) (node : Node) :
    ((nodes.set (k + count) node).drop count).map f =
      ((nodes.drop count).map f).set k (f node) := by
  rw [List.drop_set, if_neg (by omega), Nat.add_sub_cancel, List.map_set]

namespace BlockTree

variable {tree : BlockTree} {change : ScoreChange} {count k p : Nat}

namespace Tally

variable {boost previous : Option Boost} {tally : Tally}

def dropFirst (tally : Tally) (count : Nat) : Tally where
  nodes := (tally.nodes.drop count).map (Node.shifted count)
  deltas := tally.deltas.drop count

/-- What is passed on in front of the cut does not reach what is kept. -/
theorem passUp_in_front {parent : Option Nat} (before : ∀ p, parent = some p → p < count)
    (delta : Delta) :
    (tally.passUp parent delta).state.dropFirst count = tally.dropFirst count := by
  cases parent with
  | none => rfl
  | some p =>
    rw [passUp]
    split
    · rfl
    · split
      · rfl
      · rw [Outcome.state_done, dropFirst, dropFirst, List.drop_set_of_lt (before p rfl)]

theorem weigh_in_front (first : ParentsFirst (parents tally.nodes)) (lower : k < count) :
    (tally.weigh boost previous k).state.dropFirst count = tally.dropFirst count := by
  rw [weigh]
  split
  · rename_i node delta at_k _
    split
    · rfl
    · split
      · rfl
      · rw [passUp_in_front, dropFirst, dropFirst, List.drop_set_of_lt lower]
        exact fun p link => Nat.lt_trans (first (parents_of_getElem? at_k link)) lower
  · rfl

/-- What is passed on to a kept node is passed on to it in the pruned tree. -/
theorem passUp_kept {parent : Option Nat} {delta : Delta}
    (ok : (tally.passUp parent delta).result = .ok ()) :
    ((tally.dropFirst count).passUp (parent.bind (shiftDown? count)) delta).result = .ok () ∧
      ((tally.dropFirst count).passUp (parent.bind (shiftDown? count)) delta).state =
        (tally.passUp parent delta).state.dropFirst count := by
  cases parent with
  | none => exact ⟨rfl, rfl⟩
  | some p =>
    by_cases kept : count ≤ p
    · obtain ⟨q, rfl⟩ := Nat.exists_eq_add_of_le' kept
      have moved : shiftDown? count (q + count) = some q := shiftDown?_eq_some.mpr rfl
      have owed : (tally.dropFirst count).deltas[q]? = tally.deltas[q + count]? := by
        rw [dropFirst, List.getElem?_drop, Nat.add_comm]
      rw [Option.bind_some, moved]
      simp only [passUp] at ok ⊢
      rw [owed]
      cases at_p : tally.deltas[q + count]? with
      | none =>
        rw [at_p] at ok
        contradiction
      | some sum =>
        rw [at_p] at ok
        dsimp only at ok ⊢
        cases total : sum.add? delta with
        | none =>
          rw [total] at ok
          contradiction
        | some sum =>
          refine ⟨rfl, ?_⟩
          simp only [Outcome.state_done, dropFirst]
          rw [List.drop_set, if_neg (by omega), Nat.add_sub_cancel]
    · have gone : shiftDown? count p = none := by rw [shiftDown?, if_neg kept]
      rw [Option.bind_some, gone, passUp_in_front]
      · exact ⟨rfl, rfl⟩
      · rintro _ ⟨⟩
        omega

theorem weigh_kept (ok : (tally.weigh boost previous (k + count)).result = .ok ()) :
    ((tally.dropFirst count).weigh boost previous k).result = .ok () ∧
      ((tally.dropFirst count).weigh boost previous k).state =
        (tally.weigh boost previous (k + count)).state.dropFirst count := by
  have nodes_k : (tally.dropFirst count).nodes[k]? =
      tally.nodes[k + count]?.map (Node.shifted count) := by
    rw [dropFirst, List.getElem?_map, List.getElem?_drop, Nat.add_comm]
  have deltas_k : (tally.dropFirst count).deltas[k]? = tally.deltas[k + count]? := by
    rw [dropFirst, List.getElem?_drop, Nat.add_comm]
  rw [weigh] at ok
  rw [weigh, weigh, nodes_k, deltas_k]
  split at ok
  · rename_i node delta at_k owed
    rw [at_k, owed]
    simp only [Option.map_some]
    split at ok
    · contradiction
    · rename_i total entered
      -- Where a boost is entered depends on the root only, which a shift leaves as it is.
      have entered' : (enterBoost Delta.add? boost (node.shifted count) delta).bind
          (enterBoost Delta.sub? previous (node.shifted count)) = some total := entered
      rw [entered']
      dsimp only
      split at ok
      · contradiction
      · rename_i weight weighed
        have same : (tally.dropFirst count).nodes.set k { node.shifted count with weight } =
            ((tally.nodes.set (k + count) { node with weight }).drop count).map
              (Node.shifted count) :=
          (drop_set_map (Node.shifted count) tally.nodes count k { node with weight }).symm
        rw [show (node.shifted count).weight = node.weight from rfl, weighed]
        dsimp only
        rw [same]
        exact passUp_kept ok
  · contradiction

theorem weighAll_in_front (first : ParentsFirst (parents tally.nodes)) (lower : k ≤ count) :
    (tally.weighAll boost previous k).state.dropFirst count = tally.dropFirst count := by
  induction k generalizing tally with
  | zero => rfl
  | succ k ih =>
    have step : (tally.weigh boost previous k).state.dropFirst count = tally.dropFirst count :=
      weigh_in_front first lower
    rw [weighAll]
    let P (state : Tally) : Prop := state.dropFirst count = tally.dropFirst count
    refine Outcome.state_bind (P := P) step fun _ _ => ?_
    exact (ih (by rwa [parents_weigh]) (Nat.le_of_succ_le lower)).trans step

/-- The pass over the pruned tree ends in what is kept of the pass over the whole tree. -/
theorem weighAll_kept (first : ParentsFirst (parents tally.nodes))
    (ok : (tally.weighAll boost previous (k + count)).result = .ok ()) :
    ((tally.dropFirst count).weighAll boost previous k).result = .ok () ∧
      ((tally.dropFirst count).weighAll boost previous k).state =
        (tally.weighAll boost previous (k + count)).state.dropFirst count := by
  induction k generalizing tally with
  | zero =>
    rw [Nat.zero_add]
    exact ⟨rfl, (weighAll_in_front first (Nat.le_refl _)).symm⟩
  | succ k ih =>
    rw [Nat.succ_add, weighAll] at ok ⊢
    obtain ⟨_, stepped, rest⟩ := Outcome.bind_eq_ok_iff.mp ok
    obtain ⟨result, state⟩ := weigh_kept stepped
    obtain ⟨result', state'⟩ := ih (by rwa [parents_weigh]) rest
    rw [← state] at result' state'
    rw [weighAll, Outcome.result_bind_of_ok _ result, Outcome.state_bind_of_ok _ result,
      Outcome.state_bind_of_ok _ stepped]
    exact ⟨result', state'⟩

end Tally

theorem Choice.unique {parent child chosen other : Node}
    (choice : Choice tree parent child k chosen) (choice' : Choice tree parent child k other) :
    chosen = other := by
  cases choice <;> cases choice' <;> grind

theorem Choice.root_eq {parent child chosen : Node}
    (choice : Choice tree parent child k chosen) : chosen.root = parent.root := by
  cases choice <;> rfl

theorem Node.shifted_leadingTo (parent child : Node) (count k : Nat) :
    (parent.leadingTo child (k + count)).shifted count =
      (parent.shifted count).leadingTo (child.shifted count) k := by
  cases linked : child.bestDescendant <;>
    simp [Node.shifted, Node.leadingTo, linked]

section Kept

variable {parent child chosen : Node} (wf : tree.WellFormed)
include wf

theorem WellFormed.leads_dropFirst (at_k : tree.nodes[k + count]? = some child) :
    (tree.dropFirst count).leads (child.shifted count) = tree.leads child := by
  have viable : (tree.dropFirst count).isViable (child.shifted count) = tree.isViable child := rfl
  rw [leads, leads, viable]
  cases linked : child.bestDescendant with
  | none => simp [Node.shifted, linked]
  | some d =>
    have later := (wf.lt_of_linksTo at_k (.inr linked)).1
    simp only [Node.shifted, linked, Option.map_some, Option.any_some, viableAt_dropFirst]
    rw [Nat.sub_add_cancel (by omega)]

theorem WellFormed.choice_dropFirst (at_k : tree.nodes[k + count]? = some child)
    (at_p : tree.nodes[p + count]? = some parent)
    (choice : Choice tree parent child (k + count) chosen) :
    Choice (tree.dropFirst count) (parent.shifted count) (child.shifted count) k
      (chosen.shifted count) := by
  have leads := wf.leads_dropFirst at_k
  -- A sibling that is the best child stands after the cut, as all children of a kept node do.
  have sibling : ∀ {b : Nat} {best : Node}, parent.bestChild = some b → b ≠ k + count →
      tree.nodes[b]? = some best → ∃ c, (parent.shifted count).bestChild = some c ∧ c ≠ k ∧
        (tree.dropFirst count).nodes[c]? = some (best.shifted count) ∧
        (tree.dropFirst count).leads (best.shifted count) = tree.leads best := by
    intro b best set other at_b
    have later := (wf.lt_of_linksTo at_p (.inl set)).1
    obtain ⟨c, rfl⟩ := Nat.exists_eq_add_of_le' (show count ≤ b by omega)
    refine ⟨c, ?_, by omega, ?_, wf.leads_dropFirst at_b⟩
    · rw [Node.shifted, set, Option.map_some, Nat.add_sub_cancel]
    · rw [getElem?_dropFirst, at_b, Option.map_some]
  cases choice with
  | first vacant lead =>
    rw [Node.shifted_leadingTo]
    exact .first (by rw [Node.shifted, vacant, Option.map_none]) (leads.trans lead)
  | ignored vacant lead =>
    exact .ignored (by rw [Node.shifted, vacant, Option.map_none]) (leads.trans lead)
  | refreshed held lead =>
    rw [Node.shifted_leadingTo]
    refine .refreshed ?_ (leads.trans lead)
    rw [Node.shifted, held, Option.map_some, Nat.add_sub_cancel]
  | cleared held lead =>
    refine .cleared ?_ (leads.trans lead)
    rw [Node.shifted, held, Option.map_some, Nat.add_sub_cancel]
  | replaced held other at_b rank =>
    obtain ⟨c, held, other, at_c, bestLeads⟩ := sibling held other at_b
    rw [Node.shifted_leadingTo]
    refine .replaced held other at_c ?_
    rwa [leads, bestLeads]
  | retained held other at_b rank =>
    obtain ⟨c, held, other, at_c, bestLeads⟩ := sibling held other at_b
    refine .retained held other at_c ?_
    rwa [leads, bestLeads]

end Kept

theorem dropFirst_with_nodes {nodes : List Node}
    (roots : nodes.map (·.root) = tree.nodes.map (·.root)) :
    dropFirst { tree with nodes } count =
      { tree.dropFirst count with nodes := (nodes.drop count).map (Node.shifted count) } := by
  simp only [dropFirst, List.map_take, roots]

namespace WellFormed

variable (wf : tree.WellFormed)
include wf

theorem choose_in_front (lower : k < count) (bound : k < tree.nodes.length) :
    (tree.choose k).state.dropFirst count = tree.dropFirst count := by
  have at_k := List.getElem?_eq_getElem bound
  rcases wf.bounded.choose_cases at_k with
    ⟨-, done⟩ | ⟨p, parent, chosen, link, at_p, choice, done⟩
  · rw [done, Outcome.state_done]
  · have before := (wf.parent at_k link).1
    rw [done, Outcome.state_done, dropFirst_with_nodes (map_set_of_eq at_p choice.root_eq),
      List.drop_set_of_lt (by omega)]
    rfl

theorem choose_kept (bound : k + count < tree.nodes.length) :
    ((tree.dropFirst count).choose k).state = (tree.choose (k + count)).state.dropFirst count := by
  have at_k := List.getElem?_eq_getElem bound
  generalize tree.nodes[k + count] = child at at_k
  have at_k' : (tree.dropFirst count).nodes[k]? = some (child.shifted count) := by
    rw [getElem?_dropFirst, at_k, Option.map_some]
  have moved := (wf.dropFirst count).bounded.choose_cases at_k'
  rcases wf.bounded.choose_cases at_k with
    ⟨top, done⟩ | ⟨p, parent, chosen, link, at_p, choice, done⟩
  · rcases moved with ⟨-, done'⟩ | ⟨_, _, _, link', -⟩
    · rw [done, done', Outcome.state_done, Outcome.state_done]
    · rw [Node.shifted, top] at link'
      contradiction
  · rw [done, Outcome.state_done, dropFirst_with_nodes (map_set_of_eq at_p choice.root_eq)]
    by_cases kept : count ≤ p
    · obtain ⟨q, rfl⟩ := Nat.exists_eq_add_of_le' kept
      have link' : (child.shifted count).parentIndex = some q := by
        rw [Node.shifted, link, Option.bind_some, shiftDown?_eq_some]
      rcases moved with ⟨top, -⟩ | ⟨q', parent', chosen', link'', at_q, choice', done'⟩
      · rw [link'] at top
        contradiction
      · rw [link', Option.some.injEq] at link''
        subst link''
        rw [getElem?_dropFirst, at_p, Option.map_some, Option.some.injEq] at at_q
        subst at_q
        rw [choice'.unique (wf.choice_dropFirst at_k at_p choice)] at done'
        rw [done', Outcome.state_done, drop_set_map]
        rfl
    · have link' : (child.shifted count).parentIndex = none := by
        rw [Node.shifted, link, Option.bind_some, shiftDown?, if_neg kept]
      rcases moved with ⟨-, done'⟩ | ⟨_, _, _, link'', -⟩
      · rw [done', Outcome.state_done, List.drop_set_of_lt (Nat.lt_of_not_le kept)]
        rfl
      · rw [link'] at link''
        contradiction

theorem chooseAll_in_front (lower : k ≤ count) (bound : k ≤ tree.nodes.length) :
    (BlockTree.chooseAll k tree).state.dropFirst count = tree.dropFirst count := by
  induction k generalizing tree with
  | zero => rfl
  | succ k ih =>
    obtain ⟨-, same, wf'⟩ := wf.choose bound
    rw [chooseAll_succ wf.bounded bound,
      ih wf' (Nat.le_of_succ_le lower) (by rw [same.length_eq]; omega),
      wf.choose_in_front lower bound]

/-- The pass over the pruned tree ends in what is kept of the pass over the whole tree. -/
theorem chooseAll_kept (bound : k + count ≤ tree.nodes.length) :
    (BlockTree.chooseAll k (tree.dropFirst count)).state =
      (BlockTree.chooseAll (k + count) tree).state.dropFirst count := by
  induction k generalizing tree with
  | zero =>
    rw [Nat.zero_add] at bound ⊢
    exact (wf.chooseAll_in_front (Nat.le_refl _) bound).symm
  | succ k ih =>
    rw [Nat.succ_add] at bound ⊢
    obtain ⟨-, same, wf'⟩ := wf.choose bound
    have inside : k < (tree.dropFirst count).nodes.length := by
      rw [BlockTree.dropFirst, List.length_map, List.length_drop]
      omega
    rw [chooseAll_succ wf.bounded bound, chooseAll_succ (wf.dropFirst count).bounded inside,
      wf.choose_kept bound, ih wf' (by rw [same.length_eq]; omega)]

end WellFormed

def ScoreChange.dropFirst (change : ScoreChange) (count : Nat) : ScoreChange :=
  { change with deltas := change.deltas.drop count }

/-- New scores after pruning are those before pruning, and they are entered where those are. -/
theorem WellFormed.rescored_dropFirst (wf : tree.WellFormed) (inside : count ≤ tree.nodes.length)
    (passed : (tree.weighed change).result = .ok ()) :
    ((tree.dropFirst count).weighed (change.dropFirst count)).result = .ok () ∧
      (tree.dropFirst count).rescored (change.dropFirst count) =
        (tree.rescored change).dropFirst count := by
  obtain ⟨kept, length⟩ := Nat.exists_eq_add_of_le' inside
  have length' : (tree.dropFirst count).nodes.length = kept := by
    rw [BlockTree.dropFirst, List.length_map, List.length_drop, length, Nat.add_sub_cancel]
  have pass : (tree.dropFirst count).weighed (change.dropFirst count) =
      Tally.weighAll change.boost tree.boost kept
        (Tally.dropFirst { nodes := tree.nodes, deltas := change.deltas } count) := by
    rw [weighed, length']
    rfl
  have whole : tree.weighed change =
      Tally.weighAll change.boost tree.boost (kept + count)
        { nodes := tree.nodes, deltas := change.deltas } := by
    rw [weighed, length]
  obtain ⟨result, state⟩ := Tally.weighAll_kept wf.first (whole ▸ passed)
  rw [← whole, ← pass] at state
  refine ⟨by rw [pass, result], ?_⟩
  have reweighed : (tree.dropFirst count).reweighed (change.dropFirst count) =
      (tree.reweighed change).dropFirst count := by
    have roots : (tree.reweighed change).nodes.map (·.root) = tree.nodes.map (·.root) := by
      have names := congrArg (List.map (·.root)) (reweighed_weightless tree change)
      have forgets : (fun node : Node => node.root) ∘ Node.weightless = (·.root) := rfl
      rwa [List.map_map, List.map_map, forgets] at names
    let dated : BlockTree := { tree with
      justifiedEpoch := change.justifiedEpoch
      finalizedEpoch := change.finalizedEpoch }
    refine Eq.trans ?_ (@dropFirst_with_nodes dated count _ roots).symm
    rw [BlockTree.reweighed, state]
    rfl
  have inside' : kept + count ≤ (tree.reweighed change).nodes.length := by
    rw [length_reweighed, length]
  rw [BlockTree.rescored, BlockTree.rescored, length', reweighed, length,
    (wf.reweighed change).chooseAll_kept inside']
  rfl

end BlockTree

end LmdGhost
