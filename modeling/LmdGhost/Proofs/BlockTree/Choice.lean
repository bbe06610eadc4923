import LmdGhost.BlockTree.Scores
import LmdGhost.Proofs.BlockTree.Bounds
import LmdGhost.Proofs.Outcome
/-!
The choice of best children. Considering a child changes only the best links of its parent, in one
of six ways, and it cannot fail where links are within bounds. They stay there, and a well-formed
tree stays well-formed.
-/

namespace LmdGhost

def Node.unlinked (node : Node) : Node :=
  { node with bestChild := none, bestDescendant := none }

def Node.leadingTo (node child : Node) (position : Nat) : Node :=
  { node with
    bestChild := some position
    bestDescendant := some (child.bestDescendant.getD position) }

@[simp]
theorem Node.unlinked_unlinked (node : Node) : node.unlinked.unlinked = node.unlinked :=
  rfl

@[simp]
theorem Node.unlinked_leadingTo (node child : Node) (position : Nat) :
    (node.leadingTo child position).unlinked = node.unlinked :=
  rfl

theorem parents_of_unlinked {nodes nodes' : List Node}
    (same : nodes.map Node.unlinked = nodes'.map Node.unlinked) :
    parents nodes = parents nodes' :=
  map_eq_of_map_eq (f := Node.parentIndex) same fun _ => rfl

namespace BlockTree

variable {tree tree' : BlockTree} {node child parent parent' : Node} {i k p : Nat}

def viableAt (tree : BlockTree) (position : Nat) : Bool :=
  tree.nodes[position]?.any tree.isViable

def leads (tree : BlockTree) (node : Node) : Bool :=
  tree.isViable node || node.bestDescendant.any tree.viableAt

theorem viableAt_eq (h : tree.nodes[i]? = some node) : tree.viableAt i = tree.isViable node := by
  rw [viableAt, h, Option.any_some]

theorem Bounded.leadsToHead_eq (bounded : tree.Bounded) (h : tree.nodes[i]? = some node) :
    tree.leadsToHead node = .ok (tree.leads node) := by
  rw [leadsToHead, leads]
  cases linked : node.bestDescendant with
  | none => simp
  | some d =>
    obtain ⟨leaf, at_d⟩ := bounded.exists_linked h (.inr linked)
    simp only [nodeAt, at_d, Option.any_some, viableAt]
    exact congrArg Except.ok (Bool.or_comm _ _)

inductive Choice (tree : BlockTree) (parent child : Node) (k : Nat) : Node → Prop where
  | first : parent.bestChild = none → tree.leads child = true →
      Choice tree parent child k (parent.leadingTo child k)
  | ignored : parent.bestChild = none → tree.leads child = false →
      Choice tree parent child k parent
  | refreshed : parent.bestChild = some k → tree.leads child = true →
      Choice tree parent child k (parent.leadingTo child k)
  | cleared : parent.bestChild = some k → tree.leads child = false →
      Choice tree parent child k parent.unlinked
  | replaced {b : Nat} {best : Node} : parent.bestChild = some b → b ≠ k →
      tree.nodes[b]? = some best →
      tree.leads child = true ∧ tree.leads best = false ∨
        tree.leads child = tree.leads best ∧ outranks child best = true →
      Choice tree parent child k (parent.leadingTo child k)
  | retained {b : Nat} {best : Node} : parent.bestChild = some b → b ≠ k →
      tree.nodes[b]? = some best →
      tree.leads child = false ∧ tree.leads best = true ∨
        tree.leads child = tree.leads best ∧ outranks child best = false →
      Choice tree parent child k parent

theorem Choice.unlinked (choice : Choice tree parent child k parent') :
    parent'.unlinked = parent.unlinked := by
  cases choice <;> rfl

theorem Bounded.consider (bounded : tree.Bounded) (at_k : tree.nodes[k]? = some child)
    (at_p : tree.nodes[p]? = some parent) :
    ∃ parent', tree.consider parent child k = .ok parent' ∧
      Choice tree parent child k parent' := by
  have leads := bounded.leadsToHead_eq at_k
  rw [BlockTree.consider, leads]
  simp only [bind, Except.bind, pure, Except.pure]
  cases linked : parent.bestChild with
  | none =>
    cases lead : tree.leads child with
    | true => exact ⟨_, rfl, .first linked lead⟩
    | false => exact ⟨_, rfl, .ignored linked lead⟩
  | some b =>
    dsimp only
    by_cases same : b = k
    · subst same
      rw [if_pos rfl]
      cases lead : tree.leads child with
      | true => exact ⟨_, rfl, .refreshed linked lead⟩
      | false => exact ⟨_, rfl, .cleared linked lead⟩
    · obtain ⟨best, at_b⟩ := bounded.exists_linked at_p (.inl linked)
      simp only [same, if_false, nodeAt, at_b, bounded.leadsToHead_eq at_b]
      cases lead : tree.leads child <;> cases bestLead : tree.leads best
      case true.false => exact ⟨_, rfl, .replaced linked same at_b (.inl ⟨lead, bestLead⟩)⟩
      case false.true => exact ⟨_, rfl, .retained linked same at_b (.inl ⟨lead, bestLead⟩)⟩
      all_goals
        cases rank : outranks child best with
        | true =>
          exact ⟨_, rfl, .replaced linked same at_b (.inr ⟨lead.trans bestLead.symm, rank⟩)⟩
        | false =>
          exact ⟨_, rfl, .retained linked same at_b (.inr ⟨lead.trans bestLead.symm, rank⟩)⟩

theorem Bounded.choose_cases (bounded : tree.Bounded) (at_k : tree.nodes[k]? = some child) :
    (child.parentIndex = none ∧ tree.choose k = .done tree ()) ∨
    ∃ p parent parent', child.parentIndex = some p ∧ tree.nodes[p]? = some parent ∧
      Choice tree parent child k parent' ∧
      tree.choose k = .done { tree with nodes := tree.nodes.set p parent' } () := by
  rw [choose, nodeAt, at_k]
  dsimp only
  cases link : child.parentIndex with
  | none => exact .inl ⟨rfl, rfl⟩
  | some p =>
    obtain ⟨-, parent, at_p⟩ := bounded.exists_parent at_k link
    obtain ⟨parent', considered, choice⟩ := bounded.consider at_k at_p
    refine .inr ⟨p, parent, parent', rfl, at_p, choice, ?_⟩
    simp only [nodeAt, at_p, bind, Except.bind, considered]

def SameButLinks (tree tree' : BlockTree) : Prop :=
  ∃ nodes, tree' = { tree with nodes } ∧ nodes.map Node.unlinked = tree.nodes.map Node.unlinked

namespace SameButLinks

theorem refl (tree : BlockTree) : SameButLinks tree tree :=
  ⟨tree.nodes, rfl, rfl⟩

theorem trans {tree'' : BlockTree} (left : SameButLinks tree tree')
    (right : SameButLinks tree' tree'') : SameButLinks tree tree'' := by
  obtain ⟨nodes, rfl, same⟩ := left
  obtain ⟨nodes', rfl, same'⟩ := right
  exact ⟨nodes', rfl, same'.trans same⟩

theorem parents_eq (same : SameButLinks tree tree') :
    parents tree'.nodes = parents tree.nodes := by
  obtain ⟨nodes, rfl, same⟩ := same
  exact parents_of_unlinked same

theorem index_eq (same : SameButLinks tree tree') : tree'.index = tree.index := by
  obtain ⟨nodes, rfl, -⟩ := same
  rfl

theorem length_eq (same : SameButLinks tree tree') : tree'.nodes.length = tree.nodes.length := by
  rw [← length_parents, same.parents_eq, length_parents]

theorem getElem? (same : SameButLinks tree tree') (h : tree.nodes[i]? = some node) :
    ∃ node', tree'.nodes[i]? = some node' ∧ node'.unlinked = node.unlinked := by
  obtain ⟨nodes, rfl, same⟩ := same
  exact getElem?_of_map_eq same.symm h

theorem getElem?_left (same : SameButLinks tree tree') (h : tree'.nodes[i]? = some node) :
    ∃ node', tree.nodes[i]? = some node' ∧ node'.unlinked = node.unlinked := by
  obtain ⟨nodes, rfl, same⟩ := same
  exact getElem?_of_map_eq same h

theorem isViable_eq (same : SameButLinks tree tree') {node' : Node}
    (alike : node'.unlinked = node.unlinked) : tree'.isViable node' = tree.isViable node := by
  obtain ⟨nodes, rfl, -⟩ := same
  have eq : tree.isViable node'.unlinked = tree.isViable node.unlinked := by rw [alike]
  exact eq

theorem viableAt_eq (same : SameButLinks tree tree') (i : Nat) :
    tree'.viableAt i = tree.viableAt i := by
  cases h : tree.nodes[i]? with
  | none =>
    have past : tree'.nodes[i]? = none := by
      rw [List.getElem?_eq_none_iff] at h ⊢
      rwa [same.length_eq]
    rw [viableAt, viableAt, h, past]
    rfl
  | some node =>
    obtain ⟨node', at_i, alike⟩ := same.getElem? h
    rw [BlockTree.viableAt_eq at_i, BlockTree.viableAt_eq h, same.isViable_eq alike]

theorem bounded (same : SameButLinks tree tree') (bounded : tree.Bounded)
    (links : ∀ {node : Node} {link : Nat}, node ∈ tree'.nodes → node.LinksTo link →
      link < tree.nodes.length) : tree'.Bounded where
  indexed := by
    intro root i index
    rw [same.index_eq] at index
    obtain ⟨node, at_i, rfl⟩ := bounded.indexed index
    obtain ⟨node', at_i', alike⟩ := same.getElem? at_i
    exact ⟨node', at_i', congrArg (·.root) alike⟩
  first := by
    rw [same.parents_eq]
    exact bounded.first
  links := by
    rw [same.length_eq]
    exact links

end SameButLinks

/-- A choice takes its links from the child or from the parent. -/
theorem Choice.lt_of_linksTo (choice : Choice tree parent child k parent')
    (bounded : tree.Bounded) (at_k : tree.nodes[k]? = some child)
    (at_p : tree.nodes[p]? = some parent) {link : Nat} (links : parent'.LinksTo link) :
    link < tree.nodes.length := by
  have bound := (List.getElem?_eq_some_iff.mp at_k).1
  have chosen (links : (parent.leadingTo child k).LinksTo link) : link < tree.nodes.length := by
    rcases links with direct | further
    · cases direct
      exact bound
    · cases descendant : child.bestDescendant with
      | none =>
        simp only [Node.leadingTo, descendant, Option.getD_none, Option.some.injEq] at further
        rwa [← further]
      | some d =>
        simp only [Node.leadingTo, descendant, Option.getD_some, Option.some.injEq] at further
        exact bounded.links (List.mem_of_getElem? at_k) (.inr (by rw [descendant, further]))
  cases choice with
  | first | refreshed | replaced => exact chosen links
  | ignored | retained => exact bounded.links (List.mem_of_getElem? at_p) links
  | cleared => rcases links with direct | further <;> contradiction

/-- A node set to itself up to its best links, where the new links lead through a child. -/
theorem WellFormed.setLinks (wf : tree.WellFormed) (at_p : tree.nodes[p]? = some parent)
    (alike : parent'.unlinked = parent.unlinked)
    (links : BestLinks (parents tree.nodes) p parent'.bestChild parent'.bestDescendant) :
    SameButLinks tree { tree with nodes := tree.nodes.set p parent' } ∧
      WellFormed { tree with nodes := tree.nodes.set p parent' } := by
  have same : SameButLinks tree { tree with nodes := tree.nodes.set p parent' } :=
    ⟨_, rfl, map_set_of_eq at_p alike⟩
  refine ⟨same, ?_, ?_, ?_⟩
  · intro root i
    rw [same.index_eq, wf.indexed]
    constructor
    · rintro ⟨node, at_i, rfl⟩
      obtain ⟨node', at_i', alike⟩ := same.getElem? at_i
      exact ⟨node', at_i', congrArg (·.root) alike⟩
    · rintro ⟨node, at_i, rfl⟩
      obtain ⟨node', at_i', alike⟩ := same.getElem?_left at_i
      exact ⟨node', at_i', congrArg (·.root) alike⟩
  · intro i q node at_i link
    obtain ⟨node', at_i', alike⟩ := same.getElem?_left at_i
    have linked : node'.parentIndex = some q := (congrArg (·.parentIndex) alike).trans link
    obtain ⟨before, above, at_q, names⟩ := wf.parent at_i' linked
    obtain ⟨above', at_q', alike'⟩ := same.getElem? at_q
    have named : node'.parent = node.parent := congrArg (·.parent) alike
    have root : above'.root = above.root := congrArg (·.root) alike'
    exact ⟨before, above', at_q', by rw [← named, names, root]⟩
  · intro i node at_i
    rw [same.parents_eq]
    simp only [List.getElem?_set] at at_i
    split at at_i
    · rename_i position
      subst position
      split at at_i
      · cases at_i
        exact links
      · contradiction
    · exact wf.best at_i

theorem WellFormed.links_of_choice (wf : tree.WellFormed) (at_k : tree.nodes[k]? = some child)
    (link : child.parentIndex = some p) (at_p : tree.nodes[p]? = some parent)
    (choice : Choice tree parent child k parent') :
    BestLinks (parents tree.nodes) p parent'.bestChild parent'.bestDescendant := by
  have old := wf.best at_p
  have linked := parents_of_getElem? at_k link
  have chosen : BestLinks (parents tree.nodes) p (some k)
      (some (child.bestDescendant.getD k)) := by
    refine .set linked ?_
    have below := wf.best at_k
    cases descendant : child.bestDescendant with
    | none => exact .refl (List.getElem?_eq_some_iff.mp linked).1
    | some d =>
      rw [descendant] at below
      exact below.below wf.first
  cases choice with
  | first | refreshed | replaced => exact chosen
  | ignored | retained => exact old
  | cleared => exact .unset

theorem Bounded.choose (bounded : tree.Bounded) (bound : k < tree.nodes.length) :
    (tree.choose k).result = .ok () ∧ SameButLinks tree (tree.choose k).state ∧
      (tree.choose k).state.Bounded := by
  have at_k := List.getElem?_eq_getElem bound
  rcases bounded.choose_cases at_k with ⟨-, done⟩ | ⟨p, parent, parent', -, at_p, choice, done⟩
  · rw [done]
    exact ⟨rfl, .refl tree, bounded⟩
  · have same : SameButLinks tree { tree with nodes := tree.nodes.set p parent' } :=
      ⟨_, rfl, map_set_of_eq at_p choice.unlinked⟩
    rw [done]
    refine ⟨rfl, same, same.bounded bounded ?_⟩
    intro node link member links
    rcases List.mem_or_eq_of_mem_set member with old | rfl
    · exact bounded.links old links
    · exact choice.lt_of_linksTo bounded at_k at_p links

theorem WellFormed.choose (wf : tree.WellFormed) (bound : k < tree.nodes.length) :
    (tree.choose k).result = .ok () ∧ SameButLinks tree (tree.choose k).state ∧
      (tree.choose k).state.WellFormed := by
  obtain ⟨result, same, -⟩ := wf.bounded.choose bound
  refine ⟨result, same, ?_⟩
  have at_k := List.getElem?_eq_getElem bound
  rcases wf.bounded.choose_cases at_k with
    ⟨-, done⟩ | ⟨p, parent, parent', link, at_p, choice, done⟩
  · rwa [done]
  · rw [done]
    exact (wf.setLinks at_p choice.unlinked (wf.links_of_choice at_k link at_p choice)).2

theorem chooseAll_succ (bounded : tree.Bounded) (bound : k < tree.nodes.length) :
    chooseAll (k + 1) tree = chooseAll k (tree.choose k).state := by
  have at_k := List.getElem?_eq_getElem bound
  rw [chooseAll]
  rcases bounded.choose_cases at_k with ⟨-, done⟩ | ⟨p, parent, parent', -, -, -, done⟩
  all_goals
    rw [done, Outcome.bind_done]
    rfl

/-- What bounds links and is kept by every choice is kept by a pass, which does not fail. -/
theorem chooseAll_keeps {P : BlockTree → Prop} (inside : ∀ {tree}, P tree → tree.Bounded)
    (kept : ∀ {tree k}, P tree → k < tree.nodes.length → P (tree.choose k).state)
    (holds : P tree) {count : Nat} (bound : count ≤ tree.nodes.length) :
    (chooseAll count tree).result = .ok () ∧ SameButLinks tree (chooseAll count tree).state ∧
      P (chooseAll count tree).state := by
  induction count generalizing tree with
  | zero => exact ⟨rfl, .refl tree, holds⟩
  | succ k ih =>
    obtain ⟨-, same, -⟩ := (inside holds).choose bound
    rw [chooseAll_succ (inside holds) bound]
    obtain ⟨result, same', holds'⟩ := ih (kept holds bound) (by rw [same.length_eq]; omega)
    exact ⟨result, same.trans same', holds'⟩

theorem Bounded.chooseAll (bounded : tree.Bounded) {count : Nat}
    (bound : count ≤ tree.nodes.length) :
    (chooseAll count tree).result = .ok () ∧ SameButLinks tree (chooseAll count tree).state ∧
      (BlockTree.chooseAll count tree).state.Bounded :=
  chooseAll_keeps id (fun bounded bound => (bounded.choose bound).2.2) bounded bound

theorem WellFormed.chooseAll (wf : tree.WellFormed) {count : Nat}
    (bound : count ≤ tree.nodes.length) :
    (chooseAll count tree).result = .ok () ∧ SameButLinks tree (chooseAll count tree).state ∧
      (BlockTree.chooseAll count tree).state.WellFormed :=
  chooseAll_keeps WellFormed.bounded (fun wf bound => (wf.choose bound).2.2) wf bound

end BlockTree

end LmdGhost
