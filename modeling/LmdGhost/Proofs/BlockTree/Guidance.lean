import LmdGhost.Proofs.BlockTree.Heads
import LmdGhost.Proofs.BlockTree.Pruning
/-!
Trees in which the best links are those of the rule: each node's lead to its greatest child with a
viable node in the subtree, or are unset where there is none. There the head that is found is the
one the descent comes to. New scores make a tree so if the old best links lead to nodes that are
viable under the new scores, and pruning keeps it so.
-/

namespace LmdGhost.BlockTree

variable {tree : BlockTree} {change : ScoreChange} {node head : Node} {root other : Root}
  {count i p : Nat} {best descendant : Option Nat}

/-- All best links are those of the rule. -/
def Guided (tree : BlockTree) : Prop :=
  ∀ ⦃p : Nat⦄ ⦃node : Node⦄, tree.nodes[p]? = some node →
    Settled tree p none node.bestChild node.bestDescendant

theorem not_displaced_none : ¬tree.Displaced p none := by
  rintro ⟨b, e, was_best, -⟩
  contradiction

/-- Where the child that was best before still carries a head, the links are those of the rule. -/
theorem Settled.unheld {held : Option Nat} (settled : Settled tree p held best descendant)
    (carries : ∀ {b}, held = some b → tree.ChildOf p b ∧ tree.Carries b) :
    Settled tree p none best descendant := by
  cases settled with
  | favourite childOf carries greatest => exact .favourite childOf carries greatest
  | leaf none_carries _ => exact .leaf none_carries not_displaced_none
  | stranded none_carries displaced _ =>
    obtain ⟨b, -, was_best, -⟩ := displaced
    obtain ⟨childOf, carries⟩ := carries was_best
    exact absurd carries (none_carries b childOf)

namespace Guided

theorem sound (guided : tree.Guided) (wf : tree.WellFormed) (p : Nat) : tree.Sound p := by
  induction p using ParentsFirst.induction wf.first with
  | step p ih =>
    intro carries
    obtain ⟨d, below, viable⟩ := carries
    obtain ⟨node, at_p⟩ := below.exists_ancestor
    refine (wf.sound_iff_of_settled at_p (fun childOf => ih _ childOf) (guided at_p)).mpr ?_
      ⟨d, below, viable⟩
    exact fun stranded => not_displaced_none stranded.2.2

theorem descent (guided : tree.Guided) (wf : tree.WellFormed) (at_p : tree.nodes[p]? = some node)
    (at_leaf : tree.nodes[tree.leafAt p]? = some head) : Descent tree node.root head.root := by
  induction p using ParentsFirst.induction wf.first generalizing node with
  | step p ih =>
    have settled := guided at_p
    have leaf := WellFormed.leafAt_eq at_p
    generalize node.bestChild = best, node.bestDescendant = descendant at settled leaf
    cases settled with
    | @favourite c childOf carries greatest =>
      rw [Option.getD_some] at leaf
      rw [leaf] at at_leaf
      obtain ⟨child, at_c, -⟩ := exists_of_parents childOf
      have carriesHead := (wf.carriesHead_iff at_c).mpr carries
      refine .move ((wf.childOf_iff at_p at_c).mp childOf) carriesHead ?_
        (ih c childOf at_c at_leaf)
      intro sibling member carries_e
      obtain ⟨e, at_e, link⟩ := (wf.mem_children at_p).mp member
      rw [← rankAt_eq at_e, ← rankAt_eq at_c]
      exact greatest e (parents_of_getElem? at_e link) ((wf.carriesHead_iff at_e).mp carries_e)
    | leaf none_carries _ =>
      rw [Option.getD_none] at leaf
      rw [leaf, at_p] at at_leaf
      cases at_leaf
      refine .stop fun child member => ?_
      obtain ⟨e, at_e, link⟩ := (wf.mem_children at_p).mp member
      rw [← Bool.not_eq_true, wf.carriesHead_iff at_e]
      exact none_carries e (parents_of_getElem? at_e link)
    | stranded _ displaced _ => exact absurd displaced not_displaced_none

theorem descent_unique (guided : tree.Guided) (wf : tree.WellFormed)
    (descent : Descent tree root other) (at_p : tree.nodes[p]? = some node)
    (named : node.root = root)
    (at_leaf : tree.nodes[tree.leafAt p]? = some head) : other = head.root := by
  induction descent generalizing p node with
  | @stop root none_carries =>
    subst named
    have settled := guided at_p
    have leaf := WellFormed.leafAt_eq at_p
    generalize node.bestChild = best, node.bestDescendant = descendant at settled leaf
    cases settled with
    | @favourite c childOf carries _ =>
      obtain ⟨child, at_c, -⟩ := exists_of_parents childOf
      have idle := none_carries child ((wf.childOf_iff at_p at_c).mp childOf)
      rw [(wf.carriesHead_iff at_c).mpr carries] at idle
      contradiction
    | leaf =>
      rw [Option.getD_none] at leaf
      rw [leaf, at_p] at at_leaf
      cases at_leaf
      rfl
    | stranded _ displaced _ => exact absurd displaced not_displaced_none
  | @move head root child member carries greatest _ ih =>
    subst named
    obtain ⟨e, at_e, link⟩ := (wf.mem_children at_p).mp member
    have childOf_e : tree.ChildOf p e := parents_of_getElem? at_e link
    have carries_e := (wf.carriesHead_iff at_e).mp carries
    have settled := guided at_p
    have leaf := WellFormed.leafAt_eq at_p
    generalize node.bestChild = best, node.bestDescendant = descendant at settled leaf
    cases settled with
    | @favourite c childOf carries_c greatest_c =>
      rw [Option.getD_some] at leaf
      rw [leaf] at at_leaf
      obtain ⟨favourite, at_c, -⟩ := exists_of_parents childOf
      have lower := greatest_c e childOf_e carries_e
      have higher := greatest favourite ((wf.childOf_iff at_p at_c).mp childOf)
        ((wf.carriesHead_iff at_c).mpr carries_c)
      rw [rankAt_eq at_e, rankAt_eq at_c] at lower
      obtain rfl := wf.root_unique at_e at_c (Node.rank_inj (le_antisymm lower higher))
      exact ih at_e rfl at_leaf
    | leaf none_carries _ => exact absurd carries_e (none_carries e childOf_e)
    | stranded _ displaced _ => exact absurd displaced not_displaced_none

/-- Where all best links are those of the rule, the head found is that of the rule. -/
theorem findHead_eq (guided : tree.Guided) (wf : tree.WellFormed)
    (known : tree.contains root = true) :
    ∃ head, Descent tree root head ∧ (∀ other, Descent tree root other → other = head) ∧
      tree.findHead root = tree.headOrError head := by
  obtain ⟨p, node, at_p, rfl⟩ := wf.contains_iff.mp known
  obtain ⟨head, at_leaf, found⟩ := wf.findHead_eq at_p
  refine ⟨head.root, guided.descent wf at_p at_leaf, ?_, ?_⟩
  · exact fun other descent => guided.descent_unique wf descent at_p rfl at_leaf
  · rw [found, headOrError, wf.node?_root at_leaf, Option.any_some]

end Guided

/--
New scores lead to links of the rule if the old links lead to nodes that are viable under them.
-/
theorem WellFormed.guided_rescored (wf : tree.WellFormed) (change : ScoreChange)
    (viable : ∀ {i d : Nat} {node : Node}, tree.nodes[i]? = some node →
      node.bestDescendant = some d →
      (tree.rescored change).viableAt d = true) :
    (tree.rescored change).Guided := by
  have wf' := wf.rescored change
  have same_parents := parents_rescored wf change
  have held_carries : ∀ {p b : Nat} {node : Node}, tree.nodes[p]? = some node →
      node.bestChild = some b →
        (tree.rescored change).ChildOf p b ∧ (tree.rescored change).Carries b := by
    intro p b node at_p was_best
    have links := wf.best at_p
    rw [was_best] at links
    cases link : node.bestDescendant with
    | none =>
      rw [link] at links
      contradiction
    | some d =>
      rw [link] at links
      cases links with
      | set childOf below =>
        rw [ChildOf, Carries, same_parents]
        exact ⟨childOf, d, below, viable at_p link⟩
  have sound : ∀ s, (tree.rescored change).Sound s := by
    intro s carries
    obtain ⟨d, path, -⟩ := id carries
    have bound := path.left_lt_length
    rw [same_parents] at bound
    refine (wf.sound_below_iff change s).mpr (fun s' node _ at_s' => ?_) s (.refl bound) carries
    rintro ⟨-, none_carries, b, e, was_best, -⟩
    obtain ⟨childOf, carries_b⟩ := held_carries at_s' was_best
    exact none_carries b childOf carries_b
  intro p node' at_p'
  obtain ⟨old, at_p⟩ := exists_of_rescored wf at_p'
  obtain ⟨node, at_p'', settled⟩ := wf.settled_rescored change at_p fun childOf =>
    wf'.leadsAt_iff_of_child childOf (sound _)
  rw [at_p'] at at_p''
  cases at_p''
  exact settled.unheld fun was_best => held_carries at_p was_best

theorem viableAt_dropFirst (tree : BlockTree) (count i : Nat) :
    (tree.dropFirst count).viableAt i = tree.viableAt (i + count) := by
  rw [viableAt, getElem?_dropFirst, viableAt]
  cases tree.nodes[i + count]? <;> rfl

theorem rankAt_dropFirst (tree : BlockTree) (count i : Nat) :
    (tree.dropFirst count).rankAt i = tree.rankAt (i + count) := by
  rw [rankAt, getElem?_dropFirst, rankAt]
  cases tree.nodes[i + count]? <;> rfl

theorem childOf_dropFirst {c : Nat} :
    (tree.dropFirst count).ChildOf p c ↔ tree.ChildOf (p + count) (c + count) :=
  parents_dropFirst

namespace WellFormed

theorem carries_dropFirst (wf : tree.WellFormed) :
    (tree.dropFirst count).Carries i ↔ tree.Carries (i + count) := by
  constructor
  · rintro ⟨d, below, viable⟩
    rw [viableAt_dropFirst] at viable
    exact ⟨d + count, (below_dropFirst wf.first).mp below, viable⟩
  · rintro ⟨d, below, viable⟩
    have later := below.le wf.first
    obtain ⟨d, rfl⟩ := Nat.exists_eq_add_of_le' (Nat.le_trans (Nat.le_add_left count i) later)
    exact ⟨d, (below_dropFirst wf.first).mpr below, (viableAt_dropFirst tree count d).trans viable⟩

theorem leafAt_dropFirst (at_i : tree.nodes[i + count]? = some node) :
    (tree.dropFirst count).leafAt i = tree.leafAt (i + count) - count := by
  have at_i' : (tree.dropFirst count).nodes[i]? = some (node.shifted count) := by
    rw [getElem?_dropFirst, at_i, Option.map_some]
  rw [leafAt_eq at_i', leafAt_eq at_i, Node.shifted]
  cases node.bestDescendant with
  | none => exact (Nat.add_sub_cancel i count).symm
  | some d => rfl

end WellFormed

theorem Guided.dropFirst (guided : tree.Guided) (wf : tree.WellFormed) (count : Nat) :
    (tree.dropFirst count).Guided := by
  intro p node' at_p
  rw [getElem?_dropFirst] at at_p
  obtain ⟨node, old, rfl⟩ := Option.map_eq_some_iff.mp at_p
  have settled := guided old
  simp only [Node.shifted]
  generalize node.bestChild = best, node.bestDescendant = descendant at settled
  cases settled with
  | @favourite c childOf carries greatest =>
    have later := wf.first childOf
    obtain ⟨c, rfl⟩ := Nat.exists_eq_add_of_le' (Nat.le_trans (Nat.le_add_left count p)
      (Nat.le_of_lt later))
    obtain ⟨child, at_c, -⟩ := exists_of_parents childOf
    rw [Option.map_some, Option.map_some, ← WellFormed.leafAt_dropFirst at_c, Nat.add_sub_cancel]
    refine .favourite (childOf_dropFirst.mpr childOf) (wf.carries_dropFirst.mpr carries) ?_
    intro e childOf_e carries_e
    rw [rankAt_dropFirst, rankAt_dropFirst]
    exact greatest _ (childOf_dropFirst.mp childOf_e) (wf.carries_dropFirst.mp carries_e)
  | leaf none_carries _ =>
    refine .leaf (fun e childOf carries => ?_) not_displaced_none
    exact none_carries _ (childOf_dropFirst.mp childOf) (wf.carries_dropFirst.mp carries)
  | stranded _ displaced _ => exact absurd displaced not_displaced_none

end LmdGhost.BlockTree
