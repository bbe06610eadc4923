import LmdGhost.Proofs.BlockTree.Scores
import LmdGhost.Proofs.BlockTree.Siblings
/-!
Where a pass leaves the best links. A node is sound if its best links lead to a viable node whenever
there is one below it. After a pass a node above sound children is sound unless it is viable and was
left with a child that leads nowhere, so a subtree is sound throughout exactly when no node of it is
stranded in that way.
-/

namespace LmdGhost.BlockTree

variable {tree before : BlockTree} {change : ScoreChange} {node node' : Node}
  {held best descendant : Option Nat} {c i k p : Nat} {root : Root}

inductive Settled (tree : BlockTree) (p : Nat) (held : Option Nat) : Option Nat → Option Nat → Prop
    where
  | favourite {c : Nat} : tree.ChildOf p c → tree.Carries c →
      (∀ e, tree.ChildOf p e → tree.Carries e → tree.rankAt e ≤ tree.rankAt c) →
      Settled tree p held (some c) (some (tree.leafAt c))
  | leaf : (∀ e, tree.ChildOf p e → ¬tree.Carries e) → ¬tree.Displaced p held →
      Settled tree p held none none
  | stranded {c : Nat} {descendant : Option Nat} : (∀ e, tree.ChildOf p e → ¬tree.Carries e) →
      tree.Displaced p held → tree.ChildOf p c →
      (∀ e, tree.ChildOf p e → tree.rankAt e ≤ tree.rankAt c) →
      Settled tree p held (some c) descendant

theorem Standing.settled (standing : Standing tree p held 0 best descendant)
    (held_child : ∀ b, held = some b → tree.ChildOf p b) :
    Settled tree p held best descendant := by
  have none_excused : ∀ {e}, ¬tree.Excused held 0 e := by
    rintro e ⟨b, -, bound, -⟩
    omega
  cases standing with
  | vacant none_carries _ kept => exact .leaf (fun e => none_carries e (Nat.zero_le e)) kept
  | elected _ childOf carries others =>
    refine .favourite childOf carries fun e childOf_e carries_e => ?_
    exact (others e (Nat.zero_le e) childOf_e carries_e).resolve_right none_excused
  | untouched _ bound => omega
  | @usurped c b _ _ childOf _ was_best _ displaced excused greatest =>
    have none_carries : ∀ e, tree.ChildOf p e → ¬tree.Carries e := fun e childOf_e carries =>
      none_excused (excused e (Nat.zero_le e) childOf_e carries)
    refine .stranded none_carries displaced childOf fun e childOf_e => ?_
    exact greatest e (Nat.zero_le e) childOf_e (none_carries b (held_child b was_best))

theorem WellFormed.getElem?_choose (wf : before.WellFormed) (bound : k < before.nodes.length)
    (later : k ≤ c) : (before.choose k).state.nodes[c]? = before.nodes[c]? := by
  have at_k := List.getElem?_eq_getElem bound
  rcases wf.bounded.choose_cases at_k with ⟨-, done⟩ | ⟨p, parent, parent', link, -, -, done⟩
  · rw [done]
    rfl
  · have earlier := (wf.parent at_k link).1
    rw [done]
    exact List.getElem?_set_ne (by omega)

theorem WellFormed.getElem?_chooseAll (wf : before.WellFormed) (bound : k ≤ before.nodes.length)
    (later : k ≤ c + 1) : (BlockTree.chooseAll k before).state.nodes[c]? = before.nodes[c]? := by
  induction k generalizing before with
  | zero => rfl
  | succ k ih =>
    obtain ⟨-, same, wf'⟩ := wf.choose (k := k) (by omega)
    rw [chooseAll_succ wf.bounded (by omega), ih wf' (by rw [same.length_eq]; omega) (by omega),
      wf.getElem?_choose (by omega) (by omega)]

/--
A pass settles the best links of a parent whose children lead to a viable node exactly where they
have one in their subtree.
-/
theorem WellFormed.standing_chooseAll (wf : before.WellFormed) (bound : k ≤ before.nodes.length)
    (done : (BlockTree.chooseAll k before).state = tree)
    (right : ∀ {c}, tree.ChildOf p c → (tree.leadsAt c = true ↔ tree.Carries c))
    (held_child : ∀ b, held = some b → tree.ChildOf p b) (at_p : before.nodes[p]? = some node)
    (standing : Standing tree p held k node.bestChild node.bestDescendant) :
    ∃ node', tree.nodes[p]? = some node' ∧
      Standing tree p held 0 node'.bestChild node'.bestDescendant := by
  induction k generalizing before node with
  | zero =>
    subst done
    exact ⟨node, at_p, standing⟩
  | succ k ih =>
    have at_k := List.getElem?_eq_getElem (l := before.nodes) (i := k) (by omega)
    obtain ⟨-, same', wf'⟩ := wf.choose (k := k) (by omega)
    have same : SameButLinks before tree := done ▸ (wf.chooseAll bound).2.1
    have final : ∀ {c}, k ≤ c → before.nodes[c]? = tree.nodes[c]? := by
      intro c later
      rw [← done, wf.getElem?_chooseAll bound (by omega)]
    have is_child : ∀ {q}, tree.ChildOf q k ↔ before.nodes[k].parentIndex = some q := by
      intro q
      rw [ChildOf, same.parents_eq, getElem?_parents, at_k, Option.map_some, Option.some.injEq]
    have considered : ∃ node', (before.choose k).state.nodes[p]? = some node' ∧
        Standing tree p held k node'.bestChild node'.bestDescendant := by
      rcases wf.bounded.choose_cases at_k with
        ⟨top, idle⟩ | ⟨q, parent, parent', link, at_q, choice, chosen⟩
      · rw [idle]
        refine ⟨node, at_p, standing.skip (fun childOf => ?_) held_child⟩
        rw [is_child, top] at childOf
        contradiction
      · rw [chosen]
        by_cases here : q = p
        · subst here
          rw [at_p] at at_q
          cases at_q
          have position := (List.getElem?_eq_some_iff.mp at_p).1
          refine ⟨parent', List.getElem?_set_self position, ?_⟩
          exact standing.step ⟨same, wf, at_k, is_child.mpr link, final, right⟩ choice
        · refine ⟨node, (List.getElem?_set_ne here).trans at_p, ?_⟩
          refine standing.skip (fun childOf => ?_) held_child
          rw [is_child, link] at childOf
          exact here (Option.some.inj childOf)
    obtain ⟨node', at_p', standing'⟩ := considered
    rw [chooseAll_succ wf.bounded (by omega)] at done
    exact ih wf' (by rw [same'.length_eq]; omega) done at_p' standing'

theorem Settled.with_boost (boost : Option Boost) (settled : Settled tree p held best descendant) :
    Settled { tree with boost } p held best descendant := by
  cases settled with
  | favourite childOf carries greatest =>
    refine .favourite ?_ ?_ ?_
    · exact childOf
    · exact carries
    · exact greatest
  | leaf none_carries kept => exact .leaf none_carries kept
  | stranded none_carries displaced childOf greatest =>
    exact .stranded none_carries displaced childOf greatest

/-- The best links of every node are settled, given what it held before. -/
theorem WellFormed.settled_rescored (wf : tree.WellFormed) (change : ScoreChange)
    (at_p : tree.nodes[p]? = some node)
    (right : ∀ {c}, (tree.rescored change).ChildOf p c →
      ((tree.rescored change).leadsAt c = true ↔ (tree.rescored change).Carries c)) :
    ∃ node', (tree.rescored change).nodes[p]? = some node' ∧
      Settled (tree.rescored change) p node.bestChild node'.bestChild node'.bestDescendant := by
  obtain ⟨weighed, at_p', place⟩ :=
    getElem?_of_map_eq (places_of_weightless (reweighed_weightless tree change)).symm at_p
  simp only [Node.place, Prod.mk.injEq] at place
  obtain ⟨-, -, -, child, -⟩ := place
  obtain ⟨-, same, -⟩ := wf.chooseAll_reweighed change
  generalize done : (BlockTree.chooseAll tree.nodes.length (tree.reweighed change)).state = chosen
    at same
  have after : tree.rescored change = { chosen with boost := change.boost } := by
    rw [BlockTree.rescored, done]
  have links := (wf.reweighed change).best at_p'
  rw [← same.parents_eq] at links
  have held_child : ∀ b, weighed.bestChild = some b → chosen.ChildOf p b := by
    intro b was_best
    rw [was_best] at links
    exact links.childOf
  have standing := Standing.start links
  rw [same.length_eq, length_reweighed] at standing
  rw [after] at right
  obtain ⟨node', at_p'', standing⟩ := (wf.reweighed change).standing_chooseAll
    (Nat.le_of_eq (length_reweighed tree change).symm) done right held_child at_p' standing
  rw [after, ← child]
  exact ⟨node', at_p'', (standing.settled held_child).with_boost _⟩

/-- The best links lead to a viable node if there is one in the subtree. -/
def Sound (tree : BlockTree) (position : Nat) : Prop :=
  tree.Carries position → tree.viableAt (tree.leafAt position) = true

/-- A viable node was left with a child that leads nowhere, given the child it held before. -/
def StrandedAt (tree : BlockTree) (position : Nat) (held : Option Nat) : Prop :=
  tree.viableAt position = true ∧ (∀ e, tree.ChildOf position e → ¬tree.Carries e) ∧
    tree.Displaced position held

namespace WellFormed

theorem leafAt_eq (at_i : tree.nodes[i]? = some node) :
    tree.leafAt i = node.bestDescendant.getD i := by
  rw [leafAt, at_i, Option.bind_some]

theorem below_leafAt (wf : tree.WellFormed) (at_i : tree.nodes[i]? = some node) :
    Below (parents tree.nodes) i (tree.leafAt i) := by
  rw [leafAt_eq at_i]
  have links := wf.best at_i
  cases link : node.bestDescendant with
  | none =>
    refine .refl ?_
    simpa using (List.getElem?_eq_some_iff.mp at_i).1
  | some d =>
    rw [link] at links
    exact links.below wf.first

theorem leadsAt_iff_of_child (wf : tree.WellFormed) (childOf : tree.ChildOf p c)
    (sound : tree.Sound c) : tree.leadsAt c = true ↔ tree.Carries c := by
  obtain ⟨node, at_i, -⟩ := exists_of_parents childOf
  rw [leadsAt, at_i, Option.any_some]
  constructor
  · exact wf.carries_of_leads at_i
  · intro carries
    have viable := sound carries
    rw [leafAt_eq at_i] at viable
    rw [leads, Bool.or_eq_true]
    cases link : node.bestDescendant with
    | none =>
      rw [link, Option.getD_none, viableAt_eq at_i] at viable
      exact .inl viable
    | some d =>
      rw [link, Option.getD_some] at viable
      exact .inr viable

/-- After a pass, a node above sound children is sound unless it is stranded. -/
theorem sound_iff_of_settled (wf : tree.WellFormed) (at_p : tree.nodes[p]? = some node)
    (sound : ∀ {c}, tree.ChildOf p c → tree.Sound c)
    (settled : Settled tree p held node.bestChild node.bestDescendant) :
    tree.Sound p ↔ ¬tree.StrandedAt p held := by
  have links := wf.best at_p
  have leaf := leafAt_eq at_p
  generalize node.bestChild = best, node.bestDescendant = descendant at settled links leaf
  cases settled with
  | favourite childOf carries _ =>
    rw [Option.getD_some] at leaf
    refine iff_of_true (fun _ => leaf ▸ sound childOf carries) ?_
    rintro ⟨-, none_carries, -⟩
    exact none_carries _ childOf carries
  | leaf none_carries kept =>
    rw [Option.getD_none] at leaf
    refine iff_of_true (fun carries => ?_) fun stranded => kept stranded.2.2
    rcases carries.viable_or_child with viable | ⟨c, childOf, carries⟩
    · rwa [leaf]
    · exact absurd carries (none_carries c childOf)
  | @stranded c _ none_carries displaced childOf _ =>
    cases links with
    | @set _ d _ below =>
      rw [Option.getD_some] at leaf
      have astray : tree.viableAt (tree.leafAt p) ≠ true := by
        intro viable
        exact none_carries c childOf ⟨d, below, leaf ▸ viable⟩
      constructor
      · rintro sound ⟨viable, -⟩
        refine astray (sound ⟨p, .refl ?_, viable⟩)
        simpa using (List.getElem?_eq_some_iff.mp at_p).1
      · intro not_stranded carries
        rcases carries.viable_or_child with viable | ⟨e, childOf, carries⟩
        · exact absurd ⟨viable, none_carries, displaced⟩ not_stranded
        · exact absurd carries (none_carries e childOf)

theorem findHead_eq (wf : tree.WellFormed) (at_i : tree.nodes[i]? = some node) :
    ∃ head, tree.nodes[tree.leafAt i]? = some head ∧ tree.findHead node.root =
      if tree.isViable head then .ok head.root else .error (.headNotViable head.root) := by
  obtain ⟨head, at_leaf⟩ := (wf.below_leafAt at_i).exists_node
  refine ⟨head, at_leaf, ?_⟩
  rw [leafAt_eq at_i] at at_leaf
  simp only [findHead, wf.index_root at_i, nodeAt, at_i, at_leaf, bind, Except.bind]
  rfl

/-- A head is found exactly where there is one if the node is sound. -/
theorem isOk_findHead_iff (wf : tree.WellFormed) (at_i : tree.nodes[i]? = some node) :
    (tree.findHead node.root).isOk = tree.carriesHead node.root ↔ tree.Sound i := by
  obtain ⟨head, at_leaf, found⟩ := wf.findHead_eq at_i
  have viable_iff : (tree.findHead node.root).isOk = true ↔
      tree.viableAt (tree.leafAt i) = true := by
    rw [found, viableAt_eq at_leaf]
    cases tree.isViable head <;> simp [Except.isOk, Except.toBool]
  rw [Bool.eq_iff_iff, viable_iff, wf.carriesHead_iff at_i, Sound]
  constructor
  · exact fun found_iff => found_iff.mpr
  · exact fun sound => ⟨fun viable => ⟨_, wf.below_leafAt at_i, viable⟩, sound⟩

theorem sound_rescored_iff (wf : tree.WellFormed) (change : ScoreChange)
    (at_p : tree.nodes[p]? = some node)
    (sound : ∀ {c}, (tree.rescored change).ChildOf p c → (tree.rescored change).Sound c) :
    (tree.rescored change).Sound p ↔ ¬(tree.rescored change).StrandedAt p node.bestChild := by
  have wf' := wf.rescored change
  obtain ⟨node', at_p', settled⟩ := wf.settled_rescored change at_p fun childOf =>
    wf'.leadsAt_iff_of_child childOf (sound childOf)
  exact wf'.sound_iff_of_settled at_p' sound settled

/-- A subtree is sound throughout exactly when no node of it is stranded. -/
theorem sound_below_iff (wf : tree.WellFormed) (change : ScoreChange) (p : Nat) :
    (∀ s, Below (parents tree.nodes) p s → (tree.rescored change).Sound s) ↔
      ∀ s node, Below (parents tree.nodes) p s → tree.nodes[s]? = some node →
        ¬(tree.rescored change).StrandedAt s node.bestChild := by
  have same_parents := parents_rescored wf change
  constructor
  · intro sound s node below at_s
    refine (wf.sound_rescored_iff change at_s fun childOf => ?_).mp (sound s below)
    rw [ChildOf, same_parents] at childOf
    exact sound _ (below.trans (.of_parent wf.first childOf))
  · intro unstranded s
    induction s using ParentsFirst.induction wf.first with
    | step s ih =>
      intro below
      obtain ⟨node, at_s⟩ := below.exists_node
      refine (wf.sound_rescored_iff change at_s fun childOf => ?_).mpr (unstranded s _ below at_s)
      rw [ChildOf, same_parents] at childOf
      exact ih _ childOf (below.trans (.of_parent wf.first childOf))

end WellFormed

end LmdGhost.BlockTree
