import LmdGhost.Proofs.BlockTree.Guidance
import LmdGhost.Proofs.BlockTree.Verdicts
/-!
Scores that are applied once more. Changes of nothing, with the boost and the epochs that the tree
has, succeed and leave all but the best links as they are. Links may move all the same, since
children are compared by the links of the last pass. They lead to all heads that were found before
if the tree is steady: a parent whose children all lead nowhere holds none that a later one
outranks. Every change of scores leaves a steady tree, and only rejections can unsettle it.
-/

namespace LmdGhost

@[simp]
theorem Delta.zero_add? (delta : Delta) : Delta.add? 0 delta = some delta := by
  rw [add?, ofInt?_eq_some]
  exact (Int.zero_add _).symm

@[simp]
theorem Delta.sub?_self (delta : Delta) : Delta.sub? delta delta = some 0 := by
  rw [sub?, ofInt?_eq_some]
  exact (Int.sub_self _).symm

@[simp]
theorem Delta.addTo?_zero (amount : Gwei) : Delta.addTo? 0 amount = some amount := by
  rw [addTo?, Word.ofInt?_eq_some]
  exact (Int.add_zero _).symm

/-- A node as if its payload had not been confirmed. -/
def Node.unconfirmed (node : Node) : Node :=
  { node with status := if node.status.isInvalid then .invalid else .syncing }

namespace BlockTree

variable {tree tree' : BlockTree} {change : ScoreChange} {boost previous : Option Boost}
  {tally : Tally} {node : Node} {root : Root} {i k p count : Nat}

def Lendable (boost : Option Boost) (root : Root) : Prop :=
  ∀ lent, boost = some lent → lent.root = root → ∃ score, Delta.ofGwei? lent.score = some score

theorem Lendable.enterBoost (lendable : Lendable boost node.root) :
    (enterBoost Delta.add? boost node 0).bind (enterBoost Delta.sub? boost node) = some 0 := by
  cases boost with
  | none => rfl
  | some lent =>
    by_cases named : lent.root = node.root
    · obtain ⟨score, fits⟩ := lendable lent rfl named
      simp [BlockTree.enterBoost, named, fits]
    · simp [BlockTree.enterBoost, named]

theorem lendable_of_enterBoost {delta total : Delta}
    (entered : enterBoost Delta.add? boost node delta = some total) :
    Lendable boost node.root := by
  rintro lent rfl named
  simp only [enterBoost, named, if_true] at entered
  obtain ⟨score, fits, -⟩ := Option.bind_eq_some_iff.mp entered
  exact ⟨score, fits⟩

theorem Tally.passUp_idle {parent : Option Nat}
    (idle : ∀ p, parent = some p → tally.deltas[p]? = some 0) :
    tally.passUp parent 0 = .done tally () := by
  cases parent with
  | none => rfl
  | some p =>
    obtain ⟨within, zero⟩ := List.getElem?_eq_some_iff.mp (idle p rfl)
    have unchanged : tally.deltas.set p 0 = tally.deltas := by
      rw [← zero, List.set_getElem_self]
    simp only [passUp, idle p rfl, Delta.zero_add?, unchanged]

theorem Tally.weigh_eq {delta total : Delta} {weight : Gwei} (at_k : tally.nodes[k]? = some node)
    (delta_k : tally.deltas[k]? = some delta)
    (entered : (enterBoost Delta.add? boost node delta).bind (enterBoost Delta.sub? previous node) =
      some total)
    (raised : total.addTo? node.weight = some weight) :
    tally.weigh boost previous k =
      passUp { tally with nodes := tally.nodes.set k { node with weight } } node.parentIndex
        total := by
  simp only [weigh, at_k, delta_k, entered, raised]

/-- Where all changes are none and the boost stays, a node keeps its weight. -/
theorem Tally.weigh_idle (at_k : tally.nodes[k]? = some node)
    (idle : tally.deltas = List.replicate count 0) (bound : k < count)
    (first : ∀ p, node.parentIndex = some p → p < k) (lendable : Lendable boost node.root) :
    tally.weigh boost boost k = .done tally () := by
  have none_at {j : Nat} (inside : j < count) : tally.deltas[j]? = some 0 := by
    rw [idle, List.getElem?_replicate_of_lt inside]
  obtain ⟨within, here⟩ := List.getElem?_eq_some_iff.mp at_k
  have unchanged : tally.nodes.set k { node with weight := node.weight } = tally.nodes := by
    rw [← here, List.set_getElem_self]
  rw [weigh_eq at_k (none_at bound) lendable.enterBoost (Delta.addTo?_zero _), unchanged]
  exact passUp_idle fun p link => none_at (Nat.lt_trans (first p link) bound)

theorem Tally.weighAll_idle (first : ParentsFirst (parents tally.nodes))
    (idle : tally.deltas = List.replicate tally.nodes.length 0)
    (lendable : ∀ node ∈ tally.nodes, Lendable boost node.root)
    (bound : k ≤ tally.nodes.length) : weighAll boost boost k tally = .done tally () := by
  induction k with
  | zero => rfl
  | succ k ih =>
    have at_k := List.getElem?_eq_getElem (l := tally.nodes) (i := k) bound
    have kept := weigh_idle at_k idle bound (fun p link => first (parents_of_getElem? at_k link))
      (lendable _ (List.getElem_mem bound))
    rw [weighAll, kept, Outcome.bind_done]
    exact ih (by omega)

/-- A boost that was entered into the weights fits wherever it is for a node. -/
theorem Tally.lendable_of_weighAll (ok : (weighAll boost previous count tally).result = .ok ())
    (at_i : tally.nodes[i]? = some node) (bound : i < count) : Lendable boost node.root := by
  induction count generalizing tally node with
  | zero => contradiction
  | succ k ih =>
    obtain ⟨_, weighed, rest⟩ := Outcome.bind_eq_ok_iff.mp ok
    rcases Nat.lt_succ_iff_lt_or_eq.mp bound with earlier | rfl
    · have same := (weigh_weightless boost previous k tally).symm
      obtain ⟨node', at_i', alike⟩ := getElem?_of_map_eq same at_i
      have named : node'.root = node.root := congrArg (·.root) alike
      exact named ▸ ih rest at_i' earlier
    · rw [weigh, at_i] at weighed
      split at weighed
      · rename_i found _
        cases found
        split at weighed
        · contradiction
        · rename_i entered
          obtain ⟨_, added, -⟩ := Option.bind_eq_some_iff.mp entered
          exact lendable_of_enterBoost added
      · contradiction

/-- Scores that the tree has already: no change of a weight, the same boost and the same epochs. -/
structure ScoreChange.Repeats (change : ScoreChange) (tree : BlockTree) : Prop where
  deltas : change.deltas = List.replicate tree.nodes.length 0
  boost : change.boost = tree.boost
  justifiedEpoch : change.justifiedEpoch = tree.justifiedEpoch
  finalizedEpoch : change.finalizedEpoch = tree.finalizedEpoch

def BoostFits (tree : BlockTree) : Prop :=
  ∀ node ∈ tree.nodes, Lendable tree.boost node.root

/-- A parent whose children all lead nowhere holds no child that a later one outranks. -/
def Steady (tree : BlockTree) : Prop :=
  ∀ {p : Nat} {node : Node}, tree.nodes[p]? = some node →
    (∀ e, tree.ChildOf p e → ¬tree.Carries e) → ¬tree.Displaced p node.bestChild

namespace WellFormed

theorem boostFits_rescored (wf : tree.WellFormed) (passed : (tree.weighed change).result = .ok ()) :
    (tree.rescored change).BoostFits := by
  intro node member
  obtain ⟨i, at_i⟩ := List.mem_iff_getElem?.mp member
  obtain ⟨between, at_i', alike⟩ := getElem?_of_map_eq (rescored_unlinked wf change) at_i
  obtain ⟨old, at_old, alike'⟩ := getElem?_of_map_eq (reweighed_weightless tree change) at_i'
  have named : old.root = node.root :=
    (congrArg (·.root) alike').trans (congrArg (·.root) alike)
  exact named ▸ Tally.lendable_of_weighAll passed at_old (List.getElem?_eq_some_iff.mp at_old).1

/-- Scores that the tree has already change nothing but its best links. -/
theorem applyScores_repeated (wf : tree.WellFormed) (fits : tree.BoostFits)
    (repeats : change.Repeats tree) :
    (tree.applyScores change).result = .ok () ∧
      (tree.applyScores change).state = tree.rescored change ∧
        SameButLinks tree (tree.rescored change) := by
  have idle : tree.weighed change = .done ⟨tree.nodes, change.deltas⟩ () := by
    rw [weighed, repeats.boost]
    exact Tally.weighAll_idle wf.first repeats.deltas fits (Nat.le_refl _)
  have same : tree.reweighed change = tree := by
    rw [BlockTree.reweighed, idle, repeats.justifiedEpoch, repeats.finalizedEpoch]
    rfl
  have count : change.deltas.length = tree.nodes.length := by
    rw [repeats.deltas, List.length_replicate]
  have chosen := (wf.chooseAll_reweighed change).2.1
  rw [same] at chosen
  have alike : SameButLinks tree (tree.rescored change) := by
    obtain ⟨nodes, state, links⟩ := chosen
    refine ⟨nodes, ?_, links⟩
    rw [BlockTree.rescored, same, state, repeats.boost]
  rcases wf.bounded.applyScores_cases change with
    ⟨miscounted, -⟩ | ⟨-, cause, failed, -⟩ | ⟨-, -, ok, state⟩
  · contradiction
  · rw [idle] at failed
    contradiction
  · exact ⟨ok, state, alike⟩

/-- A pass leaves each parent whose children all lead nowhere with no child or the greatest one. -/
theorem steady_rescored (wf : tree.WellFormed) (change : ScoreChange) :
    (tree.rescored change).Steady := by
  intro p node at_p none_carries
  obtain ⟨_, at_old⟩ := exists_of_rescored wf at_p
  obtain ⟨node', at_p', settled⟩ := wf.settled_rescored change at_old fun {c} childOf => by
    obtain ⟨child, at_c, -⟩ := exists_of_parents childOf
    refine iff_of_false (fun leads => none_carries c childOf ?_) (none_carries c childOf)
    rw [leadsAt, at_c, Option.any_some] at leads
    exact (wf.rescored change).carries_of_leads at_c leads
  rw [at_p] at at_p'
  cases at_p'
  generalize node.bestChild = best, node.bestDescendant = descendant at settled
  cases settled with
  | favourite childOf carries => exact absurd carries (none_carries _ childOf)
  | leaf => exact not_displaced_none
  | stranded _ _ _ greatest =>
    rintro ⟨c, e, ⟨⟩, -, childOf, higher⟩
    exact not_lt_of_ge (greatest e childOf) higher

end WellFormed

theorem SameButLinks.rankAt_congr (same : SameButLinks tree tree') (i : Nat) :
    tree'.rankAt i = tree.rankAt i := by
  cases at_i : tree.nodes[i]? with
  | none =>
    have past : tree'.nodes[i]? = none := by
      rw [List.getElem?_eq_none_iff] at at_i ⊢
      rwa [same.length_eq]
    rw [rankAt, rankAt, at_i, past]
  | some node => rw [same.rankAt_eq at_i, BlockTree.rankAt_eq at_i]

theorem SameButLinks.childOf_iff {c : Nat} (same : SameButLinks tree tree') :
    tree'.ChildOf p c ↔ tree.ChildOf p c := by
  rw [ChildOf, ChildOf, same.parents_eq]

/-- Confirming blocks sets no status to invalid, and no invalid one to another. -/
theorem confirm_unconfirmed (tree : BlockTree) (root : Root) :
    (tree.confirm root).state.nodes.map Node.unconfirmed = tree.nodes.map Node.unconfirmed := by
  have blind (node : Node) (syncing : node.status = .syncing) :
      Node.unconfirmed { node with status := .valid } = node.unconfirmed := by
    simp only [Node.unconfirmed, syncing]
    rfl
  obtain ⟨nodes, state, same⟩ := confirm_map blind tree root
  rw [state, same]

theorem viableAt_unconfirmed (tree : BlockTree) (i : Nat) :
    tree.viableAt i = (tree.nodes.map Node.unconfirmed)[i]?.any tree.isViable := by
  have viable (node : Node) : tree.isViable node.unconfirmed = tree.isViable node := by
    rw [isViable, isViable, Node.unconfirmed]
    cases node.status <;> rfl
  rw [viableAt, List.getElem?_map, Option.any_map]
  exact congrArg (tree.nodes[i]?.any ·) (funext viable).symm

theorem rankAt_unconfirmed (tree : BlockTree) (i : Nat) :
    tree.rankAt i = ((tree.nodes.map Node.unconfirmed)[i]?.map Node.rank).getD (toLex (0, 0)) := by
  rw [rankAt, List.getElem?_map, Option.map_map]
  rfl

namespace Steady

/-- In a steady tree another pass strands no node. -/
theorem sound_repeated (steady : tree.Steady) (wf : tree.WellFormed)
    (same : SameButLinks tree (tree.rescored change)) (i : Nat) :
    (tree.rescored change).Sound i := by
  intro carries
  obtain ⟨_, below, -⟩ := same.carries_iff.mp carries
  refine (wf.sound_below_iff change i).mpr ?_ i (.refl below.left_lt_length) carries
  rintro s node - at_s ⟨-, none_carries, b, e, was_best, after, childOf, higher⟩
  refine steady at_s ?_ ⟨b, e, was_best, after, same.childOf_iff.mp childOf, ?_⟩
  · intro c childOf carries
    exact none_carries c (same.childOf_iff.mpr childOf) (same.carries_iff.mpr carries)
  · rwa [same.rankAt_congr, same.rankAt_congr] at higher

theorem congr (steady : tree.Steady) (links : parents tree'.nodes = parents tree.nodes)
    (viable : ∀ i, tree'.viableAt i = tree.viableAt i) (rank : ∀ i, tree'.rankAt i = tree.rankAt i)
    (held : ∀ {p : Nat} {node' : Node}, tree'.nodes[p]? = some node' →
      ∃ node, tree.nodes[p]? = some node ∧ node.bestChild = node'.bestChild) : tree'.Steady := by
  intro p node' at_p
  obtain ⟨node, at_p', same⟩ := held at_p
  have kept := steady at_p'
  simpa only [Displaced, ChildOf, Carries, links, viable, rank, same] using kept

theorem dropFirst (steady : tree.Steady) (wf : tree.WellFormed) (count : Nat) :
    (tree.dropFirst count).Steady := by
  rintro p node' at_p none_carries ⟨b', e, was_best, after, childOf, higher⟩
  rw [getElem?_dropFirst] at at_p
  obtain ⟨node, old, rfl⟩ := Option.map_eq_some_iff.mp at_p
  obtain ⟨b, held, rfl⟩ := Option.map_eq_some_iff.mp was_best
  have later := (wf.lt_of_linksTo old (.inl held)).1
  have kept : b - count + count = b := by omega
  rw [rankAt_dropFirst, rankAt_dropFirst, kept] at higher
  refine steady old ?_ ⟨b, e + count, held, by omega, childOf_dropFirst.mp childOf, higher⟩
  intro c childOf carries
  have behind := wf.first childOf
  obtain ⟨c, rfl⟩ := Nat.exists_eq_add_of_le' (Nat.le_trans (Nat.le_add_left count p)
    (Nat.le_of_lt behind))
  exact none_carries c (childOf_dropFirst.mpr childOf) (wf.carries_dropFirst.mpr carries)

theorem prune (steady : tree.Steady) (wf : tree.WellFormed) (finalized : Root) :
    (tree.prune finalized).state.Steady := by
  rcases wf.prune_cases finalized with ⟨same, -⟩ | ⟨count, -, dropped, -⟩
  · rwa [same]
  · rw [dropped]
    exact steady.dropFirst wf count

/-- A block that is confirmed was not invalid before, so it is no more viable than it was. -/
theorem confirm (steady : tree.Steady) (root : Root) : (tree.confirm root).state.Steady := by
  have kept := confirm_unconfirmed tree root
  obtain ⟨nodes, state, -⟩ := confirm_sameButStatuses tree root
  have links := (confirm_sameButStatuses tree root).parents_eq
  rw [state] at kept links ⊢
  apply steady.congr links
  · intro i
    rw [viableAt_unconfirmed, viableAt_unconfirmed, kept]
    rfl
  · intro i
    rw [rankAt_unconfirmed, rankAt_unconfirmed, kept]
  · intro p node' at_p
    obtain ⟨node, at_p', alike⟩ := getElem?_of_map_eq kept at_p
    exact ⟨node, at_p', congrArg (·.bestChild) alike⟩

end Steady

end BlockTree

end LmdGhost
