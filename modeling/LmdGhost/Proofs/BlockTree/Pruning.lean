import LmdGhost.BlockTree.Prune
import LmdGhost.Proofs.BlockTree.Bounds
import LmdGhost.Proofs.Outcome
/-!
Pruning moves the kept nodes down by as many positions as nodes are removed. It fails halfway only
if it severs a best link, one that leads from a kept node to a removed one. In a well-formed tree
best links lead to later nodes, so they are all kept. Ancestry among the kept nodes is what it was.
-/

namespace LmdGhost

theorem shiftDown?_eq_some {count position i : Nat} :
    shiftDown? count position = some i ↔ position = i + count := by
  rw [shiftDown?]
  split
  · simp only [Option.some.injEq]
    omega
  · simp only [reduceCtorEq, false_iff]
    omega

namespace RootIndex

variable {index : RootIndex} {root : Root}

theorem getElem?_forget (index : RootIndex) (roots : List Root) (root : Root) :
    (index.forget roots)[root]? = if root ∈ roots then none else index[root]? := by
  induction roots generalizing index with
  | nil => simp [forget]
  | cons head roots ih =>
    rw [forget, List.foldl_cons]
    apply (ih (index.erase head)).trans
    simp only [Std.ExtTreeMap.getElem?_erase, Std.LawfulEqCmp.compare_eq_iff_eq, List.mem_cons]
    by_cases same : head = root
    · simp [same]
    · simp [same, Ne.symm same]

theorem getElem?_shiftDown (index : RootIndex) (count : Nat) (root : Root) :
    (index.shiftDown count)[root]? = index[root]?.map (· - count) := by
  rw [shiftDown, Std.ExtTreeMap.getElem?_map]

theorem mem_entries {i : Nat} : (root, i) ∈ index.entries ↔ index[root]? = some i := by
  rw [entries, Std.ExtTreeMap.mem_toList_iff_getElem?_eq_some]

end RootIndex

namespace Node

/-- A node after `count` nodes in front are gone, where its best links stay. -/
def shifted (count : Nat) (node : Node) : Node :=
  { node with
    parentIndex := node.parentIndex.bind (shiftDown? count)
    bestChild := node.bestChild.map (· - count)
    bestDescendant := node.bestDescendant.map (· - count) }

theorem shiftLink_cases (count : Nat) (link : Option Nat) :
    ((∀ {i}, link = some i → count ≤ i) ∧ shiftLink count link = .ok (link.map (· - count))) ∨
      ∃ i, link = some i ∧ i < count ∧ shiftLink count link = .error (.indexOutOfBounds i) := by
  cases link with
  | none => exact .inl ⟨by simp, rfl⟩
  | some i =>
    by_cases stays : count ≤ i
    · exact .inl ⟨by simpa using stays, by simp [shiftLink, shiftDown?, stays]⟩
    · exact .inr ⟨i, rfl, Nat.lt_of_not_le stays, by simp [shiftLink, shiftDown?, stays]⟩

theorem shiftLinks_cases (count : Nat) (node : Node) :
    ((∀ {link}, node.LinksTo link → count ≤ link) ∧
      node.shiftLinks count = .done (node.shifted count) ()) ∨
    ∃ link, node.LinksTo link ∧ link < count ∧
      (node.shiftLinks count).result = .error (.indexOutOfBounds link) := by
  rw [shiftLinks]
  dsimp only
  rcases shiftLink_cases count node.bestChild with
    ⟨child, moved⟩ | ⟨link, links, severed, failed⟩
  · rw [moved]
    dsimp only
    rcases shiftLink_cases count node.bestDescendant with
      ⟨descendant, moved⟩ | ⟨link, links, severed, failed⟩
    · rw [moved]
      exact .inl ⟨fun links => links.elim child descendant, rfl⟩
    · exact .inr ⟨link, .inr links, severed, by rw [failed]; rfl⟩
  · exact .inr ⟨link, .inl links, severed, by rw [failed]; rfl⟩

theorem shiftAllLinks_cases (count : Nat) (nodes : List Node) :
    ((∀ node ∈ nodes, ∀ {link}, node.LinksTo link → count ≤ link) ∧
      shiftAllLinks count nodes = .done (nodes.map (shifted count)) ()) ∨
    ∃ node ∈ nodes, ∃ link, node.LinksTo link ∧ link < count ∧
      (shiftAllLinks count nodes).result = .error (.indexOutOfBounds link) := by
  induction nodes with
  | nil => exact .inl ⟨by simp, rfl⟩
  | cons node nodes ih =>
    rw [shiftAllLinks]
    rcases shiftLinks_cases count node with ⟨stay, moved⟩ | ⟨link, links, severed, failed⟩
    · simp only [moved, Outcome.result_done, Outcome.state_done]
      rcases ih with ⟨others, moved⟩ | ⟨other, member, link, links, severed, failed⟩
      · rw [moved]
        exact .inl ⟨List.forall_mem_cons.mpr ⟨stay, others⟩, rfl⟩
      · refine .inr ⟨other, List.mem_cons_of_mem _ member, link, links, severed, ?_⟩
        rw [Outcome.result_lift, failed, Outcome.mapError_id]
    · refine .inr ⟨node, List.mem_cons_self, link, links, severed, ?_⟩
      simp only [failed, Outcome.result_fail]

end Node

namespace BlockTree

variable {tree : BlockTree} {count : Nat}

def dropFirst (tree : BlockTree) (count : Nat) : BlockTree :=
  { tree with
    nodes := (tree.nodes.drop count).map (Node.shifted count)
    index := (tree.index.forget ((tree.nodes.take count).map (·.root))).shiftDown count }

/-- A kept node has a best link to one of the first `count` nodes. -/
def Severs (tree : BlockTree) (count : Nat) : Prop :=
  ∃ node ∈ tree.nodes.drop count, ∃ link, node.LinksTo link ∧ link < count

theorem getElem?_dropFirst (tree : BlockTree) (count i : Nat) :
    (tree.dropFirst count).nodes[i]? = (tree.nodes[i + count]?).map (Node.shifted count) := by
  rw [dropFirst, List.getElem?_map, List.getElem?_drop, Nat.add_comm]

theorem parents_dropFirst {d p : Nat} :
    (parents (tree.dropFirst count).nodes)[d]? = some (some p) ↔
      (parents tree.nodes)[d + count]? = some (some (p + count)) := by
  rw [getElem?_parents, getElem?_parents, getElem?_dropFirst]
  cases tree.nodes[d + count]? with
  | none => simp
  | some node =>
    simp only [Option.map_some, Option.some.injEq, Node.shifted, Option.bind_eq_some_iff]
    constructor
    · rintro ⟨q, link, shifted⟩
      rw [link, shiftDown?_eq_some.mp shifted]
    · intro link
      exact ⟨_, link, shiftDown?_eq_some.mpr rfl⟩

theorem below_dropFirst (first : ParentsFirst (parents tree.nodes)) {a d : Nat} :
    Below (parents (tree.dropFirst count).nodes) a d ↔
      Below (parents tree.nodes) (a + count) (d + count) := by
  constructor
  · intro below
    induction below with
    | refl bound =>
      refine .refl ?_
      simp only [length_parents, dropFirst, List.length_map, List.length_drop] at bound ⊢
      omega
    | up link _ ih => exact .up (parents_dropFirst.mp link) ih
  · intro below
    generalize target : d + count = e at below
    induction below generalizing d with
    | refl bound =>
      obtain rfl := Nat.add_right_cancel target
      refine .refl ?_
      simp only [length_parents, dropFirst, List.length_map, List.length_drop] at bound ⊢
      omega
    | @up e q link below ih =>
      subst target
      have bound := Nat.le_trans (Nat.le_add_left _ _) (below.le first)
      obtain ⟨p, rfl⟩ := Nat.exists_eq_add_of_le' bound
      exact .up (parents_dropFirst.mpr link) (ih rfl)

namespace Bounded

theorem mem_take_roots (bounded : tree.Bounded) {root : Root} {i : Nat} (lower : i < count)
    (index : tree.index[root]? = some i) : root ∈ (tree.nodes.take count).map (·.root) := by
  obtain ⟨node, at_i, named⟩ := bounded.indexed index
  refine List.mem_map.mpr ⟨node, List.mem_iff_getElem?.mpr ⟨i, ?_⟩, named⟩
  rw [List.getElem?_take, if_pos lower, at_i]

theorem of_getElem?_forget (bounded : tree.Bounded) {root : Root} {i : Nat}
    (index : (tree.index.forget ((tree.nodes.take count).map (·.root)))[root]? = some i) :
    count ≤ i ∧ tree.index[root]? = some i := by
  rw [RootIndex.getElem?_forget] at index
  split at index
  · contradiction
  · rename_i stays
    exact ⟨Nat.le_of_not_lt fun lower => stays (bounded.mem_take_roots lower index), index⟩

theorem dropFirst (bounded : tree.Bounded) (whole : ¬ tree.Severs count) :
    (tree.dropFirst count).Bounded where
  indexed := by
    intro root i index
    rw [BlockTree.dropFirst, RootIndex.getElem?_shiftDown] at index
    obtain ⟨j, known, rfl⟩ := Option.map_eq_some_iff.mp index
    obtain ⟨stays, known⟩ := bounded.of_getElem?_forget known
    obtain ⟨node, at_j, named⟩ := bounded.indexed known
    refine ⟨node.shifted count, ?_, named⟩
    rw [getElem?_dropFirst, Nat.sub_add_cancel stays, at_j, Option.map_some]
  first := by
    intro d p link
    have before := bounded.first (parents_dropFirst.mp link)
    omega
  links := by
    intro node' link' member links
    obtain ⟨node, kept, rfl⟩ := List.mem_map.mp member
    obtain ⟨link, old, rfl⟩ : ∃ link, node.LinksTo link ∧ link - count = link' := by
      rcases links with child | descendant
      · obtain ⟨link, set, eq⟩ := Option.map_eq_some_iff.mp child
        exact ⟨link, .inl set, eq⟩
      · obtain ⟨link, set, eq⟩ := Option.map_eq_some_iff.mp descendant
        exact ⟨link, .inr set, eq⟩
    have stays : count ≤ link := Nat.le_of_not_lt fun severed =>
      whole ⟨node, kept, link, old, severed⟩
    have bound := bounded.links (List.mem_of_mem_drop kept) old
    simp only [BlockTree.dropFirst, List.length_map, List.length_drop]
    omega

theorem prune_of_enough (bounded : tree.Bounded) {finalized : Root}
    (known : tree.index[finalized]? = some count) (enough : tree.pruneThreshold.toNat ≤ count) :
    (¬ tree.Severs count ∧ (tree.prune finalized).state = tree.dropFirst count ∧
      (tree.prune finalized).result = .ok (tree.nodes.take count)) ∨
    tree.Severs count ∧ ∃ link,
      (tree.prune finalized).result = .error (.indexOutOfBounds link) := by
  have unharmed : (tree.index.forget ((tree.nodes.take count).map (·.root))).entries.find?
      (·.2 < count) = none := by
    rw [List.find?_eq_none]
    rintro ⟨root, i⟩ member
    rw [RootIndex.mem_entries] at member
    simpa using (bounded.of_getElem?_forget member).1
  rw [prune, known]
  simp only [Nat.not_lt.mpr enough, if_false, unharmed]
  rcases Node.shiftAllLinks_cases count (tree.nodes.drop count) with
    ⟨stay, moved⟩ | ⟨node, kept, link, links, severed, failed⟩
  · left
    rw [moved]
    refine ⟨?_, rfl, rfl⟩
    rintro ⟨node, kept, link, links, severed⟩
    exact Nat.not_le_of_lt severed (stay node kept links)
  · refine .inr ⟨⟨node, kept, link, links, severed⟩, link, ?_⟩
    apply Outcome.result_bind_of_error
    rw [Outcome.result_lift, failed, Outcome.mapError_id]

end Bounded

namespace WellFormed

/-- Best links of a well-formed tree lead on, so pruning leaves them whole. -/
theorem not_severs (wf : tree.WellFormed) (count : Nat) : ¬ tree.Severs count := by
  rintro ⟨node, kept, link, links, severed⟩
  obtain ⟨i, at_i⟩ := List.mem_iff_getElem?.mp kept
  rw [List.getElem?_drop] at at_i
  have later := (wf.lt_of_linksTo at_i links).1
  omega

theorem mem_take_roots (wf : tree.WellFormed) {root : Root} :
    root ∈ (tree.nodes.take count).map (·.root) ↔ ∃ i, i < count ∧ tree.index[root]? = some i := by
  rw [List.mem_map]
  constructor
  · rintro ⟨node, member, rfl⟩
    obtain ⟨i, at_i⟩ := List.mem_iff_getElem?.mp member
    rw [List.getElem?_take] at at_i
    split at at_i
    · exact ⟨i, ‹_›, wf.index_root at_i⟩
    · contradiction
  · rintro ⟨i, bound, index⟩
    exact List.mem_map.mp (wf.bounded.mem_take_roots bound index)

theorem index_dropFirst (wf : tree.WellFormed) {root : Root} {i : Nat} :
    (tree.dropFirst count).index[root]? = some i ↔ tree.index[root]? = some (i + count) := by
  rw [dropFirst, RootIndex.getElem?_shiftDown, RootIndex.getElem?_forget]
  split
  · rename_i gone
    obtain ⟨j, bound, index⟩ := wf.mem_take_roots.mp gone
    simp only [Option.map_none, reduceCtorEq, index, Option.some.injEq, false_iff]
    omega
  · rename_i stays
    rw [wf.mem_take_roots, not_exists] at stays
    rw [Option.map_eq_some_iff]
    constructor
    · rintro ⟨j, index, rfl⟩
      have bound : count ≤ j := Nat.le_of_not_lt fun lower => stays j ⟨lower, index⟩
      rw [index, Nat.sub_add_cancel bound]
    · intro index
      exact ⟨_, index, Nat.add_sub_cancel _ _⟩

theorem dropFirst (wf : tree.WellFormed) (count : Nat) : (tree.dropFirst count).WellFormed where
  indexed := by
    intro root i
    rw [wf.index_dropFirst, wf.indexed, getElem?_dropFirst]
    constructor
    · rintro ⟨node, at_i, named⟩
      exact ⟨node.shifted count, by rw [at_i, Option.map_some], named⟩
    · rintro ⟨node', at_i, rfl⟩
      obtain ⟨node, old, rfl⟩ := Option.map_eq_some_iff.mp at_i
      exact ⟨node, old, rfl⟩
  parent := by
    intro i p node' at_i link
    rw [getElem?_dropFirst] at at_i
    obtain ⟨node, old, rfl⟩ := Option.map_eq_some_iff.mp at_i
    obtain ⟨q, link, shifted⟩ := Option.bind_eq_some_iff.mp link
    obtain rfl := shiftDown?_eq_some.mp shifted
    obtain ⟨before, parent, at_p, names⟩ := wf.parent old link
    refine ⟨by omega, parent.shifted count, ?_, names⟩
    rw [getElem?_dropFirst, at_p, Option.map_some]
  best := by
    intro i node' at_i
    rw [getElem?_dropFirst] at at_i
    obtain ⟨node, old, rfl⟩ := Option.map_eq_some_iff.mp at_i
    have links := wf.best old
    simp only [Node.shifted]
    generalize node.bestChild = child, node.bestDescendant = descendant at links
    cases links with
    | unset => exact .unset
    | @set c d link below =>
      have later := wf.first link
      have further := below.le wf.first
      refine .set (parents_dropFirst.mpr ?_) ((below_dropFirst wf.first).mpr ?_)
      · rwa [Nat.sub_add_cancel (by omega)]
      · rwa [Nat.sub_add_cancel (by omega), Nat.sub_add_cancel (by omega)]

theorem descends_dropFirst (wf : tree.WellFormed) {i : Nat} {node : Node}
    (at_i : tree.nodes[i + count]? = some node) (descendant : Root) :
    (tree.dropFirst count).descends node.root descendant = tree.descends node.root descendant := by
  have index : tree.index[node.root]? = some (i + count) := wf.index_root at_i
  rw [Bool.eq_iff_iff, (wf.dropFirst count).descends_iff, wf.descends_iff]
  constructor
  · rintro ⟨a, d, index_a, index_d, below⟩
    exact ⟨a + count, d + count, wf.index_dropFirst.mp index_a, wf.index_dropFirst.mp index_d,
      (below_dropFirst wf.first).mp below⟩
  · rintro ⟨a, d, index_a, index_d, below⟩
    rw [index] at index_a
    cases index_a
    have later := below.le wf.first
    obtain ⟨d, rfl⟩ := Nat.exists_eq_add_of_le' (Nat.le_trans (Nat.le_add_left count i) later)
    exact ⟨i, d, wf.index_dropFirst.mpr index, wf.index_dropFirst.mpr index_d,
      (below_dropFirst wf.first).mpr below⟩

theorem contains_of_dropFirst (wf : tree.WellFormed) {root : Root}
    (known : (tree.dropFirst count).contains root = true) : tree.contains root = true := by
  obtain ⟨i, index⟩ := contains_iff_index.mp known
  exact contains_iff_index.mpr ⟨_, wf.index_dropFirst.mp index⟩

theorem not_contains_dropFirst (wf : tree.WellFormed) {root : Root} {i : Nat} (lower : i < count)
    (index : tree.index[root]? = some i) : (tree.dropFirst count).contains root = false := by
  rw [← Bool.not_eq_true, contains_iff_index]
  rintro ⟨j, index'⟩
  rw [wf.index_dropFirst, index, Option.some.injEq] at index'
  omega

/-- A known block is kept or is one of those in front. -/
theorem contains_dropFirst (wf : tree.WellFormed) {root : Root}
    (known : tree.contains root = true) :
    (tree.dropFirst count).contains root = true ∨ root ∈ (tree.nodes.take count).map (·.root) := by
  obtain ⟨i, node, at_i, rfl⟩ := wf.contains_iff.mp known
  have index := wf.index_root at_i
  by_cases lower : i < count
  · exact .inr (wf.mem_take_roots.mpr ⟨i, lower, index⟩)
  · obtain ⟨i, rfl⟩ := Nat.exists_eq_add_of_le' (Nat.le_of_not_lt lower)
    exact .inl (contains_iff_index.mpr ⟨i, wf.index_dropFirst.mpr index⟩)

theorem prune_of_enough (wf : tree.WellFormed) {finalized : Root}
    (known : tree.index[finalized]? = some count) (enough : tree.pruneThreshold.toNat ≤ count) :
    (tree.prune finalized).state = tree.dropFirst count ∧
      (tree.prune finalized).result = .ok (tree.nodes.take count) := by
  rcases wf.bounded.prune_of_enough known enough with ⟨-, pruned⟩ | ⟨severs, -⟩
  · exact pruned
  · exact absurd severs (wf.not_severs count)

/-- Pruning an unknown block fails; below the threshold it removes nothing. -/
theorem prune_cases (wf : tree.WellFormed) (finalized : Root) :
    ((tree.prune finalized).state = tree ∧
      ((tree.prune finalized).result = .error (.unknownFinalized finalized) ∨
        (tree.prune finalized).result = .ok [])) ∨
    ∃ count, tree.index[finalized]? = some count ∧
      (tree.prune finalized).state = tree.dropFirst count ∧
        (tree.prune finalized).result = .ok (tree.nodes.take count) := by
  cases known : tree.index[finalized]? with
  | none =>
    left
    rw [prune, known]
    exact ⟨rfl, .inl rfl⟩
  | some count =>
    by_cases few : count < tree.pruneThreshold.toNat
    · left
      rw [prune, known]
      simp only [few, if_true]
      exact ⟨rfl, .inr rfl⟩
    · exact .inr ⟨count, rfl, wf.prune_of_enough known (Nat.le_of_not_lt few)⟩

theorem prune (wf : tree.WellFormed) (finalized : Root) :
    (tree.prune finalized).state.WellFormed := by
  rcases wf.prune_cases finalized with ⟨same, -⟩ | ⟨count, -, dropped, -⟩
  · rwa [same]
  · rw [dropped]
    exact wf.dropFirst count

theorem boost_prune (wf : tree.WellFormed) (finalized : Root) :
    (tree.prune finalized).state.boost = tree.boost := by
  rcases wf.prune_cases finalized with ⟨same, -⟩ | ⟨count, -, dropped, -⟩
  · rw [same]
  · rw [dropped]
    rfl

end WellFormed

end BlockTree

end LmdGhost
