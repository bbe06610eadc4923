import LmdGhost.Proofs.BlockTree.Ancestry
/-!
What every tree built by its own operations satisfies: the index and the nodes agree, a parent
stands before its child and is the block that the child names, and the best links of a node lead
through one of its children. None of it depends on weights or on verdicts.
-/

namespace LmdGhost

theorem getElem?_of_map_eq {f : α → β} {l l' : List α} {i : Nat} {a : α} (same : l.map f = l'.map f)
    (h : l[i]? = some a) : ∃ b, l'[i]? = some b ∧ f b = f a := by
  have mapped := congrArg (·[i]?) same
  simp only [List.getElem?_map, h, Option.map_some] at mapped
  obtain ⟨b, at_b, eq⟩ := Option.map_eq_some_iff.mp mapped.symm
  exact ⟨b, at_b, eq⟩

/-- Lists that are equal up to what `g` changes are equal for all that does not see the change. -/
theorem map_eq_of_map_eq {f : α → β} {g : α → α} {l l' : List α} (same : l.map g = l'.map g)
    (blind : ∀ a, f (g a) = f a) : l.map f = l'.map f := by
  simpa only [List.map_map, Function.comp_def, blind] using congrArg (List.map f) same

theorem map_set_of_eq {f : α → β} {l : List α} {i : Nat} {a b : α} (h : l[i]? = some a)
    (same : f b = f a) : (l.set i b).map f = l.map f := by
  have at_i : (l.map f)[i]? = some (f a) := by rw [List.getElem?_map, h, Option.map_some]
  rw [List.map_set, same]
  obtain ⟨bound, eq⟩ := List.getElem?_eq_some_iff.mp at_i
  rw [← eq, List.set_getElem_self bound]

/-- Best links that are both unset, or that lead through a child to a node below it. -/
inductive BestLinks (parents : List (Option Nat)) (i : Nat) : Option Nat → Option Nat → Prop where
  | unset : BestLinks parents i none none
  | set : parents[c]? = some (some i) → Below parents c d →
      BestLinks parents i (some c) (some d)

namespace BestLinks

variable {parents : List (Option Nat)} {i c d : Nat} {child descendant : Option Nat}

theorem below (first : ParentsFirst parents) (links : BestLinks parents i child (some d)) :
    Below parents i d := by
  cases links with
  | set link below => exact (Below.of_parent first link).trans below

theorem childOf (links : BestLinks parents i (some c) descendant) :
    parents[c]? = some (some i) := by
  cases links with
  | set link _ => exact link

theorem child_gt (first : ParentsFirst parents) (links : BestLinks parents i (some c) descendant) :
    i < c :=
  first links.childOf

end BestLinks

def Node.place (node : Node) : Root × Option Root × Option Nat × Option Nat × Option Nat :=
  (node.root, node.parent, node.parentIndex, node.bestChild, node.bestDescendant)

theorem parents_eq_of_places {nodes nodes' : List Node}
    (same : nodes.map Node.place = nodes'.map Node.place) : parents nodes = parents nodes' := by
  have mapped := congrArg (List.map fun place : _ × _ × Option Nat × _ => place.2.2.1) same
  simpa only [List.map_map, Function.comp_def, Node.place, parents] using mapped

namespace BlockTree

structure WellFormed (tree : BlockTree) : Prop where
  indexed : ∀ {root : Root} {i : Nat}, tree.index[root]? = some i ↔
    ∃ node : Node, tree.nodes[i]? = some node ∧ node.root = root
  parent : ∀ {i p : Nat} {node : Node}, tree.nodes[i]? = some node → node.parentIndex = some p →
    p < i ∧ ∃ parent : Node, tree.nodes[p]? = some parent ∧ node.parent = some parent.root
  best : ∀ {i : Nat} {node : Node}, tree.nodes[i]? = some node →
    BestLinks (parents tree.nodes) i node.bestChild node.bestDescendant

theorem contains_eq (tree : BlockTree) (root : Root) :
    tree.contains root = tree.index[root]?.isSome :=
  Std.ExtTreeMap.contains_eq_isSome_getElem?

theorem contains_iff_index {tree : BlockTree} {root : Root} :
    tree.contains root = true ↔ ∃ i, tree.index[root]? = some i := by
  rw [contains_eq, Option.isSome_iff_exists]

namespace WellFormed

variable {tree tree' : BlockTree} {node node' : Node} {root : Root} {i j p : Nat}

theorem first (wf : tree.WellFormed) : ParentsFirst (parents tree.nodes) := by
  intro d p link
  rw [getElem?_parents] at link
  obtain ⟨node, at_d, link⟩ := Option.map_eq_some_iff.mp link
  exact (wf.parent at_d link).1

theorem index_root (wf : tree.WellFormed) (h : tree.nodes[i]? = some node) :
    tree.index[node.root]? = some i :=
  wf.indexed.mpr ⟨node, h, rfl⟩

theorem index_lt (wf : tree.WellFormed) (h : tree.index[root]? = some i) :
    i < tree.nodes.length := by
  obtain ⟨node, at_i, -⟩ := wf.indexed.mp h
  exact (List.getElem?_eq_some_iff.mp at_i).1

theorem root_unique (wf : tree.WellFormed) (hi : tree.nodes[i]? = some node)
    (hj : tree.nodes[j]? = some node') (same : node.root = node'.root) : i = j := by
  have left := wf.index_root hi
  rw [same, wf.index_root hj] at left
  exact (Option.some.inj left).symm

theorem node?_eq_some (wf : tree.WellFormed) :
    tree.node? root = some node ↔ ∃ i : Nat, tree.nodes[i]? = some node ∧ node.root = root := by
  simp only [node?, Option.bind_eq_some_iff]
  constructor
  · rintro ⟨i, index, at_i⟩
    obtain ⟨other, at_i', named⟩ := wf.indexed.mp index
    rw [at_i] at at_i'
    cases at_i'
    exact ⟨i, at_i, named⟩
  · rintro ⟨i, at_i, rfl⟩
    exact ⟨i, wf.index_root at_i, at_i⟩

theorem node?_root (wf : tree.WellFormed) (h : tree.nodes[i]? = some node) :
    tree.node? node.root = some node :=
  wf.node?_eq_some.mpr ⟨i, h, rfl⟩

theorem contains_iff (wf : tree.WellFormed) :
    tree.contains root = true ↔
      ∃ (i : Nat) (node : Node), tree.nodes[i]? = some node ∧ node.root = root := by
  rw [contains_iff_index]
  exact exists_congr fun _ => wf.indexed

theorem nodup_roots (wf : tree.WellFormed) : (tree.nodes.map (·.root)).Nodup := by
  rw [List.Nodup, List.pairwise_map, List.pairwise_iff_getElem]
  intro i j bound_i bound_j before same
  have at_i := List.getElem?_eq_getElem bound_i
  have at_j := List.getElem?_eq_getElem bound_j
  exact absurd (wf.root_unique at_i at_j same) (Nat.ne_of_lt before)

theorem size_index (wf : tree.WellFormed) : tree.index.size = tree.nodes.length := by
  have members (root : Root) : root ∈ tree.index.keys ↔ root ∈ tree.nodes.map (·.root) := by
    rw [Std.ExtTreeMap.mem_keys, ← Std.ExtTreeMap.contains_iff_mem]
    apply wf.contains_iff.trans
    rw [List.mem_map]
    constructor
    · rintro ⟨i, node, at_i, named⟩
      exact ⟨node, List.mem_of_getElem? at_i, named⟩
    · rintro ⟨node, member, named⟩
      obtain ⟨i, at_i⟩ := List.mem_iff_getElem?.mp member
      exact ⟨i, node, at_i, named⟩
  have same := (List.perm_ext_iff_of_nodup Std.ExtTreeMap.nodup_keys wf.nodup_roots).mpr members
  rw [← Std.ExtTreeMap.length_keys, same.length_eq, List.length_map]

theorem contains_root (wf : tree.WellFormed) (h : tree.nodes[i]? = some node) :
    tree.contains node.root = true :=
  wf.contains_iff.mpr ⟨i, node, h, rfl⟩

theorem descends_iff (wf : tree.WellFormed) {ancestor descendant : Root} :
    tree.descends ancestor descendant = true ↔
      ∃ a d, tree.index[ancestor]? = some a ∧ tree.index[descendant]? = some d ∧
        Below (parents tree.nodes) a d := by
  rw [descends, List.any_eq_true]
  constructor
  · rintro ⟨node, member, named⟩
    obtain rfl := LawfulBEq.eq_of_beq named
    cases index : tree.index[descendant]? with
    | none => simp [chain, index] at member
    | some d =>
      simp only [chain, index] at member
      obtain ⟨a, below, at_a⟩ := (mem_chainFrom wf.first (wf.index_lt index)).mp member
      exact ⟨a, d, wf.index_root at_a, rfl, below⟩
  · rintro ⟨a, d, index_a, index_d, below⟩
    obtain ⟨node, at_a, named⟩ := wf.indexed.mp index_a
    refine ⟨node, ?_, beq_iff_eq.mpr named⟩
    simp only [chain, index_d]
    exact (mem_chainFrom wf.first (wf.index_lt index_d)).mpr ⟨a, below, at_a⟩

theorem descends_roots (wf : tree.WellFormed) (hi : tree.nodes[i]? = some node)
    (hj : tree.nodes[j]? = some node') :
    tree.descends node.root node'.root = true ↔ Below (parents tree.nodes) i j := by
  rw [wf.descends_iff]
  constructor
  · rintro ⟨a, d, index_a, index_d, below⟩
    rw [wf.index_root hi] at index_a
    rw [wf.index_root hj] at index_d
    cases index_a
    cases index_d
    exact below
  · intro below
    exact ⟨i, j, wf.index_root hi, wf.index_root hj, below⟩

theorem descends_congr (wf : tree.WellFormed) (wf' : tree'.WellFormed)
    (index : tree'.index = tree.index) (links : parents tree'.nodes = parents tree.nodes)
    (ancestor descendant : Root) :
    tree'.descends ancestor descendant = tree.descends ancestor descendant := by
  rw [Bool.eq_iff_iff, wf.descends_iff, wf'.descends_iff, index, links]

theorem descends_refl (wf : tree.WellFormed) (known : tree.contains root = true) :
    tree.descends root root = true := by
  obtain ⟨i, node, at_i, rfl⟩ := wf.contains_iff.mp known
  refine (wf.descends_roots at_i at_i).mpr (.refl ?_)
  simpa using (List.getElem?_eq_some_iff.mp at_i).1

theorem descends_trans (wf : tree.WellFormed) {a b c : Root} (left : tree.descends a b = true)
    (right : tree.descends b c = true) : tree.descends a c = true := by
  obtain ⟨i, j, index_a, index_b, below⟩ := wf.descends_iff.mp left
  obtain ⟨j', k, index_b', index_c, below'⟩ := wf.descends_iff.mp right
  rw [index_b] at index_b'
  cases index_b'
  exact wf.descends_iff.mpr ⟨i, k, index_a, index_c, below.trans below'⟩

/-- The block of a chain at a slot is an ancestor, and those at earlier slots are its ancestors. -/
theorem descends_of_ancestor (wf : tree.WellFormed) {a b : Root} {slot slot' : Slot}
    (at_slot : tree.ancestor root slot = .ok (some a))
    (at_slot' : tree.ancestor root slot' = .ok (some b)) (order : slot ≤ slot') :
    tree.descends a b = true ∧ tree.descends b root = true := by
  have found : ∀ {slot a}, tree.ancestor root slot = .ok (some a) → ∃ d i node,
      tree.index[root]? = some d ∧ tree.nodes[i]? = some node ∧ node.root = a ∧
        node.slot ≤ slot ∧ Below (parents tree.nodes) i d ∧
        ∀ {b : Nat} {other : Node}, Below (parents tree.nodes) b d → tree.nodes[b]? = some other →
          other.slot ≤ slot → Below (parents tree.nodes) b i := by
    intro slot a at_slot
    rw [ancestor] at at_slot
    split at at_slot
    · cases index : tree.index[root]? with
      | none => simp [chain, index] at at_slot
      | some d =>
        simp only [chain, index, Except.ok.injEq] at at_slot
        obtain ⟨node, found, named⟩ := Option.map_eq_some_iff.mp at_slot
        obtain ⟨i, below, at_i, fits, nearest⟩ := find?_chainFrom wf.first (wf.index_lt index) found
        refine ⟨d, i, node, rfl, at_i, named, by simpa using fits, below, ?_⟩
        exact fun below' at_b early => nearest below' at_b (by simpa using early)
    · contradiction
  obtain ⟨d, i, node, index, at_i, rfl, early, below, -⟩ := found at_slot
  obtain ⟨d', j, node', index', at_j, rfl, -, below', nearest⟩ := found at_slot'
  rw [index] at index'
  cases index'
  refine ⟨(wf.descends_roots at_i at_j).mpr ?_, ?_⟩
  · exact nearest below at_i (UInt64.le_trans early order)
  · exact wf.descends_iff.mpr ⟨j, d, wf.index_root at_j, index, below'⟩

theorem contains_of_descends (wf : tree.WellFormed) {ancestor descendant : Root}
    (descends : tree.descends ancestor descendant = true) :
    tree.contains ancestor = true ∧ tree.contains descendant = true := by
  obtain ⟨a, d, index_a, index_d, -⟩ := wf.descends_iff.mp descends
  obtain ⟨node, at_a, rfl⟩ := wf.indexed.mp index_a
  obtain ⟨node', at_d, rfl⟩ := wf.indexed.mp index_d
  exact ⟨wf.contains_root at_a, wf.contains_root at_d⟩

theorem of_places (wf : tree.WellFormed)
    (nodes : tree'.nodes.map Node.place = tree.nodes.map Node.place)
    (index : tree'.index = tree.index) : tree'.WellFormed where
  indexed := by
    intro root i
    rw [index, wf.indexed]
    constructor
    · rintro ⟨node, at_i, rfl⟩
      obtain ⟨node', at_i', same⟩ := getElem?_of_map_eq nodes.symm at_i
      exact ⟨node', at_i', congrArg (·.1) same⟩
    · rintro ⟨node, at_i, rfl⟩
      obtain ⟨node', at_i', same⟩ := getElem?_of_map_eq nodes at_i
      exact ⟨node', at_i', congrArg (·.1) same⟩
  parent := by
    intro i p node at_i link
    obtain ⟨node', at_i', same⟩ := getElem?_of_map_eq nodes at_i
    simp only [Node.place, Prod.mk.injEq] at same
    obtain ⟨-, named, linked, -, -⟩ := same
    obtain ⟨before, parent, at_p, names⟩ := wf.parent at_i' (linked.trans link)
    obtain ⟨parent', at_p', same'⟩ := getElem?_of_map_eq nodes.symm at_p
    refine ⟨before, parent', at_p', ?_⟩
    rw [← named, names, show parent'.root = parent.root from congrArg (·.1) same']
  best := by
    intro i node at_i
    obtain ⟨node', at_i', same⟩ := getElem?_of_map_eq nodes at_i
    simp only [Node.place, Prod.mk.injEq] at same
    obtain ⟨-, -, -, child, descendant⟩ := same
    rw [parents_eq_of_places nodes, ← child, ← descendant]
    exact wf.best at_i'

end WellFormed

theorem empty_wellFormed (pruneThreshold : UInt64) (justifiedEpoch finalizedEpoch : Epoch) :
    (empty pruneThreshold justifiedEpoch finalizedEpoch).WellFormed where
  indexed := by simp [empty]
  parent := by simp [empty]
  best := by simp [empty]

theorem contains_empty (pruneThreshold : UInt64) (justifiedEpoch finalizedEpoch : Epoch)
    (root : Root) :
    (empty pruneThreshold justifiedEpoch finalizedEpoch).contains root = false := by
  simp [empty, contains_eq]

theorem node?_empty (pruneThreshold : UInt64) (justifiedEpoch finalizedEpoch : Epoch)
    (root : Root) : (empty pruneThreshold justifiedEpoch finalizedEpoch).node? root = none := by
  simp [empty, node?]

end BlockTree

end LmdGhost
