import LmdGhost.Proofs.BlockTree.Bounds
/-!
The entry of a block. The new node stands last, below its parent alone, and nothing is below it; the
nodes that were there keep their positions and their ancestry.
-/

namespace LmdGhost

namespace Below

variable {parents more : List (Option Nat)} {a d : Nat}

theorem append (more : List (Option Nat)) (below : Below parents a d) :
    Below (parents ++ more) a d := by
  induction below with
  | refl bound => exact .refl (by rw [List.length_append]; omega)
  | up link _ ih =>
    have bound := (List.getElem?_eq_some_iff.mp link).1
    exact .up (by rw [List.getElem?_append_left bound, link]) ih

theorem of_append (first : ParentsFirst parents) (below : Below (parents ++ more) a d)
    (bound : d < parents.length) : Below parents a d := by
  induction below with
  | refl => exact .refl bound
  | up link _ ih =>
    rw [List.getElem?_append_left bound] at link
    exact .up link (ih (Nat.lt_trans (first link) bound))

end Below

theorem BestLinks.append {parents : List (Option Nat)} {i : Nat} {child descendant : Option Nat}
    (more : List (Option Nat)) (links : BestLinks parents i child descendant) :
    BestLinks (parents ++ more) i child descendant := by
  cases links with
  | unset => exact .unset
  | set link below =>
    have bound := (List.getElem?_eq_some_iff.mp link).1
    exact .set (by rw [List.getElem?_append_left bound, link]) (below.append more)

theorem getElem?_concat {l : List α} {last a : α} {i : Nat} (h : (l ++ [last])[i]? = some a) :
    l[i]? = some a ∨ i = l.length ∧ a = last := by
  rw [List.getElem?_append] at h
  split at h
  · exact .inl h
  · rw [List.getElem?_singleton] at h
    split at h
    · exact .inr ⟨by omega, (Option.some.inj h).symm⟩
    · contradiction

namespace BlockTree

variable {tree : BlockTree} {block : Block}

def entry (tree : BlockTree) (block : Block) : Node :=
  { block with parentIndex := block.parent.bind (tree.index[·]?) }

theorem insert_of_contains (known : tree.contains block.root = true) :
    tree.insert block = tree := by
  simp only [insert, known, if_true]

theorem insert_of_new (new : tree.contains block.root = false) :
    tree.insert block = { tree with
      nodes := tree.nodes ++ [tree.entry block]
      index := tree.index.insert block.root tree.nodes.length } := by
  simp only [insert, new, Bool.false_eq_true, if_false, entry]

theorem nodes_insert_of_new (new : tree.contains block.root = false) :
    (tree.insert block).nodes = tree.nodes ++ [tree.entry block] := by
  rw [insert_of_new new]

theorem parents_insert_of_new (new : tree.contains block.root = false) :
    parents (tree.insert block).nodes = parents tree.nodes ++ [(tree.entry block).parentIndex] := by
  rw [nodes_insert_of_new new]
  simp [parents]

theorem index_insert_of_new (new : tree.contains block.root = false) (root : Root) :
    (tree.insert block).index[root]? =
      if block.root = root then some tree.nodes.length else tree.index[root]? := by
  simp only [insert_of_new new, Std.ExtTreeMap.getElem?_insert,
    Std.LawfulEqCmp.compare_eq_iff_eq]

theorem Bounded.insert (bounded : tree.Bounded) (block : Block) : (tree.insert block).Bounded := by
  cases known : tree.contains block.root with
  | true => rwa [insert_of_contains known]
  | false =>
    have nodes := nodes_insert_of_new known
    refine ⟨?_, ?_, ?_⟩
    · intro root i index
      rw [index_insert_of_new known] at index
      rw [nodes]
      split at index
      · rename_i named
        cases index
        exact ⟨_, List.getElem?_concat_length, named⟩
      · obtain ⟨node, at_i, named⟩ := bounded.indexed index
        exact ⟨node, by rw [List.getElem?_append_left (bounded.index_lt index), at_i], named⟩
    · intro d p link
      rw [parents_insert_of_new known] at link
      rcases getElem?_concat link with old | ⟨rfl, last⟩
      · exact bounded.first old
      · obtain ⟨root, -, index⟩ := Option.bind_eq_some_iff.mp last.symm
        rw [length_parents]
        exact bounded.index_lt index
    · intro node link member links
      rw [nodes, List.length_append]
      rw [nodes, List.mem_append, List.mem_singleton] at member
      rcases member with old | rfl
      · exact Nat.lt_of_lt_of_le (bounded.links old links) (Nat.le_add_right _ _)
      · rcases links with child | descendant <;> contradiction

theorem WellFormed.not_contains (wf : tree.WellFormed) {root : Root}
    (new : tree.contains root = false) {i : Nat} {node : Node} (h : tree.nodes[i]? = some node) :
    node.root ≠ root := by
  rintro rfl
  rw [wf.contains_root h] at new
  contradiction

theorem WellFormed.insert (wf : tree.WellFormed) (block : Block) :
    (tree.insert block).WellFormed := by
  cases known : tree.contains block.root with
  | true => rwa [insert_of_contains known]
  | false =>
    have nodes := nodes_insert_of_new known
    have at_new : (tree.insert block).nodes[tree.nodes.length]? = some (tree.entry block) := by
      rw [nodes, List.getElem?_concat_length]
    have at_old : ∀ {i : Nat} {node : Node}, (tree.insert block).nodes[i]? = some node →
        tree.nodes[i]? = some node ∨ i = tree.nodes.length ∧ node = tree.entry block := by
      intro i node at_i
      rw [nodes] at at_i
      exact getElem?_concat at_i
    have kept : ∀ {i : Nat} {node : Node}, tree.nodes[i]? = some node →
        (tree.insert block).nodes[i]? = some node := by
      intro i node at_i
      rw [nodes, List.getElem?_append_left (List.getElem?_eq_some_iff.mp at_i).1, at_i]
    refine ⟨?_, ?_, ?_⟩
    · intro root i
      rw [index_insert_of_new known]
      split
      · rename_i named
        subst named
        constructor
        · rintro ⟨⟩
          exact ⟨_, at_new, rfl⟩
        · rintro ⟨node, at_i, named⟩
          rcases at_old at_i with at_i | ⟨rfl, -⟩
          · exact absurd named (wf.not_contains known at_i)
          · rfl
      · rename_i other
        rw [wf.indexed]
        constructor
        · rintro ⟨node, at_i, named⟩
          exact ⟨node, kept at_i, named⟩
        · rintro ⟨node, at_i, rfl⟩
          rcases at_old at_i with at_i | ⟨-, rfl⟩
          · exact ⟨node, at_i, rfl⟩
          · exact absurd rfl other
    · intro i p node at_i link
      rcases at_old at_i with at_i | ⟨rfl, rfl⟩
      · obtain ⟨before, parent, at_p, names⟩ := wf.parent at_i link
        exact ⟨before, parent, kept at_p, names⟩
      · obtain ⟨root, names, index⟩ := Option.bind_eq_some_iff.mp link
        obtain ⟨parent, at_p, named⟩ := wf.indexed.mp index
        exact ⟨wf.index_lt index, parent, kept at_p, by rw [named]; exact names⟩
    · intro i node at_i
      rw [parents_insert_of_new known]
      rcases at_old at_i with at_i | ⟨-, rfl⟩
      · exact (wf.best at_i).append _
      · exact .unset

theorem WellFormed.descends_insert (wf : tree.WellFormed) {ancestor descendant : Root}
    (other : descendant ≠ block.root) :
    (tree.insert block).descends ancestor descendant = tree.descends ancestor descendant := by
  cases known : tree.contains block.root with
  | true => rw [insert_of_contains known]
  | false =>
    have index_d : (tree.insert block).index[descendant]? = tree.index[descendant]? := by
      rw [index_insert_of_new known, if_neg other.symm]
    rw [Bool.eq_iff_iff, (wf.insert block).descends_iff, wf.descends_iff, index_d,
      parents_insert_of_new known]
    constructor
    · rintro ⟨a, d, index_a, index_d, below⟩
      have bound := wf.index_lt index_d
      rw [← length_parents] at bound
      have below := below.of_append wf.first bound
      have lower := below.le wf.first
      rw [index_insert_of_new known] at index_a
      split at index_a
      · cases index_a
        rw [length_parents] at bound
        omega
      · exact ⟨a, d, index_a, index_d, below⟩
    · rintro ⟨a, d, index_a, index_d, below⟩
      refine ⟨a, d, ?_, index_d, below.append _⟩
      rw [index_insert_of_new known, if_neg]
      · exact index_a
      · rintro rfl
        obtain ⟨node, at_a, named⟩ := wf.indexed.mp index_a
        exact wf.not_contains known at_a named

theorem WellFormed.descends_insert_of (wf : tree.WellFormed) {ancestor descendant : Root}
    (descends : tree.descends ancestor descendant = true) :
    (tree.insert block).descends ancestor descendant = true := by
  cases known : tree.contains block.root with
  | true => rwa [insert_of_contains known]
  | false =>
    have other : descendant ≠ block.root := by
      rintro rfl
      rw [(wf.contains_of_descends descends).2] at known
      contradiction
    rwa [wf.descends_insert other]

theorem boost_insert (tree : BlockTree) (block : Block) :
    (tree.insert block).boost = tree.boost := by
  cases known : tree.contains block.root with
  | true => rw [insert_of_contains known]
  | false => rw [insert_of_new known]

theorem contains_insert_iff {root : Root} : (tree.insert block).contains root = true ↔
    root = block.root ∨ tree.contains root = true := by
  cases known : tree.contains block.root with
  | true =>
    rw [insert_of_contains known, iff_or_self]
    rintro rfl
    exact known
  | false =>
    rw [contains_eq, contains_eq, index_insert_of_new known]
    by_cases named : block.root = root
    · simp [named]
    · simp [named, Ne.symm named]

theorem contains_insert (tree : BlockTree) (block : Block) :
    (tree.insert block).contains block.root = true :=
  contains_insert_iff.mpr (.inl rfl)

theorem not_contains_insert {root : Root} (apart : block.root ≠ root)
    (absent : tree.contains root = false) : (tree.insert block).contains root = false := by
  rw [← Bool.not_eq_true, contains_insert_iff, not_or, Bool.not_eq_true]
  exact ⟨apart.symm, absent⟩

theorem WellFormed.descends_insert_child (wf : tree.WellFormed) {ancestor parent : Root}
    (names : block.parent = some parent) (descends : tree.descends ancestor parent = true)
    (same : ∀ node, tree.node? block.root = some node →
      node.parentIndex = tree.index[parent]?) :
    (tree.insert block).descends ancestor block.root = true := by
  obtain ⟨a, p, index_a, index_p, below⟩ := wf.descends_iff.mp descends
  cases known : tree.contains block.root with
  | true =>
    rw [insert_of_contains known, wf.descends_iff]
    obtain ⟨d, node, at_d, named⟩ := wf.contains_iff.mp known
    have link := same node (wf.node?_eq_some.mpr ⟨d, at_d, named⟩)
    rw [index_p] at link
    rw [← named]
    exact ⟨a, d, index_a, wf.index_root at_d, .up (parents_of_getElem? at_d link) below⟩
  | false =>
    have index_a' := index_insert_of_new known ancestor
    rw [if_neg] at index_a'
    · rw [(wf.insert block).descends_iff, parents_insert_of_new known]
      refine ⟨a, tree.nodes.length, index_a'.trans index_a, ?_, .up ?_ (below.append _)⟩
      · rw [index_insert_of_new known, if_pos rfl]
      · rw [List.getElem?_append_right (Nat.le_of_eq (length_parents _))]
        simp [entry, names, index_p]
    · rintro rfl
      rw [(wf.contains_of_descends descends).1] at known
      contradiction

theorem WellFormed.eq_of_descends_insert (wf : tree.WellFormed)
    (new : tree.contains block.root = false) {descendant : Root}
    (descends : (tree.insert block).descends block.root descendant = true) :
    descendant = block.root := by
  apply Decidable.byContradiction
  intro other
  rw [wf.descends_insert other] at descends
  rw [(wf.contains_of_descends descends).1] at new
  contradiction

end BlockTree

end LmdGhost
