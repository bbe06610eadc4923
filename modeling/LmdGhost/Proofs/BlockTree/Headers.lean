import LmdGhost.Proofs.BlockTree.Pruning
import LmdGhost.Proofs.BlockTree.Insertion
/-!
Trees whose roots are those of blocks. Where a root stands for one slot and one parent, and slots
are later than those of parents, a block in the tree is linked to its parent for as long as that is
there, and no block that was pruned comes back: its parent was pruned before it, down to the anchor,
and the anchor is earlier than all blocks that can be added.
-/

namespace LmdGhost

/-- What a root stands for. -/
structure Header where
  slot : Slot
  parent : Root
deriving DecidableEq

namespace BlockTree

/--
Blocks other than the anchor are linked to parents in the tree, or their parents are gone for good.
-/
structure Registered (header : Root → Header) (anchor : Root) (gone : List Root)
    (tree : BlockTree) : Prop where
  linked : ∀ {root : Root} {i p : Nat}, root ≠ anchor → tree.index[root]? = some i →
    tree.index[(header root).parent]? = some p → (parents tree.nodes)[i]? = some (some p)
  later : ∀ {root}, tree.contains root = true → (header anchor).slot ≤ (header root).slot
  parent_known : ∀ {root}, tree.contains root = true → root ≠ anchor →
    tree.contains (header root).parent = true ∨ (header root).parent ∈ gone
  left : ∀ {root}, root ∈ gone → tree.contains root = false ∧
    (root = anchor ∨ (header root).parent ∈ gone)

variable {tree tree' : BlockTree} {header : Root → Header} {anchor root : Root} {gone : List Root}
  {block : Block} {count : Nat}

namespace Registered

theorem ne_anchor (registered : tree.Registered header anchor gone)
    (known : tree.contains (header root).parent = true)
    (order : (header (header root).parent).slot < (header root).slot) : root ≠ anchor := by
  rintro rfl
  have later := registered.later known
  exact UInt64.not_lt.mpr later order

theorem not_gone (registered : tree.Registered header anchor gone)
    (known : tree.contains (header root).parent = true)
    (order : (header (header root).parent).slot < (header root).slot) : root ∉ gone := by
  intro member
  rcases (registered.left member).2 with anchor | member
  · exact registered.ne_anchor known order anchor
  · rw [(registered.left member).1] at known
    contradiction

/-- No block in the tree but the anchor waits for a parent that can be added. -/
theorem parent_ne (registered : tree.Registered header anchor gone)
    (new : tree.contains root = false) (fresh : root ∉ gone) {other : Root}
    (there : tree.contains other = true) (apart : other ≠ anchor) :
    (header other).parent ≠ root := by
  rintro rfl
  rcases registered.parent_known there apart with known | member
  · rw [new] at known
    contradiction
  · exact fresh member

/-- A known block that can be added again is linked to its parent already. -/
theorem parentIndex_eq (registered : tree.Registered header anchor gone) (wf : tree.WellFormed)
    (known : tree.contains (header root).parent = true)
    (order : (header (header root).parent).slot < (header root).slot) {node : Node}
    (found : tree.node? root = some node) :
    node.parentIndex = tree.index[(header root).parent]? := by
  obtain ⟨i, at_i, rfl⟩ := wf.node?_eq_some.mp found
  obtain ⟨p, index⟩ := contains_iff_index.mp known
  have link := registered.linked (registered.ne_anchor known order) (wf.index_root at_i) index
  rw [getElem?_parents, at_i, Option.map_some, Option.some.injEq] at link
  rw [link, index]

theorem of_shape (registered : tree.Registered header anchor gone)
    (index : tree'.index = tree.index)
    (links : parents tree'.nodes = parents tree.nodes) : tree'.Registered header anchor gone := by
  have contains (root : Root) : tree'.contains root = tree.contains root :=
    congrArg (·.contains root) index
  constructor
  · intro root i p other index_root index_parent
    rw [index] at index_root index_parent
    rw [links]
    exact registered.linked other index_root index_parent
  · intro root known
    rw [contains] at known
    exact registered.later known
  · intro root known other
    rw [contains] at known ⊢
    exact registered.parent_known known other
  · intro root member
    rw [contains]
    exact registered.left member

theorem of_anchor (alone : ∀ root, tree.contains root = true → root = anchor) :
    tree.Registered header anchor [] := by
  constructor
  · intro root i p other index
    exact absurd (alone root (contains_iff_index.mpr ⟨i, index⟩)) other
  · intro root there
    rw [alone root there]
    exact UInt64.le_refl _
  · intro root there other
    exact absurd (alone root there) other
  · intro root member
    contradiction

theorem insert (registered : tree.Registered header anchor gone)
    (names : block.parent = some (header block.root).parent)
    (known : tree.contains (header block.root).parent = true)
    (order : (header (header block.root).parent).slot < (header block.root).slot) :
    (tree.insert block).Registered header anchor gone := by
  cases new : tree.contains block.root with
  | true => rwa [insert_of_contains new]
  | false =>
    have fresh := registered.not_gone known order
    constructor
    · intro root i p apart index_root index_parent
      rw [index_insert_of_new new] at index_root index_parent
      rw [parents_insert_of_new new]
      split at index_root
      · rename_i here
        subst here
        cases index_root
        rw [if_neg] at index_parent
        · rw [List.getElem?_append_right (Nat.le_of_eq (length_parents _))]
          simp [entry, names, index_parent]
        · intro same
          rw [← same, new] at known
          contradiction
      · have there := contains_iff_index.mpr ⟨i, index_root⟩
        rw [if_neg (registered.parent_ne new fresh there apart).symm] at index_parent
        have link := registered.linked apart index_root index_parent
        rw [List.getElem?_append_left (List.getElem?_eq_some_iff.mp link).1, link]
    · intro root there
      rcases contains_insert_iff.mp there with rfl | there
      · have later := registered.later known
        exact UInt64.le_of_lt (UInt64.lt_of_le_of_lt later order)
      · exact registered.later there
    · intro root there apart
      rw [contains_insert_iff]
      rcases contains_insert_iff.mp there with rfl | there
      · exact .inl (.inr known)
      · exact (registered.parent_known there apart).imp_left .inr
    · intro root member
      refine ⟨?_, (registered.left member).2⟩
      rw [← Bool.not_eq_true, contains_insert_iff, not_or, Bool.not_eq_true]
      refine ⟨?_, (registered.left member).1⟩
      rintro rfl
      exact fresh member

/-- The parents of blocks that are pruned are pruned with them or before. -/
theorem dropFirst (registered : tree.Registered header anchor gone) (wf : tree.WellFormed)
    (count : Nat) : (tree.dropFirst count).Registered header anchor
      ((tree.nodes.take count).map (·.root) ++ gone) := by
  have parent {root : Root} (there : tree.contains root = true) (other : root ≠ anchor) :
      (tree.dropFirst count).contains (header root).parent = true ∨
        (header root).parent ∈ (tree.nodes.take count).map (·.root) ++ gone := by
    rcases registered.parent_known there other with known | member
    · exact (wf.contains_dropFirst known).imp_right (List.mem_append_left _)
    · exact .inr (List.mem_append_right _ member)
  constructor
  · intro root i p other index_root index_parent
    rw [wf.index_dropFirst] at index_root index_parent
    rw [parents_dropFirst]
    exact registered.linked other index_root index_parent
  · intro root there
    exact registered.later (wf.contains_of_dropFirst there)
  · intro root there other
    exact parent (wf.contains_of_dropFirst there) other
  · intro root member
    rcases List.mem_append.mp member with taken | member
    · obtain ⟨i, lower, index⟩ := wf.mem_take_roots.mp taken
      refine ⟨wf.not_contains_dropFirst lower index, ?_⟩
      by_cases other : root = anchor
      · exact .inl other
      · have there := contains_iff_index.mpr ⟨i, index⟩
        -- A parent stands before its child, so it cannot stay when the child goes.
        refine .inr ((parent there other).elim (fun stays => ?_) id)
        obtain ⟨p, index_parent⟩ := contains_iff_index.mp stays
        rw [wf.index_dropFirst] at index_parent
        have link := registered.linked other index index_parent
        have order := wf.first link
        omega
    · have left := registered.left member
      refine ⟨?_, left.2.imp_right (List.mem_append_right _)⟩
      rw [← Bool.not_eq_true]
      intro there
      rw [wf.contains_of_dropFirst there] at left
      exact absurd left.1 (by decide)

end Registered

end BlockTree

end LmdGhost
