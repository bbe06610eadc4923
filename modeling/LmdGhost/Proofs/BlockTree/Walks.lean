import LmdGhost.Proofs.BlockTree.Lineage
/-!
Walks up a tree. In a tree of blocks that are what their roots stand for, a walk to a slot comes by
the block that stands there on the real chain, for as long as the tree has that block: a chain is
pruned from its older end, so no block in between can be missing.
-/

namespace LmdGhost.BlockTree

variable {tree tree' : BlockTree} {header : Root → Header} {origin root found : Root} {slot : Slot}
  {node : Node} {i : Nat} {gone : List Root}

namespace Registered

theorem ancestor_parent (registered : tree.Registered header origin gone) (wf : tree.WellFormed)
    (at_i : tree.nodes[i]? = some node) (other : node.root ≠ origin)
    (known : tree.contains (header node.root).parent = true) :
    ∃ p parent, p < i ∧ tree.nodes[p]? = some parent ∧ parent.root = (header node.root).parent ∧
      ∀ {slot}, slot < node.slot →
        tree.ancestor node.root slot = tree.ancestor parent.root slot := by
  obtain ⟨p, parent, at_p, names⟩ := wf.contains_iff.mp known
  have linked := registered.linked other (wf.index_root at_i) (names ▸ wf.index_root at_p)
  have link : node.parentIndex = some p := by
    simpa [getElem?_parents, at_i] using linked
  exact ⟨p, parent, wf.first linked, at_p, names, wf.ancestor_of_link at_i link at_p⟩

/-- The chain of a block that is gone is gone. -/
theorem gone_of_standsAt (registered : tree.Registered header origin gone)
    (stands : StandsAt header origin slot root found) (left : root ∈ gone) : found ∈ gone := by
  induction stands with
  | here => exact left
  | before _ other _ ih =>
    apply ih
    exact (registered.left left).2.resolve_left other

/-- A walk is not cut off before a block that is still in the tree. -/
theorem ancestor_of_standsAt (registered : tree.Registered header origin gone)
    (wf : tree.WellFormed) (named : tree.Named header origin)
    (stands : StandsAt header origin slot root found) (known : tree.contains root = true)
    (there : tree.contains found = true) : tree.ancestor root slot = .ok (some found) := by
  induction stands with
  | @here root early =>
    obtain ⟨i, node, at_i, rfl⟩ := wf.contains_iff.mp known
    have slot_eq := (named node (List.mem_of_getElem? at_i)).1
    exact wf.ancestor_of_le at_i (slot_eq ▸ early)
  | @before root found late other stands ih =>
    obtain ⟨i, node, at_i, rfl⟩ := wf.contains_iff.mp known
    rw [← (named node (List.mem_of_getElem? at_i)).1] at late
    rcases registered.parent_known known other with parent_there | parent_gone
    · obtain ⟨p, parent, -, -, names, walk⟩ := registered.ancestor_parent wf at_i other parent_there
      rw [walk late, names]
      exact ih parent_there there
    · have left := (registered.left (registered.gone_of_standsAt stands parent_gone)).1
      rw [there] at left
      contradiction

theorem standsAt_of_ancestor (registered : tree.Registered header origin gone)
    (wf : tree.WellFormed) (named : tree.Named header origin)
    (reaches : tree.ancestor root slot = .ok (some found)) :
    StandsAt header origin slot root found := by
  obtain ⟨last, last_found, last_early⟩ := wf.node?_of_ancestor reaches
  obtain ⟨i, node, at_i, rfl⟩ := wf.contains_iff.mp (contains_of_ancestor reaches)
  induction i using Nat.strongRecOn generalizing node with
  | ind i ih =>
    obtain ⟨slot_eq, parent_eq⟩ := named node (List.mem_of_getElem? at_i)
    by_cases early : node.slot ≤ slot
    · have here := wf.ancestor_of_le at_i early
      rw [reaches, Except.ok.injEq, Option.some.injEq] at here
      rw [here]
      exact .here (slot_eq ▸ early)
    · have late := UInt64.not_le.mp early
      -- The walk cannot lead past the origin, since no block in the tree is earlier.
      have other : node.root ≠ origin := by
        rintro rfl
        obtain ⟨j, at_j, rfl⟩ := wf.node?_eq_some.mp last_found
        have later := registered.later (wf.contains_root at_j)
        rw [← slot_eq, ← (named last (List.mem_of_getElem? at_j)).1] at later
        exact early (UInt64.le_trans later last_early)
      obtain ⟨parent, names, walk⟩ := wf.ancestor_of_lt at_i late reaches
      rw [parent_eq other, Option.some.injEq] at names
      rw [walk late, ← names] at reaches
      obtain ⟨p, parent, before, at_p, root_eq, -⟩ :=
        registered.ancestor_parent wf at_i other (contains_of_ancestor reaches)
      rw [← root_eq] at reaches
      refine .before (slot_eq ▸ late) other ?_
      rw [← root_eq]
      exact ih p before parent at_p reaches

end Registered

structure Traceable (header : Root → Header) (origin : Root) (tree : BlockTree) : Prop where
  wellFormed : tree.WellFormed
  named : tree.Named header origin
  registered : ∃ gone, tree.Registered header origin gone

/-- A block that can be entered: what its root stands for, and later than a parent in the tree. -/
structure Extends (header : Root → Header) (tree : BlockTree) (block : Block) : Prop where
  slot : block.slot = (header block.root).slot
  parent : block.parent = some (header block.root).parent
  known : tree.contains (header block.root).parent = true
  later : (header (header block.root).parent).slot < (header block.root).slot

namespace Traceable

theorem of_anchor {anchor : Block} (root : anchor.root = origin)
    (slot : anchor.slot = (header origin).slot) (pruneThreshold : UInt64)
    (justifiedEpoch finalizedEpoch : Epoch) :
    ((empty pruneThreshold justifiedEpoch finalizedEpoch).insert anchor).Traceable header
      origin := by
  refine ⟨(empty_wellFormed _ _ _).insert anchor, ?_, [], .of_anchor ?_⟩
  · apply forall_blocks_insert
    · exact List.forall_mem_nil _
    · exact ⟨by rw [slot, root], fun other => absurd root other⟩
  · intro other known
    simpa [contains_insert_iff, contains_empty, root] using known

theorem after (traceable : tree.Traceable header origin) {call : Call}
    (grows : ∀ block, call = .insert block → tree.Extends header block) :
    (tree.after call).Traceable header origin := by
  obtain ⟨wf, named, gone, registered⟩ := traceable
  refine ⟨wf.after call, named.after wf ?_, ?_⟩
  · rintro block rfl
    have fits := grows block rfl
    exact ⟨fits.slot, fun _ => fits.parent⟩
  · cases call with
    | insert block =>
      have fits := grows block rfl
      exact ⟨gone, registered.insert fits.parent fits.known fits.later⟩
    | applyScores change =>
      obtain ⟨index, links⟩ := shape_applyScores wf change
      exact ⟨gone, registered.of_shape index links⟩
    | prune finalized =>
      rcases wf.prune_cases finalized with ⟨same, -⟩ | ⟨count, -, dropped, -⟩
      · rw [BlockTree.after, same]
        exact ⟨gone, registered⟩
      · rw [BlockTree.after, dropped]
        exact ⟨_, registered.dropFirst wf count⟩
    | setPruneThreshold => exact ⟨gone, registered.of_shape rfl rfl⟩
    | confirm root =>
      have same := confirm_sameButStatuses tree root
      exact ⟨gone, registered.of_shape same.index_eq same.parents_eq⟩
    | reject root =>
      have same := reject_sameButStatuses tree root
      exact ⟨gone, registered.of_shape same.index_eq same.parents_eq⟩

/-- The walk to a slot comes by the block that stands there, if the tree still has that. -/
theorem ancestor_eq_some_iff (traceable : tree.Traceable header origin)
    (known : tree.contains root = true) (there : tree.contains found = true) :
    tree.ancestor root slot = .ok (some found) ↔ StandsAt header origin slot root found := by
  obtain ⟨wf, named, _, registered⟩ := traceable
  constructor
  · exact registered.standsAt_of_ancestor wf named
  · intro stands
    exact registered.ancestor_of_standsAt wf named stands known there

end Traceable

end LmdGhost.BlockTree
