import LmdGhost.Proofs.BlockTree.Grading
import LmdGhost.Proofs.BlockTree.Lineage
/-!
Chains on which slots grow. There the block at a slot is the latest one that is not later, and the
walk that looks for an ancestor may stop at the ancestor's slot. Slots go on to grow unless a block
is entered on a parent that is not earlier.
-/

namespace LmdGhost

variable {chain : List Node} {node : Node} {slot : Slot}

/-- On a chain of falling slots, what a search for a slot finds is the latest fitting node. -/
theorem find?_slot (falling : chain.Pairwise fun a b => b.slot < a.slot) :
    chain.find? (·.slot ≤ slot) = some node ↔ node ∈ chain ∧ node.slot ≤ slot ∧
      ∀ other ∈ chain, node.slot < other.slot → slot < other.slot := by
  induction chain with
  | nil => simp
  | cons top rest ih =>
    obtain ⟨earlier, falling⟩ := List.pairwise_cons.mp falling
    by_cases fits : top.slot ≤ slot
    · rw [List.find?_cons_of_pos (by simpa using fits), Option.some.injEq]
      constructor
      · rintro rfl
        refine ⟨List.mem_cons_self, fits, fun other member later => ?_⟩
        rcases List.mem_cons.mp member with rfl | member
        · exact absurd later (UInt64.lt_irrefl _)
        · exact absurd (UInt64.lt_trans later (earlier other member)) (UInt64.lt_irrefl _)
      · rintro ⟨member, -, between⟩
        rcases List.mem_cons.mp member with rfl | member
        · rfl
        · have late := between top List.mem_cons_self (earlier node member)
          exact absurd fits (UInt64.not_le.mpr late)
    · rw [List.find?_cons_of_neg (by simpa using fits), ih falling]
      have late := UInt64.not_le.mp fits
      constructor
      · rintro ⟨member, fits', between⟩
        refine ⟨List.mem_cons_of_mem _ member, fits', ?_⟩
        rintro other (_ | ⟨_, member⟩) later
        · exact late
        · exact between other member later
      · rintro ⟨member, fits', between⟩
        refine ⟨?_, fits', fun other member => between other (List.mem_cons_of_mem _ member)⟩
        rcases List.mem_cons.mp member with rfl | member
        · contradiction
        · exact member

/-- On a chain of falling slots, a walk down to a slot comes by all nodes that are not earlier. -/
theorem takeWhile_slot (falling : chain.Pairwise fun a b => b.slot < a.slot) :
    chain.takeWhile (slot ≤ ·.slot) = chain.filter (slot ≤ ·.slot) := by
  induction chain with
  | nil => rfl
  | cons top rest ih =>
    obtain ⟨earlier, falling⟩ := List.pairwise_cons.mp falling
    by_cases late : slot ≤ top.slot
    · rw [List.takeWhile_cons_of_pos (by simpa using late),
        List.filter_cons_of_pos (by simpa using late), ih falling]
    · rw [List.takeWhile_cons_of_neg (by simpa using late),
        List.filter_cons_of_neg (by simpa using late), eq_comm, List.filter_eq_nil_iff]
      intro other member late'
      have before := earlier other member
      have late' : slot ≤ other.slot := by simpa using late'
      exact late (UInt64.le_trans late' (UInt64.le_of_lt before))

namespace BlockTree

variable {tree : BlockTree} {root ancestor : Root} {d : Nat} {top : Node}

/-- Blocks are later than the parents that they are linked to. -/
def Climbs (tree : BlockTree) : Prop :=
  Graded (·.slot) (· < ·) tree.nodes

def Stalls (tree : BlockTree) : Call → Prop
  | .insert block => tree.contains block.root = false ∧
      ∃ parent, block.parent.bind tree.node? = some parent ∧ ¬parent.slot < block.slot
  | _ => False

namespace WellFormed

theorem climbs_after (wf : tree.WellFormed) (climbs : tree.Climbs) {call : Call}
    (moves : ¬tree.Stalls call) : (tree.after call).Climbs := by
  cases call with
  | insert block =>
    refine (wf.graded_insert climbs block).mpr fun new parent found => ?_
    apply Decidable.byContradiction
    intro stalls
    exact moves ⟨new, parent, found, stalls⟩
  | applyScores change => exact wf.graded_applyScores climbs change
  | prune finalized => exact wf.graded_prune climbs finalized
  | setPruneThreshold pruneThreshold => exact climbs
  | confirm root => exact graded_confirm (fun _ _ => rfl) climbs root
  | reject root => exact graded_reject (fun _ _ => rfl) climbs root

theorem falling_chain_root (wf : tree.WellFormed) (climbs : tree.Climbs)
    (at_d : tree.nodes[d]? = some top) :
    ((tree.chain top.root).Pairwise fun a b => b.slot < a.slot) ∧
      ∀ node ∈ tree.chain top.root, node.slot ≤ top.slot := by
  induction d using Nat.strongRecOn generalizing top with
  | ind d ih =>
    cases link : top.parentIndex with
    | none => simp [wf.chain_eq at_d, link]
    | some p =>
      obtain ⟨before, parent, at_p, -⟩ := wf.parent at_d link
      obtain ⟨falling, bounded⟩ := ih p before at_p
      have later : parent.slot < top.slot := climbs at_d link at_p
      rw [wf.chain_of_link at_d link at_p, List.pairwise_cons]
      refine ⟨⟨fun node member => UInt64.lt_of_le_of_lt (bounded node member) later, falling⟩, ?_⟩
      rintro node (_ | ⟨_, member⟩)
      · exact UInt64.le_refl _
      · exact UInt64.le_of_lt (UInt64.lt_of_le_of_lt (bounded node member) later)

theorem falling_chain (wf : tree.WellFormed) (climbs : tree.Climbs) (root : Root) :
    (tree.chain root).Pairwise fun a b => b.slot < a.slot := by
  cases index : tree.index[root]? with
  | none => simp [chain, index]
  | some d =>
    obtain ⟨top, at_d, rfl⟩ := wf.indexed.mp index
    exact (wf.falling_chain_root climbs at_d).1

theorem node?_of_mem_chain (wf : tree.WellFormed) (member : node ∈ tree.chain root) :
    tree.node? node.root = some node := by
  cases index : tree.index[root]? with
  | none => simp [chain, index] at member
  | some d =>
    simp only [chain, index] at member
    obtain ⟨a, -, at_a⟩ := (mem_chainFrom wf.first (wf.index_lt index)).mp member
    exact wf.node?_root at_a

theorem node?_of_descends (wf : tree.WellFormed) (descends : tree.descends ancestor root = true) :
    ∃ node ∈ tree.chain root, tree.node? ancestor = some node := by
  obtain ⟨node, member, named⟩ := List.any_eq_true.mp descends
  rw [← LawfulBEq.eq_of_beq named]
  exact ⟨node, member, wf.node?_of_mem_chain member⟩

theorem descends_iff_mem (wf : tree.WellFormed) (found : tree.node? ancestor = some node) :
    tree.descends ancestor root = true ↔ node ∈ tree.chain root := by
  constructor
  · intro descends
    obtain ⟨other, member, found'⟩ := wf.node?_of_descends descends
    rw [found] at found'
    rwa [Option.some.inj found']
  · intro member
    obtain ⟨i, -, named⟩ := wf.node?_eq_some.mp found
    rw [descends, List.any_eq_true]
    exact ⟨node, member, by simp [named]⟩

/-- Where slots grow, a walk that stops at the slot of a block does not miss it. -/
theorem isDescendant_eq (wf : tree.WellFormed) (climbs : tree.Climbs) (ancestor root : Root) :
    tree.isDescendant ancestor root = tree.descends ancestor root := by
  rw [isDescendant, Bool.eq_iff_iff]
  cases found : tree.node? ancestor with
  | none =>
    rw [iff_false_left Bool.false_ne_true]
    intro descends
    obtain ⟨_, -, found'⟩ := wf.node?_of_descends descends
    rw [found] at found'
    contradiction
  | some node =>
    have named : node.root = ancestor := by
      obtain ⟨i, -, named⟩ := wf.node?_eq_some.mp found
      exact named
    simp only [takeWhile_slot (wf.falling_chain climbs root), List.any_eq_true, List.mem_filter]
    constructor
    · rintro ⟨other, ⟨member, -⟩, named⟩
      exact List.any_eq_true.mpr ⟨other, member, named⟩
    · intro descends
      have member := (wf.descends_iff_mem found).mp descends
      exact ⟨node, ⟨member, by simp⟩, by simp [named]⟩

/--
Where slots grow, a block stands at a slot of a chain if and only if it is on the chain, not after
the slot, and no other block of the chain is between.
-/
theorem ancestor_eq_iff (wf : tree.WellFormed) (climbs : tree.Climbs)
    (known : tree.contains root = true) (found : tree.node? ancestor = some node) :
    tree.ancestor root slot = .ok (some ancestor) ↔
      tree.descends ancestor root = true ∧ node.slot ≤ slot ∧
        ∀ other ∈ tree.chain root, node.slot < other.slot → slot < other.slot := by
  rw [BlockTree.ancestor, if_pos known, wf.descends_iff_mem found,
    ← find?_slot (wf.falling_chain climbs root), Except.ok.injEq, Option.map_eq_some_iff]
  constructor
  · rintro ⟨other, search, named⟩
    have found' := wf.node?_of_mem_chain (List.mem_of_find?_eq_some search)
    rw [named, found] at found'
    rwa [Option.some.inj found']
  · intro search
    obtain ⟨i, -, named⟩ := wf.node?_eq_some.mp found
    exact ⟨node, search, named⟩

end WellFormed

end BlockTree

end LmdGhost
