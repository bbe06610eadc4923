import LmdGhost.Proofs.BlockTree.Choice
import Mathlib.Data.Prod.Lex
/-!
The head as the rule has it, without best links: from a block, as long as some child has a viable
block in its subtree, go on to the greatest such child by weight and root. Positions stand for roots
where that is more convenient.
-/

namespace LmdGhost

variable {node sibling : Node}

/-- The order of siblings: by weight, then by root. -/
def Node.rank (node : Node) : ℕ ×ₗ ℕ :=
  toLex (node.weight.toNat, node.root.toNat)

theorem Node.rank_inj (same : node.rank = sibling.rank) : node.root = sibling.root := by
  have roots := congrArg (fun rank => (ofLex rank).2) same
  exact Root.toNat_inj.mp roots

namespace BlockTree

theorem outranks_iff : outranks node sibling = true ↔ sibling.rank ≤ node.rank := by
  rw [outranks, Node.rank, Node.rank, Prod.Lex.toLex_le_toLex]
  simp only [Bool.or_eq_true, Bool.and_eq_true, decide_eq_true_eq, beq_iff_eq,
    UInt64.lt_iff_toNat_lt, UInt64.toNat_inj]
  exact Iff.rfl

def children (tree : BlockTree) (root : Root) : List Node :=
  tree.nodes.filter fun node => node.parentIndex.any (tree.index[root]? == some ·)

/-- Whether a viable block is in the subtree of a root, the root itself included. -/
def carriesHead (tree : BlockTree) (root : Root) : Bool :=
  tree.nodes.any fun node => tree.isViable node && tree.descends root node.root

/-- The descent from a root, and the block where it stops. -/
inductive Descent (tree : BlockTree) : Root → Root → Prop where
  | stop : (∀ child ∈ tree.children root, tree.carriesHead child.root = false) →
      Descent tree root root
  | move {child : Node} : child ∈ tree.children root → tree.carriesHead child.root = true →
      (∀ sibling ∈ tree.children root, tree.carriesHead sibling.root = true →
        sibling.rank ≤ child.rank) →
      Descent tree child.root head → Descent tree root head

def headOrError (tree : BlockTree) (root : Root) : Except Error Root :=
  if (tree.node? root).any tree.isViable then .ok root else .error (.headNotViable root)

def Carries (tree : BlockTree) (position : Nat) : Prop :=
  ∃ d, Below (parents tree.nodes) position d ∧ tree.viableAt d = true

def rankAt (tree : BlockTree) (position : Nat) : ℕ ×ₗ ℕ :=
  (tree.nodes[position]?.map Node.rank).getD (toLex (0, 0))

variable {tree tree' : BlockTree} {node child parent : Node} {root head other : Root}
  {i j k p : Nat}

theorem rankAt_eq (h : tree.nodes[i]? = some node) : tree.rankAt i = node.rank := by
  rw [rankAt, h, Option.map_some, Option.getD_some]

theorem Carries.up (carries : tree.Carries k) (above : Below (parents tree.nodes) p k) :
    tree.Carries p := by
  obtain ⟨d, below, viable⟩ := carries
  exact ⟨d, above.trans below, viable⟩

theorem Carries.viable_or_child (carries : tree.Carries p) :
    tree.viableAt p = true ∨
      ∃ c, (parents tree.nodes)[c]? = some (some p) ∧ tree.Carries c := by
  obtain ⟨d, below, viable⟩ := carries
  by_cases here : p = d
  · exact .inl (here ▸ viable)
  · obtain ⟨c, link, below⟩ := below.exists_child here
    exact .inr ⟨c, link, d, below, viable⟩

namespace SameButLinks

theorem carries_iff (same : SameButLinks tree tree') : tree'.Carries i ↔ tree.Carries i := by
  simp only [Carries, same.parents_eq, same.viableAt_eq]

theorem rankAt_eq (same : SameButLinks tree tree') (h : tree.nodes[i]? = some node) :
    tree'.rankAt i = node.rank := by
  obtain ⟨node', at_i, alike⟩ := same.getElem? h
  rw [BlockTree.rankAt_eq at_i]
  have ranks : node'.unlinked.rank = node.unlinked.rank := by rw [alike]
  exact ranks

end SameButLinks

namespace WellFormed

theorem carriesHead_iff (wf : tree.WellFormed) (at_i : tree.nodes[i]? = some node) :
    tree.carriesHead node.root = true ↔ tree.Carries i := by
  simp only [carriesHead, List.any_eq_true, Bool.and_eq_true]
  constructor
  · rintro ⟨viable, member, is_viable, descends⟩
    obtain ⟨d, at_d⟩ := List.mem_iff_getElem?.mp member
    exact ⟨d, (wf.descends_roots at_i at_d).mp descends, (viableAt_eq at_d).trans is_viable⟩
  · rintro ⟨d, below, is_viable⟩
    obtain ⟨viable, at_d⟩ := below.exists_node
    rw [viableAt_eq at_d] at is_viable
    have descends := (wf.descends_roots at_i at_d).mpr below
    exact ⟨viable, List.mem_of_getElem? at_d, is_viable, descends⟩

theorem mem_children (wf : tree.WellFormed) (at_p : tree.nodes[p]? = some parent) :
    child ∈ tree.children parent.root ↔
      ∃ k : Nat, tree.nodes[k]? = some child ∧ child.parentIndex = some p := by
  rw [children, List.mem_filter, List.mem_iff_getElem?, wf.index_root at_p]
  have linked : child.parentIndex.any (some p == some ·) = true ↔ child.parentIndex = some p := by
    rw [Option.any_eq_true]
    constructor
    · rintro ⟨q, link, same⟩
      rw [link, eq_of_beq same]
    · intro link
      exact ⟨p, link, beq_self_eq_true _⟩
  rw [linked, exists_and_right]

end WellFormed

end BlockTree

end LmdGhost
