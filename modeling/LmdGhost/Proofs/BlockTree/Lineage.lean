import LmdGhost.Proofs.BlockTree.Calls
import LmdGhost.Proofs.BlockTree.Headers
/-!
The chain that a block really has, as headers name parents, no matter which of its blocks are in the
tree. A tree of such blocks may have lost the older end of a chain, but as far back as a walk up the
tree leads, it comes by the blocks of the real chain.
-/

namespace LmdGhost

/--
A block is the one at a slot of the chain of `root`, or the last one before it. The chain ends with
its origin.
-/
inductive StandsAt (header : Root → Header) (origin : Root) (slot : Slot) : Root → Root → Prop where
  | here {root : Root} : (header root).slot ≤ slot → StandsAt header origin slot root root
  | before {root found : Root} : slot < (header root).slot → root ≠ origin →
      StandsAt header origin slot (header root).parent found →
      StandsAt header origin slot root found

def standsAt? (header : Root → Header) (origin : Root) (slot : Slot) : (steps : Nat) → Root →
    Option Root
  | 0, _ => none
  | steps + 1, root =>
    if (header root).slot ≤ slot then some root
    else if root = origin then none
    else standsAt? header origin slot steps (header root).parent

namespace StandsAt

variable {header : Root → Header} {origin root found : Root} {slot : Slot}

theorem of_lt (stands : StandsAt header origin slot root found) (late : slot < (header root).slot) :
    StandsAt header origin slot (header root).parent found := by
  cases stands with
  | here early => exact absurd late (UInt64.not_lt.mpr early)
  | before _ _ stands => exact stands

theorem unique {other : Root} (stands : StandsAt header origin slot root found)
    (stands' : StandsAt header origin slot root other) : found = other := by
  induction stands with
  | here early =>
    cases stands' with
    | here => rfl
    | before late => exact absurd early (UInt64.not_le.mpr late)
  | before late _ _ ih =>
    cases stands' with
    | here early => exact absurd early (UInt64.not_le.mpr late)
    | before _ _ stands' => exact ih stands'

/-- What stands at a slot of a chain stands there on the chains of its later blocks. -/
theorem of_later {slot' : Slot} {later : Root} (stands : StandsAt header origin slot root found)
    (stands' : StandsAt header origin slot' root later) (order : slot ≤ slot') :
    StandsAt header origin slot later found := by
  induction stands' with
  | here => exact stands
  | before late _ _ ih =>
    apply ih
    exact stands.of_lt (UInt64.lt_of_le_of_lt order late)

theorem of_found (steps : Nat) (search : standsAt? header origin slot steps root = some found) :
    StandsAt header origin slot root found := by
  induction steps generalizing root with
  | zero => contradiction
  | succ steps ih =>
    rw [standsAt?] at search
    split at search
    · rename_i early
      cases search
      exact .here early
    · rename_i late
      split at search
      · contradiction
      · rename_i other
        exact .before (UInt64.not_le.mp late) other (ih search)

end StandsAt

/-- A block's root stands for its slot and, but for the origin, for its parent. -/
def Block.Named (header : Root → Header) (origin : Root) (block : Block) : Prop :=
  block.slot = (header block.root).slot ∧
    (block.root ≠ origin → block.parent = some (header block.root).parent)

namespace BlockTree

variable {tree : BlockTree} {header : Root → Header} {origin root found last : Root}
  {slot low : Slot} {node : Node} {i d : Nat}

/-- More steps than a position has nodes before it find nothing more. -/
theorem chainFrom_enough {nodes : List Node} (first : ParentsFirst (parents nodes))
    {steps steps' : Nat} (enough : d < steps) (enough' : d < steps') :
    chainFrom nodes steps d = chainFrom nodes steps' d := by
  induction steps generalizing d steps' with
  | zero => omega
  | succ steps ih =>
    cases steps' with
    | zero => omega
    | succ steps' =>
      cases at_d : nodes[d]? with
      | none => simp [chainFrom, at_d]
      | some node =>
        simp only [chainFrom_succ _ _ at_d]
        cases link : node.parentIndex with
        | none => rfl
        | some p =>
          have earlier := first (parents_of_getElem? at_d link)
          simp only [ih (show p < steps by omega) (show p < steps' by omega)]

theorem contains_of_ancestor (reaches : tree.ancestor root slot = .ok (some found)) :
    tree.contains root = true := by
  rw [ancestor] at reaches
  split at reaches
  · assumption
  · contradiction

namespace WellFormed

/-- The chain of a node goes on with that of its parent. -/
theorem chain_eq (wf : tree.WellFormed) (at_i : tree.nodes[i]? = some node) :
    tree.chain node.root = node :: (match node.parentIndex with
      | none => []
      | some p => chainFrom tree.nodes tree.nodes.length p) := by
  have bound := wf.index_lt (wf.index_root at_i)
  simp only [chain, wf.index_root at_i]
  rw [chainFrom_enough wf.first bound (Nat.lt_succ_self i), chainFrom_succ _ _ at_i]
  cases link : node.parentIndex with
  | none => rfl
  | some p =>
    have earlier := wf.first (parents_of_getElem? at_i link)
    simp only [chainFrom_enough wf.first earlier (Nat.lt_trans earlier bound)]

theorem chain_of_link (wf : tree.WellFormed) {p : Nat} {parent : Node}
    (at_i : tree.nodes[i]? = some node) (link : node.parentIndex = some p)
    (at_p : tree.nodes[p]? = some parent) :
    tree.chain node.root = node :: tree.chain parent.root := by
  rw [wf.chain_eq at_i, link]
  simp only [chain, wf.index_root at_p]

theorem ancestor_of_le (wf : tree.WellFormed) (at_i : tree.nodes[i]? = some node)
    (early : node.slot ≤ slot) : tree.ancestor node.root slot = .ok (some node.root) := by
  simp [ancestor, wf.contains_root at_i, wf.chain_eq at_i, early]

/-- The walk from a node that is later than a slot goes on from the node that it is linked to. -/
theorem ancestor_of_link (wf : tree.WellFormed) {p : Nat} {parent : Node}
    (at_i : tree.nodes[i]? = some node) (link : node.parentIndex = some p)
    (at_p : tree.nodes[p]? = some parent) (late : slot < node.slot) :
    tree.ancestor node.root slot = tree.ancestor parent.root slot := by
  have step : decide (node.slot ≤ slot) = false := by simpa using late
  simp [ancestor, wf.contains_root at_i, wf.contains_root at_p, wf.chain_of_link at_i link at_p,
    step]

theorem ancestor_of_lt (wf : tree.WellFormed) (at_i : tree.nodes[i]? = some node)
    (late : slot < node.slot) (reaches : tree.ancestor node.root slot = .ok (some found)) :
    ∃ parent, node.parent = some parent ∧
      ∀ {slot}, slot < node.slot → tree.ancestor node.root slot = tree.ancestor parent slot := by
  cases link : node.parentIndex with
  | none =>
    have step : decide (node.slot ≤ slot) = false := by simpa using late
    simp [ancestor, wf.contains_root at_i, wf.chain_eq at_i, link, step] at reaches
  | some p =>
    obtain ⟨-, parent, at_p, names⟩ := wf.parent at_i link
    exact ⟨parent.root, names, wf.ancestor_of_link at_i link at_p⟩

/-- What a walk comes by at a slot is in the tree and not later. -/
theorem node?_of_ancestor (wf : tree.WellFormed)
    (reaches : tree.ancestor root slot = .ok (some found)) :
    ∃ node, tree.node? found = some node ∧ node.slot ≤ slot := by
  obtain ⟨i, start, at_i, rfl⟩ := wf.contains_iff.mp (contains_of_ancestor reaches)
  have bound := wf.index_lt (wf.index_root at_i)
  simp only [ancestor, wf.contains_root at_i, if_true, chain, wf.index_root at_i,
    Except.ok.injEq] at reaches
  obtain ⟨node, search, named⟩ := Option.map_eq_some_iff.mp reaches
  obtain ⟨a, -, at_a⟩ := (mem_chainFrom wf.first bound).mp (List.mem_of_find?_eq_some search)
  refine ⟨node, ?_, by simpa using List.find?_some search⟩
  rw [← named]
  exact wf.node?_root at_a

end WellFormed

def Named (header : Root → Header) (origin : Root) (tree : BlockTree) : Prop :=
  ∀ node ∈ tree.nodes, node.toBlock.Named header origin

namespace Named

/-- Only the entry of a block can bring in one that is not what its root stands for. -/
theorem after (named : tree.Named header origin) (wf : tree.WellFormed) {call : Call}
    (names : ∀ block, call = .insert block → block.Named header origin) :
    (tree.after call).Named header origin :=
  forall_blocks_after (fun _ _ named => named) named wf names

/-- A walk that gets past a slot comes by the block that stands there. -/
theorem ancestor_of_standsAt (named : tree.Named header origin) (wf : tree.WellFormed)
    (reaches : tree.ancestor root low = .ok (some last)) (order : low ≤ slot)
    (stands : StandsAt header origin slot root found) :
    tree.ancestor root slot = .ok (some found) := by
  induction stands with
  | @here root early =>
    obtain ⟨i, node, at_i, rfl⟩ := wf.contains_iff.mp (contains_of_ancestor reaches)
    have slot_eq := (named node (List.mem_of_getElem? at_i)).1
    exact wf.ancestor_of_le at_i (slot_eq ▸ early)
  | @before root found late other _ ih =>
    obtain ⟨i, node, at_i, rfl⟩ := wf.contains_iff.mp (contains_of_ancestor reaches)
    obtain ⟨slot_eq, parent_eq⟩ := named node (List.mem_of_getElem? at_i)
    rw [← slot_eq] at late
    have past := UInt64.lt_of_le_of_lt order late
    obtain ⟨parent, names, walk⟩ := wf.ancestor_of_lt at_i past reaches
    rw [parent_eq other, Option.some.injEq] at names
    subst names
    rw [walk late]
    exact ih ((walk past).symm.trans reaches)

end Named

end BlockTree

end LmdGhost
