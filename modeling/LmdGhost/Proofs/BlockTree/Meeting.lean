import LmdGhost.Proofs.BlockTree.ParentChain
/-!
The search for the last block that two chains share. Two walks take turns: the one that is at the
later slot goes on to the parent, or both do if they are at the same slot. Where slots grow, a block
that gives way in a turn is not on the other chain, so a turn passes over no shared block, and a
walk that comes to its end has none left to come by. Parents stand first in the tree, so there are
fewer turns than positions in front of the two blocks.
-/

namespace LmdGhost.BlockTree

def giveWay (tree : BlockTree) (node other : Node) : Option Node :=
  if node.slot < other.slot then some node else tree.parentOf? node

inductive SearchTurn where
  | done (answer : Option Root)
  | on (left right : Node)

def searchTurn (tree : BlockTree) (left right : Node) : SearchTurn :=
  if left.root = right.root then
    .done (some left.root)
  else
    match tree.giveWay left right, tree.giveWay right left with
    | some left, some right => .on left right
    | _, _ => .done none

/-- The answer of the search, if it has one after a number of turns. -/
def searchCommon (tree : BlockTree) : (turns : Nat) → (left right : Node) → Option (Option Root)
  | 0, _, _ => none
  | turns + 1, left, right =>
    match tree.searchTurn left right with
    | .done answer => some answer
    | .on left right => tree.searchCommon turns left right

def Shared (tree : BlockTree) (a b : Root) (node : Node) : Prop :=
  tree.OnChain node a ∧ tree.OnChain node b

/-- A node is shared, and all others that are shared are on its own chain. -/
def LastShared (tree : BlockTree) (a b : Root) (node : Node) : Prop :=
  tree.Shared a b node ∧
    ∀ other, tree.Shared a b other → other ≠ node → tree.OnChain other node.root

/-- What is right to answer: the last shared block, or nothing if no block is shared. -/
def Answers (tree : BlockTree) (a b : Root) : Option Root → Prop
  | some found => ∃ node, tree.LastShared a b node ∧ node.root = found
  | none => ∀ node, ¬tree.Shared a b node

variable {tree : BlockTree} {a b a' b' : Root} {node left right left' right' : Node} {i j : Nat}
  {turns : Nat} {answer answer' : Option Root}

@[simp]
theorem meet_nil_left (bs : List Node) : meet [] bs = none := by
  simp [meet]

@[simp]
theorem meet_nil_right (as : List Node) : meet as [] = none := by
  cases as <;> simp [meet]

/-- A search is over where the walks have met or one of them has come to its end. -/
theorem searchTurn_eq_done (final : tree.searchTurn left right = .done answer) :
    (left.root = right.root ∧ answer = some left.root) ∨
      (left.root ≠ right.root ∧ answer = none ∧
        (tree.giveWay left right = none ∨ tree.giveWay right left = none)) := by
  rw [searchTurn] at final
  split at final
  · rename_i same
    cases final
    exact .inl ⟨same, rfl⟩
  · rename_i other
    split at final
    · contradiction
    · rename_i ends
      cases final
      refine .inr ⟨other, rfl, ?_⟩
      cases left_moves : tree.giveWay left right with
      | none => exact .inl rfl
      | some left' =>
        cases right_moves : tree.giveWay right left with
        | none => exact .inr rfl
        | some right' => exact absurd right_moves (ends left' right' left_moves)

theorem searchTurn_eq_on (goes_on : tree.searchTurn left right = .on left' right') :
    left.root ≠ right.root ∧ tree.giveWay left right = some left' ∧
      tree.giveWay right left = some right' := by
  rw [searchTurn] at goes_on
  split at goes_on
  · contradiction
  · rename_i other
    split at goes_on
    · rename_i left_moves right_moves
      cases goes_on
      exact ⟨other, left_moves, right_moves⟩
    · contradiction

theorem Shared.comm : tree.Shared a b node ↔ tree.Shared b a node :=
  and_comm

theorem Answers.congr (same : ∀ node, tree.Shared a b node ↔ tree.Shared a' b' node) :
    tree.Answers a b answer ↔ tree.Answers a' b' answer := by
  cases answer <;> simp only [Answers, LastShared, same]

namespace WellFormed

/-- A block that is not earlier than another one is not further down its chain. -/
theorem not_onChain_of_le (wf : tree.WellFormed) (climbs : tree.Climbs)
    (found : tree.node? right.root = some right) (other : left.root ≠ right.root)
    (order : right.slot ≤ left.slot) : ¬tree.OnChain left right.root := by
  intro on_chain
  have earlier := wf.slot_lt_of_onChain climbs on_chain found fun same => other (same ▸ rfl)
  exact UInt64.not_lt.mpr order earlier

/-- A walk that cannot give way has no shared block in front of it. -/
theorem giveWay_eq_none (wf : tree.WellFormed) (climbs : tree.Climbs)
    (found : tree.node? left.root = some left) (found' : tree.node? right.root = some right)
    (other : left.root ≠ right.root) (ends : tree.giveWay left right = none) :
    ¬tree.Shared left.root right.root node := by
  rintro ⟨on_left, on_right⟩
  rw [giveWay] at ends
  split at ends
  · contradiction
  · rename_i order
    rw [OnChain.iff_of_node? found, ends] at on_left
    obtain rfl := on_left.resolve_right nofun
    exact wf.not_onChain_of_le climbs found' other (UInt64.not_lt.mp order) on_right

/-- What is on the other chain is in front of a walk before and after it gives way, or neither. -/
theorem giveWay_eq_some (wf : tree.WellFormed) (climbs : tree.Climbs)
    (found : tree.node? left.root = some left) (found' : tree.node? right.root = some right)
    (other : left.root ≠ right.root) (moves : tree.giveWay left right = some left') (node : Node) :
    (tree.OnChain node left'.root → tree.OnChain node left.root) ∧
      (tree.OnChain node right.root → tree.OnChain node left.root →
        tree.OnChain node left'.root) := by
  rw [giveWay] at moves
  split at moves
  · cases moves
    exact ⟨id, fun _ => id⟩
  · rename_i order
    refine ⟨.up found moves, fun on_right on_left => ?_⟩
    rw [OnChain.iff_of_node? found, moves] at on_left
    rcases on_left with rfl | ⟨_, ⟨⟩, above⟩
    · exact absurd on_right
        (wf.not_onChain_of_le climbs found' other (UInt64.not_lt.mp order))
    · exact above

theorem exists_of_giveWay (wf : tree.WellFormed) (at_i : tree.nodes[i]? = some left)
    (moves : tree.giveWay left right = some left') :
    ∃ k, tree.nodes[k]? = some left' ∧ k ≤ i ∧ (right.slot ≤ left.slot → k < i) := by
  rw [giveWay] at moves
  split at moves
  · rename_i earlier
    cases moves
    exact ⟨i, at_i, Nat.le_refl i, fun order => absurd earlier (UInt64.not_lt.mpr order)⟩
  · obtain ⟨p, link, at_p⟩ := parentOf?_eq_some.mp moves
    have before := (wf.parent at_i link).1
    exact ⟨p, at_p, Nat.le_of_lt before, fun _ => before⟩

theorem lastShared_self (wf : tree.WellFormed) (found : tree.node? a = some node) :
    tree.LastShared a a node := by
  refine ⟨⟨.self found, .self found⟩, fun other shared _ => ?_⟩
  rw [wf.root_of_node? found]
  exact shared.1

theorem answers_of_done (wf : tree.WellFormed) (climbs : tree.Climbs)
    (found : tree.node? left.root = some left) (found' : tree.node? right.root = some right)
    (final : tree.searchTurn left right = .done answer) :
    tree.Answers left.root right.root answer := by
  rcases searchTurn_eq_done final with ⟨same, rfl⟩ | ⟨other, rfl, ends | ends⟩
  · rw [← same]
    exact ⟨left, wf.lastShared_self found, rfl⟩
  · exact fun node => wf.giveWay_eq_none climbs found found' other ends
  · intro node
    rw [Shared.comm]
    exact wf.giveWay_eq_none climbs found' found (Ne.symm other) ends

/-- A turn that goes on leaves both walks in front of the same shared blocks. -/
theorem shared_of_on (wf : tree.WellFormed) (climbs : tree.Climbs)
    (found : tree.node? left.root = some left) (found' : tree.node? right.root = some right)
    (goes_on : tree.searchTurn left right = .on left' right') (node : Node) :
    tree.Shared left.root right.root node ↔ tree.Shared left'.root right'.root node := by
  obtain ⟨other, left_moves, right_moves⟩ := searchTurn_eq_on goes_on
  obtain ⟨left_back, left_on⟩ := wf.giveWay_eq_some climbs found found' other left_moves node
  obtain ⟨right_back, right_on⟩ :=
    wf.giveWay_eq_some climbs found' found (Ne.symm other) right_moves node
  constructor
  · rintro ⟨on_left, on_right⟩
    exact ⟨left_on on_right on_left, right_on on_left on_right⟩
  · rintro ⟨on_left, on_right⟩
    exact ⟨left_back on_left, right_back on_right⟩

theorem exists_of_on (wf : tree.WellFormed) (at_i : tree.nodes[i]? = some left)
    (at_j : tree.nodes[j]? = some right) (goes_on : tree.searchTurn left right = .on left' right') :
    ∃ i' j', tree.nodes[i']? = some left' ∧ tree.nodes[j']? = some right' ∧ i' + j' < i + j := by
  obtain ⟨-, left_moves, right_moves⟩ := searchTurn_eq_on goes_on
  obtain ⟨i', at_i', left_le, left_lt⟩ := wf.exists_of_giveWay at_i left_moves
  obtain ⟨j', at_j', right_le, right_lt⟩ := wf.exists_of_giveWay at_j right_moves
  refine ⟨i', j', at_i', at_j', ?_⟩
  rcases UInt64.le_total left.slot right.slot with order | order
  · exact Nat.add_lt_add_of_le_of_lt left_le (right_lt order)
  · exact Nat.add_lt_add_of_lt_of_le (left_lt order) right_le

theorem answers_searchCommon (wf : tree.WellFormed) (climbs : tree.Climbs)
    (at_i : tree.nodes[i]? = some left) (at_j : tree.nodes[j]? = some right)
    (ends : tree.searchCommon turns left right = some answer) :
    tree.Answers left.root right.root answer := by
  have found := wf.node?_root at_i
  have found' := wf.node?_root at_j
  induction turns generalizing i j left right with
  | zero => contradiction
  | succ turns ih =>
    rw [searchCommon] at ends
    cases result : tree.searchTurn left right with
    | done answer' =>
      rw [result] at ends
      cases ends
      exact wf.answers_of_done climbs found found' result
    | on left' right' =>
      rw [result] at ends
      obtain ⟨i', j', at_i', at_j', -⟩ := wf.exists_of_on at_i at_j result
      rw [Answers.congr (wf.shared_of_on climbs found found' result)]
      exact ih at_i' at_j' ends (wf.node?_root at_i') (wf.node?_root at_j')

/-- The first shared block of two lists, one turn at a time. -/
theorem meet_chain (wf : tree.WellFormed) (at_i : tree.nodes[i]? = some left)
    (at_j : tree.nodes[j]? = some right) :
    meet (tree.chain left.root) (tree.chain right.root) =
      match tree.searchTurn left right with
      | .done answer => answer
      | .on left right => meet (tree.chain left.root) (tree.chain right.root) := by
  have from_left := wf.chain_eq_cons at_i
  have from_right := wf.chain_eq_cons at_j
  rw [from_left, from_right, meet, ← from_left, ← from_right, searchTurn, giveWay, giveWay]
  by_cases same : left.root = right.root
  · simp [same]
  · by_cases later : right.slot < left.slot
    · have order := UInt64.lt_asymm later
      cases tree.parentOf? left <;> simp [same, later, order]
    · by_cases earlier : left.slot < right.slot
      · cases tree.parentOf? right <;> simp [same, later, earlier]
      · cases tree.parentOf? left <;> cases tree.parentOf? right <;> simp [same, later, earlier]

/-- Fewer turns are enough than there are positions in front of both blocks. -/
theorem searchCommon_eq (wf : tree.WellFormed) (at_i : tree.nodes[i]? = some left)
    (at_j : tree.nodes[j]? = some right) (enough : i + j < turns) :
    tree.searchCommon turns left right =
      some (meet (tree.chain left.root) (tree.chain right.root)) := by
  induction turns generalizing i j left right with
  | zero => contradiction
  | succ turns ih =>
    rw [searchCommon, wf.meet_chain at_i at_j]
    cases result : tree.searchTurn left right with
    | done answer => rfl
    | on left' right' =>
      obtain ⟨i', j', at_i', at_j', closer⟩ := wf.exists_of_on at_i at_j result
      exact ih at_i' at_j' (by omega)

theorem commonAncestor_eq (wf : tree.WellFormed) (a b : Root) :
    tree.commonAncestor a b = meet (tree.chain a) (tree.chain b) := by
  cases index : tree.index[a]? with
  | none => simp [commonAncestor, chain, index]
  | some i =>
    cases index' : tree.index[b]? with
    | none => simp [commonAncestor, chain, index, index']
    | some j =>
      have bound := wf.index_lt index
      have bound' := wf.index_lt index'
      have enough : tree.nodes.length ≤ tree.size * tree.size := Nat.le_mul_self _
      simp only [commonAncestor, chain, index, index']
      rw [chainFrom_enough wf.first (Nat.lt_of_lt_of_le bound enough) bound,
        chainFrom_enough wf.first (Nat.lt_of_lt_of_le bound' enough) bound']

/-- The search for known blocks ends, with what the common ancestor is said to be. -/
theorem searchCommon_eq_commonAncestor (wf : tree.WellFormed) (found : tree.node? a = some left)
    (found' : tree.node? b = some right) : ∃ turns ≤ 2 * tree.size,
      tree.searchCommon turns left right = some (tree.commonAncestor a b) := by
  obtain ⟨i, at_i, rfl⟩ := wf.node?_eq_some.mp found
  obtain ⟨j, at_j, rfl⟩ := wf.node?_eq_some.mp found'
  have bound : i < tree.size := wf.index_lt (wf.index_root at_i)
  have bound' : j < tree.size := wf.index_lt (wf.index_root at_j)
  refine ⟨i + j + 1, by omega, ?_⟩
  rw [wf.searchCommon_eq at_i at_j (Nat.lt_succ_self _), wf.commonAncestor_eq]

/-- The common ancestor is a right answer, also for blocks that are not known. -/
theorem answers_commonAncestor (wf : tree.WellFormed) (climbs : tree.Climbs) (a b : Root) :
    tree.Answers a b (tree.commonAncestor a b) := by
  cases found : tree.node? a with
  | none =>
    rw [wf.commonAncestor_eq, wf.chain_eq_nil found, meet_nil_left]
    rintro node ⟨on_chain, -⟩
    exact OnChain.not_of_node? found on_chain
  | some left =>
    cases found' : tree.node? b with
    | none =>
      rw [wf.commonAncestor_eq, wf.chain_eq_nil found', meet_nil_right]
      rintro node ⟨-, on_chain⟩
      exact OnChain.not_of_node? found' on_chain
    | some right =>
      obtain ⟨turns, -, ends⟩ := wf.searchCommon_eq_commonAncestor found found'
      obtain ⟨i, at_i, rfl⟩ := wf.node?_eq_some.mp found
      obtain ⟨j, at_j, rfl⟩ := wf.node?_eq_some.mp found'
      exact wf.answers_searchCommon climbs at_i at_j ends

theorem lastShared_unique (wf : tree.WellFormed) (climbs : tree.Climbs)
    (last : tree.LastShared a b left) (last' : tree.LastShared a b right) : left = right := by
  apply Decidable.byContradiction
  intro other
  have there := last'.2 left last.1 other
  have back := last.2 right last'.1 (Ne.symm other)
  exact other (wf.onChain_antisymm climbs there back)

theorem answers_iff (wf : tree.WellFormed) (climbs : tree.Climbs) :
    tree.Answers a b answer ↔ tree.commonAncestor a b = answer := by
  have right := wf.answers_commonAncestor climbs a b
  constructor
  · intro answers
    generalize tree.commonAncestor a b = given at right
    cases given with
    | none =>
      cases answer with
      | none => rfl
      | some found =>
        obtain ⟨node, last, -⟩ := answers
        exact absurd last.1 (right node)
    | some given =>
      obtain ⟨node, last, rfl⟩ := right
      cases answer with
      | none => exact absurd last.1 (answers node)
      | some found =>
        obtain ⟨node', last', rfl⟩ := answers
        rw [wf.lastShared_unique climbs last last']
  · rintro rfl
    exact right

end WellFormed

/--
In every tree that calls lead to, pruned or not, where slots grow along links: the common ancestor
of two roots is the last block that their chains share, there is none if a root is not known or the
chains share no block, the order of the roots makes no difference, and the search for it ends.
-/
theorem commonAncestor_lastShared {history : List (Event BlockTree Call)} {pruneThreshold : UInt64}
    {justifiedEpoch finalizedEpoch : Epoch}
    (run : Run after (fun _ _ _ => True) (empty pruneThreshold justifiedEpoch finalizedEpoch)
      history tree)
    (climbs : tree.Climbs) (a b : Root) :
    (∀ found, tree.commonAncestor a b = some found ↔
      ∃ node, tree.LastShared a b node ∧ node.root = found) ∧
    (tree.commonAncestor a b = none ↔ tree.contains a = false ∨ tree.contains b = false ∨
      ∀ node, ¬tree.Shared a b node) ∧
    tree.commonAncestor a b = tree.commonAncestor b a ∧
    ∀ left right, tree.node? a = some left → tree.node? b = some right →
      ∃ turns ≤ 2 * tree.size,
        tree.searchCommon turns left right = some (tree.commonAncestor a b) := by
  have wf := wellFormed_of_run run
  refine ⟨fun found => (wf.answers_iff climbs).symm, ?_, ?_,
    fun left right => wf.searchCommon_eq_commonAncestor⟩
  · rw [← wf.answers_iff climbs]
    constructor
    · exact fun disjoint => .inr (.inr disjoint)
    · rintro (unknown | unknown | disjoint)
      · exact fun node shared => wf.not_onChain_of_not_contains unknown shared.1
      · exact fun node shared => wf.not_onChain_of_not_contains unknown shared.2
      · exact disjoint
  · rw [← wf.answers_iff climbs, Answers.congr fun _ => Shared.comm]
    exact wf.answers_commonAncestor climbs b a

/-- The branches of a pruned tree meet where it was pruned, and what came later meets neither. -/
theorem commonAncestor_lastShared_of_branches :
    (∃ history, Run after (fun _ _ _ => True) (empty 0 1 1) history sparseTree) ∧
    sparseTree.Climbs ∧
    (∃ node, sparseTree.LastShared (.ofNat 5) (.ofNat 6) node ∧ node.root = .ofNat 2) ∧
    (∀ node, ¬sparseTree.Shared (.ofNat 5) (.ofNat 7) node) := by
  obtain ⟨history, run⟩ := run_sparseTree
  refine ⟨⟨history, run⟩, climbs_sparseTree, ?_, ?_⟩
  · exact ((commonAncestor_lastShared run climbs_sparseTree _ _).1 _).mp (by decide +kernel)
  · obtain unknown | unknown | disjoint :=
      (commonAncestor_lastShared run climbs_sparseTree (.ofNat 5) (.ofNat 7)).2.1.mp
        (by decide +kernel)
    · exact absurd unknown (by decide +kernel)
    · exact absurd unknown (by decide +kernel)
    · exact disjoint

end LmdGhost.BlockTree
