import LmdGhost.Proofs.BlockTree.Descent
/-!
One parent's best child during a pass. The children are considered from the last to the first, each
with its final links, but the child that was best before is compared by the links it had until its
own turn comes. What the parent holds at each stage is one of four things, and at the end it is the
greatest child with a viable node below it, or nothing, or, where the child that was best before was
outranked by a later one and no child has a viable node below it, the greatest child of all, which
leads nowhere.
-/

namespace LmdGhost.BlockTree

def ChildOf (tree : BlockTree) (p c : Nat) : Prop :=
  (parents tree.nodes)[c]? = some (some p)

/-- Where the best links of a node lead. -/
def leafAt (tree : BlockTree) (position : Nat) : Nat :=
  (tree.nodes[position]?.bind (·.bestDescendant)).getD position

def leadsAt (tree : BlockTree) (position : Nat) : Bool :=
  tree.nodes[position]?.any tree.leads

/-- The child that was best before has yet to be considered and will come before this one. -/
def Excused (tree : BlockTree) (held : Option Nat) (k e : Nat) : Prop :=
  ∃ b, held = some b ∧ b < k ∧ tree.Carries b ∧ tree.rankAt e < tree.rankAt b

def Displaced (tree : BlockTree) (p : Nat) (held : Option Nat) : Prop :=
  ∃ b e, held = some b ∧ b < e ∧ tree.ChildOf p e ∧ tree.rankAt b < tree.rankAt e

/-- The best links of a parent when its children from `k` on have been considered. -/
inductive Standing (tree : BlockTree) (p : Nat) (held : Option Nat) (k : Nat) :
    Option Nat → Option Nat → Prop where
  | vacant : (∀ e, k ≤ e → tree.ChildOf p e → ¬tree.Carries e) →
      (∀ b, held = some b → k ≤ b) → ¬tree.Displaced p held → Standing tree p held k none none
  | elected : k ≤ c → tree.ChildOf p c → tree.Carries c →
      (∀ e, k ≤ e → tree.ChildOf p e → tree.Carries e →
        tree.rankAt e ≤ tree.rankAt c ∨ tree.Excused held k e) →
      Standing tree p held k (some c) (some (tree.leafAt c))
  | untouched : held = some b → b < k →
      (∀ e, k ≤ e → tree.ChildOf p e → tree.Carries e → tree.Excused held k e) →
      (∀ e, k ≤ e → tree.ChildOf p e → ¬tree.Carries b → tree.rankAt e < tree.rankAt b) →
      Standing tree p held k (some b) descendant
  | usurped : k ≤ c → tree.ChildOf p c → ¬tree.Carries c →
      held = some b → tree.rankAt b < tree.rankAt c → tree.Displaced p held →
      (∀ e, k ≤ e → tree.ChildOf p e → tree.Carries e → tree.Excused held k e) →
      (∀ e, k ≤ e → tree.ChildOf p e → ¬tree.Carries b → tree.rankAt e ≤ tree.rankAt c) →
      Standing tree p held k (some c) descendant

variable {tree before : BlockTree} {node child parent parent' : Node}
  {held best descendant : Option Nat} {b c e i k p : Nat}

theorem WellFormed.childOf_iff (wf : tree.WellFormed) {child parent : Node} {k : Nat}
    (at_p : tree.nodes[p]? = some parent) (at_k : tree.nodes[k]? = some child) :
    tree.ChildOf p k ↔ child ∈ tree.children parent.root := by
  rw [wf.mem_children at_p, ChildOf, getElem?_parents, at_k, Option.map_some, Option.some.injEq]
  constructor
  · exact fun link => ⟨k, at_k, link⟩
  · rintro ⟨_, _, link⟩
    exact link

theorem Excused.pass (excused : tree.Excused held (k + 1) e) (not_here : ¬tree.Carries k) :
    tree.Excused held k e := by
  obtain ⟨b, was_best, bound, carries, rank⟩ := excused
  have elsewhere : b ≠ k := fun here => not_here (here ▸ carries)
  exact ⟨b, was_best, by omega, carries, rank⟩

/-- Where the child that was best before is the one considered, it comes before those it excused. -/
theorem Excused.rank_or_pass (excused : tree.Excused held (k + 1) e) :
    tree.rankAt e < tree.rankAt k ∨ tree.Excused held k e := by
  obtain ⟨b, was_best, bound, carries, rank⟩ := excused
  by_cases here : b = k
  · subst here
    exact .inl rank
  · exact .inr ⟨b, was_best, by omega, carries, rank⟩

/-- A child that carries no head is no reason for another to be excused. -/
theorem excused_of_idle (excused : ∀ e, k + 1 ≤ e → tree.ChildOf p e → tree.Carries e →
      tree.Excused held (k + 1) e) (idle : ¬tree.Carries k) :
    ∀ e, k ≤ e → tree.ChildOf p e → tree.Carries e → tree.Excused held k e := by
  intro e later childOf carries
  rcases Nat.eq_or_lt_of_le later with rfl | after
  · exact absurd carries idle
  · exact (excused e after childOf carries).pass idle

/-- Where the child that was best before leads nowhere any more, nothing is left. -/
theorem Standing.cleared (idle : ¬tree.Carries k)
    (excused : ∀ e, k + 1 ≤ e → tree.ChildOf p e → tree.Carries e →
      tree.Excused (some k) (k + 1) e)
    (lower : ∀ e, k + 1 ≤ e → tree.ChildOf p e → tree.rankAt e < tree.rankAt k) :
    Standing tree p (some k) k none none := by
  refine .vacant ?_ ?_ ?_
  · intro e later childOf carries
    obtain ⟨b, ⟨⟩, bound, -⟩ := excused_of_idle excused idle e later childOf carries
    exact Nat.lt_irrefl k bound
  · rintro b ⟨⟩
    exact Nat.le_refl k
  · rintro ⟨b, e, ⟨⟩, after, childOf, higher⟩
    exact lt_asymm higher (lower e after childOf)

/-- What is known of a child when its turn comes, and of the best child it is compared with. -/
structure Turn (tree before : BlockTree) (p k : Nat) (child : Node) : Prop where
  same : SameButLinks before tree
  wellFormed : before.WellFormed
  at_k : before.nodes[k]? = some child
  childOf : tree.ChildOf p k
  final : ∀ {c}, k ≤ c → before.nodes[c]? = tree.nodes[c]?
  right : ∀ {c}, tree.ChildOf p c → (tree.leadsAt c = true ↔ tree.Carries c)

namespace SameButLinks

theorem leads_eq (same : SameButLinks before tree) (node : Node) :
    tree.leads node = before.leads node := by
  simp only [leads, funext same.viableAt_eq, same.isViable_eq (rfl : node.unlinked = node.unlinked)]

end SameButLinks

/-- A node that leads to a viable one has a viable one in its subtree. -/
theorem WellFormed.carries_of_leads (wf : tree.WellFormed) (at_i : tree.nodes[i]? = some node)
    (leads : tree.leads node = true) : tree.Carries i := by
  rw [BlockTree.leads, Bool.or_eq_true, Option.any_eq_true] at leads
  rcases leads with viable | ⟨d, link, viable⟩
  · refine ⟨i, .refl ?_, (viableAt_eq at_i).trans viable⟩
    simpa using (List.getElem?_eq_some_iff.mp at_i).1
  · have links := wf.best at_i
    rw [link] at links
    exact ⟨d, links.below wf.first, viable⟩

namespace Turn

variable (turn : Turn tree before p k child)

include turn

theorem carries_of_leads (at_b : before.nodes[b]? = some node) (leads : before.leads node = true) :
    tree.Carries b :=
  turn.same.carries_iff.mpr (turn.wellFormed.carries_of_leads at_b leads)

theorem leads_iff (at_c : before.nodes[c]? = some node) (later : k ≤ c)
    (childOf : tree.ChildOf p c) :
    before.leads node = true ↔ tree.Carries c := by
  rw [← turn.right childOf, leadsAt, ← turn.final later, at_c, Option.any_some,
    turn.same.leads_eq]

theorem leads_child : before.leads child = true ↔ tree.Carries k :=
  turn.leads_iff turn.at_k (Nat.le_refl k) turn.childOf

theorem leads_child_false : before.leads child = false ↔ ¬tree.Carries k := by
  rw [← turn.leads_child, Bool.not_eq_true]

theorem outranks_iff (at_b : before.nodes[b]? = some node) :
    outranks child node = true ↔ tree.rankAt b ≤ tree.rankAt k := by
  rw [BlockTree.outranks_iff, turn.same.rankAt_eq at_b, turn.same.rankAt_eq turn.at_k]

theorem outranks_false (at_b : before.nodes[b]? = some node) :
    outranks child node = false ↔ tree.rankAt k < tree.rankAt b := by
  rw [← not_le, ← turn.outranks_iff at_b, Bool.not_eq_true]

/-- No two siblings have one rank. -/
theorem rank_lt (at_b : before.nodes[b]? = some node) (distinct : b ≠ k)
    (rank : tree.rankAt b ≤ tree.rankAt k) : tree.rankAt b < tree.rankAt k := by
  refine lt_of_le_of_ne rank fun equal => distinct ?_
  rw [turn.same.rankAt_eq at_b, turn.same.rankAt_eq turn.at_k] at equal
  exact turn.wellFormed.root_unique at_b turn.at_k (Node.rank_inj equal)

theorem leafAt_child : child.bestDescendant.getD k = tree.leafAt k := by
  rw [leafAt, ← turn.final (Nat.le_refl k), turn.at_k, Option.bind_some]

/-- The child considered is elected if all others that carry a head come after it. -/
theorem elected (carries : tree.Carries k)
    (others : ∀ e, k + 1 ≤ e → tree.ChildOf p e → tree.Carries e →
      tree.rankAt e ≤ tree.rankAt k ∨ tree.Excused held k e) :
    Standing tree p held k (parent.leadingTo child k).bestChild
      (parent.leadingTo child k).bestDescendant := by
  simp only [Node.leadingTo, turn.leafAt_child]
  refine .elected (Nat.le_refl k) turn.childOf carries ?_
  intro e later childOf carries_e
  rcases Nat.eq_or_lt_of_le later with rfl | after
  · exact .inl (le_refl _)
  · exact others e after childOf carries_e

theorem step_vacant (choice : Choice before parent child k parent')
    (vacant : parent.bestChild = none ∧ parent.bestDescendant = none)
    (none_carries : ∀ e, k + 1 ≤ e → tree.ChildOf p e → ¬tree.Carries e)
    (passed : ∀ b, held = some b → k + 1 ≤ b) (kept : ¬tree.Displaced p held) :
    Standing tree p held k parent'.bestChild parent'.bestDescendant := by
  cases choice with
  | first _ leads =>
    apply turn.elected (turn.leads_child.mp leads)
    intro e later childOf carries
    exact absurd carries (none_carries e later childOf)
  | ignored _ leads =>
    rw [vacant.1, vacant.2]
    refine .vacant ?_ (fun b was_best => Nat.le_of_lt (passed b was_best)) kept
    intro e later childOf
    rcases Nat.eq_or_lt_of_le later with rfl | after
    · exact turn.leads_child_false.mp leads
    · exact none_carries e after childOf
  | refreshed linked | cleared linked | replaced linked | retained linked =>
    rw [vacant.1] at linked
    contradiction

theorem step_elected (choice : Choice before parent child k parent') (later_c : k + 1 ≤ c)
    (links : parent.bestChild = some c ∧ parent.bestDescendant = some (tree.leafAt c))
    (childOf_c : tree.ChildOf p c) (carries_c : tree.Carries c)
    (others : ∀ e, k + 1 ≤ e → tree.ChildOf p e → tree.Carries e →
      tree.rankAt e ≤ tree.rankAt c ∨ tree.Excused held (k + 1) e) :
    Standing tree p held k parent'.bestChild parent'.bestDescendant := by
  have best_leads : ∀ {best : Node}, before.nodes[c]? = some best → before.leads best = true := by
    intro best at_c
    exact (turn.leads_iff at_c (by omega) childOf_c).mpr carries_c
  cases choice with
  | first linked | ignored linked =>
    rw [links.1] at linked
    contradiction
  | refreshed linked | cleared linked =>
    rw [links.1] at linked
    cases linked
    omega
  | @replaced b best linked _ at_b reason =>
    rw [links.1] at linked
    cases linked
    rcases reason with ⟨-, best_idle⟩ | ⟨alike, outranked⟩
    · rw [best_leads at_b] at best_idle
      contradiction
    · have rank := (turn.outranks_iff at_b).mp outranked
      apply turn.elected (turn.leads_child.mp (alike.trans (best_leads at_b)))
      intro e later childOf carries
      rcases others e later childOf carries with lower | excused
      · exact .inl (le_trans lower rank)
      · exact excused.rank_or_pass.imp_left le_of_lt
  | @retained b best linked _ at_b reason =>
    rw [links.1] at linked
    cases linked
    rw [links.1, links.2]
    refine .elected (by omega) childOf_c carries_c ?_
    intro e later childOf carries
    rcases reason with ⟨idle, -⟩ | ⟨-, outranked⟩
    · have idle := turn.leads_child_false.mp idle
      rcases Nat.eq_or_lt_of_le later with rfl | after
      · exact absurd carries idle
      · exact (others e after childOf carries).imp_right fun excused => excused.pass idle
    · have rank := (turn.outranks_false at_b).mp outranked
      rcases Nat.eq_or_lt_of_le later with rfl | after
      · exact .inl (le_of_lt rank)
      · rcases others e after childOf carries with lower | excused
        · exact .inl lower
        · exact excused.rank_or_pass.imp_left fun lower => le_of_lt (lt_trans lower rank)

theorem step_untouched (choice : Choice before parent child k parent')
    (linked_b : parent.bestChild = some b) (was_best : held = some b) (bound : b < k + 1)
    (excused : ∀ e, k + 1 ≤ e → tree.ChildOf p e → tree.Carries e → tree.Excused held (k + 1) e)
    (lower : ∀ e, k + 1 ≤ e → tree.ChildOf p e → ¬tree.Carries b →
      tree.rankAt e < tree.rankAt b) :
    Standing tree p held k parent'.bestChild parent'.bestDescendant := by
  have others : ∀ e, k + 1 ≤ e → tree.ChildOf p e → tree.Carries e →
      tree.rankAt e ≤ tree.rankAt k ∨ tree.Excused held k e := fun e later childOf carries =>
    (excused e later childOf carries).rank_or_pass.imp_left le_of_lt
  cases choice with
  | first linked | ignored linked =>
    rw [linked_b] at linked
    contradiction
  | refreshed _ leads => exact turn.elected (turn.leads_child.mp leads) others
  | cleared linked idle =>
    rw [linked_b] at linked
    cases linked
    subst was_best
    have idle := turn.leads_child_false.mp idle
    exact .cleared idle excused fun e later childOf => lower e later childOf idle
  | @replaced b' best linked distinct at_b reason =>
    rw [linked_b] at linked
    cases linked
    rcases reason with ⟨leads, -⟩ | ⟨-, outranked⟩
    · exact turn.elected (turn.leads_child.mp leads) others
    · have rank := (turn.outranks_iff at_b).mp outranked
      by_cases carries : tree.Carries k
      · exact turn.elected carries others
      · have higher := turn.rank_lt at_b distinct rank
        have displaced : tree.Displaced p held :=
          ⟨b, k, was_best, by omega, turn.childOf, higher⟩
        refine .usurped (Nat.le_refl k) turn.childOf carries was_best higher displaced
          (excused_of_idle excused carries) ?_
        intro e later childOf idle_b
        rcases Nat.eq_or_lt_of_le later with rfl | after
        · exact le_refl _
        · exact le_of_lt (lt_trans (lower e after childOf idle_b) higher)
  | @retained b' best linked distinct at_b reason =>
    rw [linked_b] at linked
    cases linked
    rw [linked_b]
    have before_k : b < k := by omega
    rcases reason with ⟨idle, best_leads⟩ | ⟨alike, outranked⟩
    · have idle := turn.leads_child_false.mp idle
      have carries_b := turn.carries_of_leads at_b best_leads
      exact .untouched was_best before_k (excused_of_idle excused idle)
        fun e _ _ idle_b => absurd carries_b idle_b
    · have rank := (turn.outranks_false at_b).mp outranked
      refine .untouched was_best before_k ?_ ?_
      · intro e later childOf carries
        rcases Nat.eq_or_lt_of_le later with rfl | after
        · have best_leads := alike.symm.trans (turn.leads_child.mpr carries)
          exact ⟨b, was_best, before_k, turn.carries_of_leads at_b best_leads, rank⟩
        · obtain ⟨b', was_best', _, carries_b, lower_e⟩ := excused e after childOf carries
          rw [was_best] at was_best'
          cases was_best'
          exact ⟨b, was_best, before_k, carries_b, lower_e⟩
      · intro e later childOf idle_b
        rcases Nat.eq_or_lt_of_le later with rfl | after
        · exact rank
        · exact lower e after childOf idle_b

theorem step_usurped (choice : Choice before parent child k parent') (later_c : k + 1 ≤ c)
    (linked_c : parent.bestChild = some c) (childOf_c : tree.ChildOf p c)
    (idle_c : ¬tree.Carries c) (was_best : held = some b) (higher : tree.rankAt b < tree.rankAt c)
    (displaced : tree.Displaced p held)
    (excused : ∀ e, k + 1 ≤ e → tree.ChildOf p e → tree.Carries e → tree.Excused held (k + 1) e)
    (greatest : ∀ e, k + 1 ≤ e → tree.ChildOf p e → ¬tree.Carries b →
      tree.rankAt e ≤ tree.rankAt c) :
    Standing tree p held k parent'.bestChild parent'.bestDescendant := by
  have best_idle : ∀ {best : Node}, before.nodes[c]? = some best → before.leads best = false := by
    intro best at_c
    rw [← Bool.not_eq_true, turn.leads_iff at_c (by omega) childOf_c]
    exact idle_c
  cases choice with
  | first linked | ignored linked =>
    rw [linked_c] at linked
    contradiction
  | refreshed linked | cleared linked =>
    rw [linked_c] at linked
    cases linked
    omega
  | @replaced c' best linked _ at_c reason =>
    rw [linked_c] at linked
    cases linked
    by_cases carries : tree.Carries k
    · apply turn.elected carries
      intro e later childOf carries_e
      exact (excused e later childOf carries_e).rank_or_pass.imp_left le_of_lt
    · rcases reason with ⟨leads, -⟩ | ⟨-, outranked⟩
      · exact absurd (turn.leads_child.mp leads) carries
      · have rank := (turn.outranks_iff at_c).mp outranked
        refine .usurped (Nat.le_refl k) turn.childOf carries was_best
          (lt_of_lt_of_le higher rank) displaced (excused_of_idle excused carries) ?_
        intro e later childOf idle_b
        rcases Nat.eq_or_lt_of_le later with rfl | after
        · exact le_refl _
        · exact le_trans (greatest e after childOf idle_b) rank
  | @retained c' best linked _ at_c reason =>
    rw [linked_c] at linked
    cases linked
    rw [linked_c]
    rcases reason with ⟨-, best_leads⟩ | ⟨alike, outranked⟩
    · rw [best_idle at_c] at best_leads
      contradiction
    · have idle := turn.leads_child_false.mp (alike.trans (best_idle at_c))
      refine .usurped (by omega) childOf_c idle_c was_best higher displaced
        (excused_of_idle excused idle) ?_
      intro e later childOf idle_b
      rcases Nat.eq_or_lt_of_le later with rfl | after
      · exact le_of_lt ((turn.outranks_false at_c).mp outranked)
      · exact greatest e after childOf idle_b

end Turn

namespace Standing

theorem step (standing : Standing tree p held (k + 1) parent.bestChild parent.bestDescendant)
    (turn : Turn tree before p k child) (choice : Choice before parent child k parent') :
    Standing tree p held k parent'.bestChild parent'.bestDescendant := by
  generalize links : parent.bestChild = best, leaf : parent.bestDescendant = descendant at standing
  cases standing with
  | vacant none_carries passed kept =>
    exact turn.step_vacant choice ⟨links, leaf⟩ none_carries passed kept
  | elected later childOf carries others =>
    exact turn.step_elected choice later ⟨links, leaf⟩ childOf carries others
  | untouched was_best bound excused lower =>
    exact turn.step_untouched choice links was_best bound excused lower
  | usurped later childOf idle was_best higher displaced excused greatest =>
    exact turn.step_usurped choice later links childOf idle was_best higher displaced excused
      greatest

theorem skip (standing : Standing tree p held (k + 1) best descendant) (other : ¬tree.ChildOf p k)
    (held_child : ∀ b, held = some b → tree.ChildOf p b) :
    Standing tree p held k best descendant := by
  have childOf_later : ∀ {e}, k ≤ e → tree.ChildOf p e → k + 1 ≤ e := by
    intro e later childOf
    rcases Nat.eq_or_lt_of_le later with rfl | after
    · exact absurd childOf other
    · exact after
  have still_excused : ∀ {e}, tree.Excused held (k + 1) e → tree.Excused held k e := by
    rintro e ⟨b, was_best, bound, carries, rank⟩
    have elsewhere : b ≠ k := fun here => other (here ▸ held_child b was_best)
    exact ⟨b, was_best, by omega, carries, rank⟩
  cases standing with
  | vacant none_carries passed kept =>
    refine .vacant ?_ (fun b was_best => Nat.le_of_lt (passed b was_best)) kept
    exact fun e later childOf => none_carries e (childOf_later later childOf) childOf
  | elected later childOf carries others =>
    refine .elected (by omega) childOf carries fun e later_e childOf_e carries_e => ?_
    exact (others e (childOf_later later_e childOf_e) childOf_e carries_e).imp_right still_excused
  | @untouched b _ was_best bound excused lower =>
    have elsewhere : b ≠ k := fun here => other (here ▸ held_child b was_best)
    refine .untouched was_best (by omega) ?_ ?_
    · exact fun e later childOf carries =>
        still_excused (excused e (childOf_later later childOf) childOf carries)
    · exact fun e later childOf => lower e (childOf_later later childOf) childOf
  | usurped later childOf idle was_best higher displaced excused greatest =>
    refine .usurped (by omega) childOf idle was_best higher displaced ?_ ?_
    · exact fun e later childOf carries =>
        still_excused (excused e (childOf_later later childOf) childOf carries)
    · exact fun e later childOf => greatest e (childOf_later later childOf) childOf

/-- What a parent holds before any of its children is considered. -/
theorem start (links : BestLinks (parents tree.nodes) p best descendant) :
    Standing tree p best tree.nodes.length best descendant := by
  have bounded : ∀ {e}, tree.ChildOf p e → e < tree.nodes.length := by
    intro e childOf
    simpa using (List.getElem?_eq_some_iff.mp childOf).1
  cases links with
  | unset =>
    refine .vacant ?_ (fun b was_best => by contradiction) ?_
    · exact fun e later childOf => absurd (bounded childOf) (Nat.not_lt.mpr later)
    · rintro ⟨b, e, was_best, -⟩
      contradiction
  | set childOf below =>
    refine .untouched rfl (bounded childOf) ?_ ?_
    · exact fun e later childOf => absurd (bounded childOf) (Nat.not_lt.mpr later)
    · exact fun e later childOf => absurd (bounded childOf) (Nat.not_lt.mpr later)

end Standing

end LmdGhost.BlockTree
