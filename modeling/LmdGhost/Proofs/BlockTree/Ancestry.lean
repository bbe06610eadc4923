import LmdGhost.BlockTree.Chain
/-!
Ancestry by position. Links to parents alone decide which node stands below which, so operations
that keep these links keep all of ancestry. Where parents stand before their children, the chain of
a node lists exactly its ancestors, the nearest first.
-/

namespace LmdGhost

variable {nodes : List Node} {node : Node}

def parents (nodes : List Node) : List (Option Nat) :=
  nodes.map (·.parentIndex)

@[simp]
theorem length_parents (nodes : List Node) : (parents nodes).length = nodes.length := by
  simp [parents]

theorem getElem?_parents (nodes : List Node) (i : Nat) :
    (parents nodes)[i]? = nodes[i]?.map (·.parentIndex) := by
  simp [parents]

theorem parents_of_getElem? {i p : Nat} (h : nodes[i]? = some node)
    (link : node.parentIndex = some p) : (parents nodes)[i]? = some (some p) := by
  simp [getElem?_parents, h, link]

theorem exists_of_parents {parent : Option Nat} {i : Nat} (h : (parents nodes)[i]? = some parent) :
    ∃ node, nodes[i]? = some node ∧ node.parentIndex = parent := by
  rw [getElem?_parents] at h
  exact Option.map_eq_some_iff.mp h

/-- The second position is the first one or stands somewhere below it. -/
inductive Below (parents : List (Option Nat)) (a : Nat) : Nat → Prop where
  | refl : a < parents.length → Below parents a a
  | up : parents[d]? = some (some p) → Below parents a p → Below parents a d

def ParentsFirst (parents : List (Option Nat)) : Prop :=
  ∀ {d p : Nat}, parents[d]? = some (some p) → p < d

/-- What holds of a position if it holds of the children holds of every position. -/
theorem ParentsFirst.induction {parents : List (Option Nat)} (first : ParentsFirst parents)
    {P : Nat → Prop} (step : ∀ p, (∀ c, parents[c]? = some (some p) → P c) → P p) (p : Nat) :
    P p := by
  generalize size : parents.length - p = n
  induction n using Nat.strongRecOn generalizing p with
  | ind n ih =>
    apply step p
    intro c child
    have before := first child
    have bound := (List.getElem?_eq_some_iff.mp child).1
    exact ih (parents.length - c) (by omega) c rfl

namespace Below

variable {parents : List (Option Nat)} {a b c d p : Nat}

theorem lt_length (below : Below parents a d) : d < parents.length := by
  cases below with
  | refl bound => exact bound
  | up link _ => exact (List.getElem?_eq_some_iff.mp link).1

theorem trans (first : Below parents a b) (second : Below parents b c) : Below parents a c := by
  induction second with
  | refl => exact first
  | up link _ ih => exact .up link ih

theorem left_lt_length (below : Below parents a d) : a < parents.length := by
  induction below with
  | refl bound => exact bound
  | up _ _ ih => exact ih

theorem le (first : ParentsFirst parents) (below : Below parents a d) : a ≤ d := by
  induction below with
  | refl => exact Nat.le_refl _
  | up link _ ih => exact Nat.le_trans ih (Nat.le_of_lt (first link))

theorem of_parent (first : ParentsFirst parents) (link : parents[d]? = some (some p)) :
    Below parents p d := by
  have bound := (List.getElem?_eq_some_iff.mp link).1
  exact .up link (.refl (Nat.lt_trans (first link) bound))

/-- A node is properly below another if its parent is below it. -/
theorem proper_iff (first : ParentsFirst parents) {parent : Option Nat}
    (link : parents[d]? = some parent) :
    a ≠ d ∧ Below parents a d ↔ ∃ p, parent = some p ∧ Below parents a p := by
  constructor
  · rintro ⟨proper, below⟩
    cases below with
    | refl => contradiction
    | up link' below =>
      rw [link] at link'
      exact ⟨_, Option.some.inj link', below⟩
  · rintro ⟨p, rfl, below⟩
    have lower := below.le first
    have before := first link
    exact ⟨by omega, .up link below⟩

/-- The chain from a node to a proper ancestor ends with a child of that ancestor. -/
theorem exists_child (below : Below parents a d) (proper : a ≠ d) :
    ∃ c, parents[c]? = some (some a) ∧ Below parents c d := by
  induction below with
  | refl => contradiction
  | @up d p link below ih =>
    have bound := (List.getElem?_eq_some_iff.mp link).1
    by_cases same : a = p
    · subst same
      exact ⟨d, link, .refl bound⟩
    · obtain ⟨c, child, below⟩ := ih same
      exact ⟨c, child, .up link below⟩

theorem exists_node (below : Below (LmdGhost.parents nodes) a d) :
    ∃ node, nodes[d]? = some node := by
  have bound := below.lt_length
  rw [length_parents] at bound
  exact ⟨_, List.getElem?_eq_getElem bound⟩

theorem exists_ancestor (below : Below (LmdGhost.parents nodes) a d) :
    ∃ node, nodes[a]? = some node := by
  have bound := below.left_lt_length
  rw [length_parents] at bound
  exact ⟨_, List.getElem?_eq_getElem bound⟩

end Below

namespace BlockTree

variable {d steps : Nat}

theorem chainFrom_succ (nodes : List Node) (steps : Nat) (h : nodes[d]? = some node) :
    chainFrom nodes (steps + 1) d =
      node :: (match node.parentIndex with
        | none => []
        | some p => chainFrom nodes steps p) := by
  rw [chainFrom, h]
  dsimp only
  cases node.parentIndex <;> rfl

theorem mem_chainFrom (first : ParentsFirst (parents nodes))
    (enough : d < steps) :
    node ∈ chainFrom nodes steps d ↔ ∃ a, Below (parents nodes) a d ∧ nodes[a]? = some node := by
  induction steps generalizing d with
  | zero => omega
  | succ steps ih =>
    cases at_d : nodes[d]? with
    | none =>
      simp only [chainFrom, at_d, List.not_mem_nil, false_iff]
      rintro ⟨a, below, -⟩
      have bound := below.lt_length
      rw [length_parents] at bound
      rw [List.getElem?_eq_getElem bound] at at_d
      contradiction
    | some top =>
      have bound : d < (parents nodes).length := by
        simpa using (List.getElem?_eq_some_iff.mp at_d).1
      rw [chainFrom_succ nodes steps at_d, List.mem_cons]
      cases link : top.parentIndex with
      | none =>
        simp only [List.not_mem_nil, or_false]
        constructor
        · rintro rfl
          exact ⟨d, .refl bound, at_d⟩
        · rintro ⟨a, below, at_a⟩
          cases below with
          | refl => exact Option.some.inj (at_a.symm.trans at_d)
          | up linked => simp [getElem?_parents, at_d, link] at linked
      | some p =>
        have linked := parents_of_getElem? at_d link
        have earlier := first linked
        rw [ih (by omega)]
        constructor
        · rintro (rfl | ⟨a, below, at_a⟩)
          · exact ⟨d, .refl bound, at_d⟩
          · exact ⟨a, .up linked below, at_a⟩
        · rintro ⟨a, below, at_a⟩
          cases below with
          | refl => exact .inl (Option.some.inj (at_a.symm.trans at_d))
          | up linked' below =>
            rw [linked] at linked'
            obtain rfl := Option.some.inj (Option.some.inj linked')
            exact .inr ⟨a, below, at_a⟩

/-- What a search along a chain finds is the nearest ancestor that fits. -/
theorem find?_chainFrom (first : ParentsFirst (parents nodes))
    (enough : d < steps) {fits : Node → Bool}
    (found : (chainFrom nodes steps d).find? fits = some node) :
    ∃ a, Below (parents nodes) a d ∧ nodes[a]? = some node ∧ fits node = true ∧
      ∀ {b other}, Below (parents nodes) b d → nodes[b]? = some other → fits other = true →
        Below (parents nodes) b a := by
  induction steps generalizing d with
  | zero => omega
  | succ steps ih =>
    cases at_d : nodes[d]? with
    | none => simp [chainFrom, at_d] at found
    | some top =>
      have bound : d < (parents nodes).length := by
        simpa using (List.getElem?_eq_some_iff.mp at_d).1
      rw [chainFrom_succ nodes steps at_d, List.find?_cons] at found
      cases fit : fits top with
      | true =>
        simp only [fit, Option.some.injEq] at found
        subst found
        exact ⟨d, .refl bound, at_d, fit, fun below _ _ => below⟩
      | false =>
        simp only [fit] at found
        cases link : top.parentIndex with
        | none => simp [link] at found
        | some p =>
          have linked := parents_of_getElem? at_d link
          have earlier := first linked
          simp only [link] at found
          obtain ⟨a, below, at_a, fit_a, nearest⟩ := ih (by omega) found
          refine ⟨a, .up linked below, at_a, fit_a, ?_⟩
          intro b other below' at_b fit_b
          cases below' with
          | refl =>
            rw [at_d] at at_b
            cases at_b
            rw [fit] at fit_b
            contradiction
          | up linked' below' =>
            rw [linked] at linked'
            obtain rfl := Option.some.inj (Option.some.inj linked')
            exact nearest below' at_b fit_b

/-- Whether a block is on the chain of another, as links to parents have it. -/
def descends (tree : BlockTree) (ancestor descendant : Root) : Bool :=
  (tree.chain descendant).any (·.root == ancestor)

end BlockTree

end LmdGhost
