import LmdGhost.Proofs.BlockTree.Calls
/-!
Properties that blocks have in step with their parents. What is read of a node and of the parent
that it is linked to stands in a fixed relation, such as that slots grow or that faults are handed
down. Calls keep this unless they change what is read, so the entry of a block has to be watched,
and the verdicts if statuses are read.
-/

namespace LmdGhost

/-- Along all links, what `f` reads of a parent and of its child is related. -/
def Graded {α : Type} (f : Block → α) (R : α → α → Prop) (nodes : List Node) : Prop :=
  ∀ ⦃i p : Nat⦄ ⦃node parent : Node⦄, nodes[i]? = some node → node.parentIndex = some p →
    nodes[p]? = some parent → R (f parent.toBlock) (f node.toBlock)

def Node.grade {α : Type} (f : Block → α) (node : Node) : Option Nat × α :=
  (node.parentIndex, f node.toBlock)

variable {α : Type} {f : Block → α} {R : α → α → Prop} {nodes nodes' : List Node}
  {node ancestor : Node} {a d : Nat}

namespace Graded

theorem of_grades (graded : Graded f R nodes)
    (same : nodes'.map (Node.grade f) = nodes.map (Node.grade f)) : Graded f R nodes' := by
  intro i p node parent at_i link at_p
  obtain ⟨node', at_i', alike⟩ := getElem?_of_map_eq same at_i
  obtain ⟨parent', at_p', alike'⟩ := getElem?_of_map_eq same at_p
  simp only [Node.grade, Prod.mk.injEq] at alike alike'
  rw [← alike.2, ← alike'.2]
  exact graded at_i' (alike.1.trans link) at_p'

/-- A relation that can be chained holds between a node and all its ancestors. -/
theorem of_below (graded : Graded f R nodes) (refl : ∀ a, R a a)
    (trans : ∀ {a b c}, R a b → R b c → R a c) (below : Below (parents nodes) a d)
    (at_a : nodes[a]? = some ancestor) (at_d : nodes[d]? = some node) :
    R (f ancestor.toBlock) (f node.toBlock) := by
  induction below generalizing node with
  | refl =>
    obtain rfl := Option.some.inj (at_a.symm.trans at_d)
    exact refl _
  | up link below ih =>
    obtain ⟨parent, at_p⟩ := below.exists_node
    obtain ⟨child, at_d', linked⟩ := exists_of_parents link
    obtain rfl := Option.some.inj (at_d.symm.trans at_d')
    exact trans (ih at_p) (graded at_d linked at_p)

end Graded

namespace BlockTree

variable {tree : BlockTree}

theorem graded_dropFirst (graded : Graded f R tree.nodes) (count : Nat) :
    Graded f R (tree.dropFirst count).nodes := by
  intro i p node' parent' at_i link at_p
  rw [getElem?_dropFirst] at at_i at_p
  obtain ⟨node, old_i, rfl⟩ := Option.map_eq_some_iff.mp at_i
  obtain ⟨parent, old_p, rfl⟩ := Option.map_eq_some_iff.mp at_p
  obtain ⟨q, linked, shifted⟩ := Option.bind_eq_some_iff.mp link
  rw [shiftDown?_eq_some.mp shifted] at linked
  have related : R (f parent.toBlock) (f node.toBlock) := graded old_i linked old_p
  exact related

theorem graded_confirm
    (blind : ∀ block : Block, block.status = .syncing → f { block with status := .valid } = f block)
    (graded : Graded f R tree.nodes) (root : Root) :
    Graded f R (tree.confirm root).state.nodes := by
  have blind' (node : Node) (syncing : node.status = .syncing) :
      Node.grade f { node with status := .valid } = node.grade f := by
    rw [Node.grade, Node.grade, blind _ syncing]
  obtain ⟨nodes, state, same⟩ := confirm_map blind' tree root
  rw [state]
  exact graded.of_grades same

theorem graded_reject
    (blind : ∀ block : Block,
      block.status = .syncing → f { block with status := .invalid } = f block)
    (graded : Graded f R tree.nodes) (root : Root) :
    Graded f R (tree.reject root).state.nodes := by
  have blind' (node : Node) (syncing : node.status = .syncing) :
      Node.grade f { node with status := .invalid } = node.grade f := by
    rw [Node.grade, Node.grade, blind _ syncing]
  obtain ⟨nodes, state, same⟩ := reject_map blind' tree root
  rw [state]
  exact graded.of_grades same

namespace WellFormed

theorem graded_applyScores (wf : tree.WellFormed) (graded : Graded f R tree.nodes)
    (change : ScoreChange) : Graded f R (tree.applyScores change).state.nodes :=
  graded.of_grades (map_applyScores (fun _ => rfl) (fun _ => rfl) wf change)

theorem graded_prune (wf : tree.WellFormed) (graded : Graded f R tree.nodes) (finalized : Root) :
    Graded f R (tree.prune finalized).state.nodes := by
  rcases wf.prune_cases finalized with ⟨same, -⟩ | ⟨count, -, dropped, -⟩
  · rwa [same]
  · rw [dropped]
    exact graded_dropFirst graded count

theorem graded_insert (wf : tree.WellFormed) (graded : Graded f R tree.nodes) (block : Block) :
    Graded f R (tree.insert block).nodes ↔ (tree.contains block.root = false →
      ∀ parent, block.parent.bind tree.node? = some parent → R (f parent.toBlock) (f block)) := by
  cases known : tree.contains block.root with
  | true =>
    rw [insert_of_contains known]
    simp [graded]
  | false =>
    have at_new : (tree.insert block).nodes[tree.nodes.length]? = some (tree.entry block) := by
      rw [nodes_insert_of_new known, List.getElem?_concat_length]
    have kept {i : Nat} (bound : i < tree.nodes.length) :
        (tree.insert block).nodes[i]? = tree.nodes[i]? := by
      rw [nodes_insert_of_new known, List.getElem?_append_left bound]
    have found : block.parent.bind tree.node? =
        (tree.entry block).parentIndex.bind (tree.nodes[·]?) := by
      rw [entry]
      cases block.parent <;> rfl
    rw [found]
    constructor
    · intro graded _ parent at_p
      obtain ⟨p, link, at_p⟩ := Option.bind_eq_some_iff.mp at_p
      have bound := (List.getElem?_eq_some_iff.mp at_p).1
      exact graded at_new link ((kept bound).trans at_p)
    · intro fits i p node parent at_i link at_p
      have before : p < i := ((wf.insert block).parent at_i link).1
      rw [nodes_insert_of_new known] at at_i
      rcases getElem?_concat at_i with at_i | ⟨rfl, rfl⟩
      · have bound := (List.getElem?_eq_some_iff.mp at_i).1
        rw [kept (Nat.lt_trans before bound)] at at_p
        exact graded at_i link at_p
      · rw [kept before] at at_p
        exact fits rfl parent (Option.bind_eq_some_iff.mpr ⟨p, link, at_p⟩)

end WellFormed

end BlockTree

end LmdGhost
