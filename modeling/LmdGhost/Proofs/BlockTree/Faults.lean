import LmdGhost.Proofs.BlockTree.Grading
import LmdGhost.Proofs.BlockTree.Sweep
/-!
Invalid payloads and the blocks on top of them. Where every block that stands on an invalid one is
invalid too, the chain of a block that is not invalid has no invalid block at all. All calls keep
this but two: the entry of a block that is not invalid on an invalid one, and a rejection that fails
after it has marked its block.
-/

namespace LmdGhost

def Inherits (nodes : List Node) (i : Nat) : Prop :=
  ∀ ⦃p : Nat⦄ ⦃node parent : Node⦄, nodes[i]? = some node → node.parentIndex = some p →
    nodes[p]? = some parent → parent.status.isInvalid = true → node.status.isInvalid = true

instance (nodes : List Node) (i : Nat) : Decidable (Inherits nodes i) :=
  decidable_of_iff (nodes[i]?.all (fun node => (node.parentIndex.bind (nodes[·]?)).all fun parent =>
      !parent.status.isInvalid || node.status.isInvalid) = true) <| by
    simp only [Inherits, Option.all_eq_true, Option.bind_eq_some_iff, Bool.or_eq_true,
      Bool.not_eq_true', ← Bool.not_eq_true, ← imp_iff_not_or]
    constructor
    · intro all p node parent at_i link at_p
      exact all node at_i parent ⟨p, link, at_p⟩
    · rintro inherits node at_i parent ⟨p, link, at_p⟩
      exact inherits at_i link at_p

/-- Where no node clashes, what is tainted is inherited from a parent whatever its place. -/
theorem Tainted.child {nodes : List Node} {start i p : Nat} {node : Node}
    (first : ParentsFirst (parents nodes)) (inherits : Inherits nodes i)
    (clear : ¬Clashes nodes start i) (at_i : nodes[i]? = some node)
    (link : node.parentIndex = some p) (tainted : Tainted nodes start p) :
    Tainted nodes start i := by
  by_cases inside : start ≤ p
  · cases status : node.status with
    | syncing => exact .inherited at_i status link inside tainted
    | invalid => exact .before at_i status
    | valid | preMerge =>
      refine absurd ⟨node, p, at_i, ?_, link, inside, tainted⟩ clear
      rw [status]
      rfl
  · have before := first (parents_of_getElem? at_i link)
    have bound := (List.getElem?_eq_some_iff.mp at_i).1
    have at_p := List.getElem?_eq_getElem (Nat.lt_trans before bound)
    have invalid := tainted.invalid_in_front first (Nat.not_le.mp inside) at_p
    refine .before at_i ?_
    simpa [PayloadStatus.isInvalid] using
      inherits at_i link at_p (by rw [invalid]; rfl)

namespace BlockTree

variable {tree tree' : BlockTree} {nodes : List Node} {node : Node} {block : Block} {root : Root}
  {start i k : Nat}

/-- Every block that stands on an invalid one is invalid. -/
def FaultsDescend (tree : BlockTree) : Prop :=
  ∀ i, Inherits tree.nodes i

instance (tree : BlockTree) : Decidable tree.FaultsDescend :=
  decidable_of_iff (∀ i < tree.nodes.length, Inherits tree.nodes i) <| by
    refine ⟨fun inside i p node parent at_i => ?_, fun descend i _ => descend i⟩
    exact inside i (List.getElem?_eq_some_iff.mp at_i).1 at_i

/--
A call that leaves a block that is not invalid on an invalid one: it enters such a block, or it
rejects a syncing block and then fails at one below.
-/
def Misjudges (tree : BlockTree) : Call → Prop
  | .insert block => tree.contains block.root = false ∧ block.status.isInvalid = false ∧
      (block.parent.bind tree.node?).any (·.status.isInvalid) = true
  | .reject root => (tree.node? root).any (·.status.isOptimistic) = true ∧
      ∃ cause, (tree.reject root).result = .error cause
  | _ => False

/-- Faults descend where being invalid is handed down along all links. -/
theorem faultsDescend_iff : tree.FaultsDescend ↔
    Graded (·.status.isInvalid) (fun parent child => parent = true → child = true) tree.nodes :=
  Iff.rfl

theorem FaultsDescend.not_invalid (descend : tree.FaultsDescend) {a d : Nat} {ancestor : Node}
    (below : Below (parents tree.nodes) a d) (at_d : tree.nodes[d]? = some node)
    (sound : node.status.isInvalid = false) (at_a : tree.nodes[a]? = some ancestor) :
    ancestor.status.isInvalid = false := by
  have spread := (faultsDescend_iff.mp descend).of_below (fun _ => id)
    (fun left right => right ∘ left) below at_a at_d
  rw [sound] at spread
  exact Bool.eq_false_iff.mpr fun invalid => Bool.false_ne_true (spread invalid)

namespace WellFormed

theorem faultsDescend_insert (wf : tree.WellFormed) (descend : tree.FaultsDescend)
    (block : Block) : (tree.insert block).FaultsDescend ↔ ¬tree.Misjudges (.insert block) := by
  rw [faultsDescend_iff, wf.graded_insert (faultsDescend_iff.mp descend), Misjudges]
  cases block.parent.bind tree.node? with
  | none => simp
  | some parent => cases block.status.isInvalid <;> simp

theorem reject_cases (wf : tree.WellFormed) (root : Root) :
    (tree.reject root).state = tree ∨ tree.Misjudges (.reject root) ∨
      ∃ roots, (tree.reject root).result = .ok (root :: roots) := by
  cases index : tree.index[root]? with
  | none =>
    rw [reject_of_unknown index]
    exact .inl rfl
  | some start =>
    obtain ⟨node, at_start, rfl⟩ := wf.indexed.mp index
    by_cases syncing : node.status = .syncing
    · right
      obtain ⟨-, result⟩ := reject_of_syncing index at_start syncing
      rw [Misjudges, wf.node?_root at_start, Option.any_some, syncing, result]
      generalize (rejectFrom _ _ _ _).result = swept
      cases swept with
      | error cause => exact .inl ⟨rfl, cause, rfl⟩
      | ok roots => exact .inr ⟨roots, rfl⟩
    · left
      rw [reject_of_settled index at_start syncing]
      split <;> rfl

theorem faultsDescend_of_swept (wf : tree.WellFormed) (descend : tree.FaultsDescend)
    (clear : ∀ i, ¬Clashes tree.nodes start i)
    (swept : SweptTo tree.nodes start tree.nodes.length nodes) :
    FaultsDescend { tree with nodes } := by
  intro i p child parent at_i link at_p invalid
  have bound := (List.getElem?_eq_some_iff.mp at_i).1
  have bound' := (List.getElem?_eq_some_iff.mp at_p).1
  rw [swept.length_eq] at bound bound'
  rw [swept.isInvalid_iff bound' at_p] at invalid
  rw [swept.isInvalid_iff bound at_i]
  obtain ⟨old, at_i, same⟩ := Judged.exists_of_getElem? swept at_i
  have link' : old.parentIndex = some p := by
    rcases same with ⟨-, rfl⟩ | ⟨-, rfl⟩ <;> exact link
  exact invalid.child wf.first (descend i) (clear i) at_i link'

/-- A sweep that fails leaves a confirmed block on an invalid one. -/
theorem not_faultsDescend_of_clashes (wf : tree.WellFormed) (clashes : Clashes tree.nodes start k)
    (swept : SweptTo tree.nodes start k nodes) : ¬FaultsDescend { tree with nodes } := by
  intro descend
  obtain ⟨child, p, at_k, confirmed, link, -, tainted⟩ := clashes
  have before := wf.first (parents_of_getElem? at_k link)
  have at_k' := swept.getElem?_self.trans at_k
  have bound := (List.getElem?_eq_some_iff.mp at_k').1
  have at_p := List.getElem?_eq_getElem (Nat.lt_trans before bound)
  have invalid := descend k at_k' link at_p ((swept.isInvalid_iff before at_p).mpr tainted)
  rw [PayloadStatus.sound_of_confirmed confirmed] at invalid
  contradiction

/-- A rejection that fails is misjudged if it has marked its block; otherwise it changes nothing. -/
theorem faultsDescend_reject (wf : tree.WellFormed) (descend : tree.FaultsDescend) (root : Root) :
    (tree.reject root).state.FaultsDescend ↔ ¬tree.Misjudges (.reject root) := by
  cases index : tree.index[root]? with
  | none => simp [Misjudges, reject_of_unknown index, node?, index, descend]
  | some start =>
    obtain ⟨node, at_start, rfl⟩ := wf.indexed.mp index
    rw [Misjudges, wf.node?_root at_start, Option.any_some, PayloadStatus.isOptimistic_iff]
    by_cases syncing : node.status = .syncing
    · rcases wf.reject_swept at_start syncing with
        ⟨clear, nodes, swept, state, done⟩ | ⟨c, _, nodes, -, clashes, -, swept, state, failed⟩
      · rw [state, done]
        refine iff_of_true (wf.faultsDescend_of_swept descend clear swept) ?_
        rintro ⟨-, cause, failed⟩
        contradiction
      · rw [state, failed]
        refine iff_of_false ?_ (not_not_intro ⟨syncing, _, rfl⟩)
        exact wf.not_faultsDescend_of_clashes clashes swept
    · rw [(wf.reject_unchanged_iff node.root).mpr]
      · exact iff_of_true descend fun misjudged => syncing misjudged.1
      · rw [wf.node?_root at_start, Option.any_some, Bool.eq_false_iff, ne_eq,
          PayloadStatus.isOptimistic_iff]
        exact syncing

/-- Faults go on to descend under every call that is not misjudged, and under no other. -/
theorem faultsDescend_after_iff (wf : tree.WellFormed) (descend : tree.FaultsDescend)
    (call : Call) : (tree.after call).FaultsDescend ↔ ¬tree.Misjudges call := by
  have graded := faultsDescend_iff.mp descend
  cases call with
  | insert block => exact wf.faultsDescend_insert descend block
  | applyScores change => exact iff_of_true (wf.graded_applyScores graded change) not_false
  | prune finalized => exact iff_of_true (wf.graded_prune graded finalized) not_false
  | setPruneThreshold pruneThreshold => exact iff_of_true descend not_false
  | confirm root =>
    refine iff_of_true (graded_confirm (fun _ syncing => ?_) graded root) not_false
    rw [syncing]
    rfl
  | reject root => exact wf.faultsDescend_reject descend root

end WellFormed

end BlockTree

end LmdGhost
