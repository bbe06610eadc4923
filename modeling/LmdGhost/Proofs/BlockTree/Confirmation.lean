import LmdGhost.Proofs.BlockTree.Grading
import LmdGhost.Proofs.BlockTree.Judgement
import LmdGhost.Proofs.BlockTree.Lineage
/-!
The walk of a confirmation. It goes up from a block while it comes by syncing ones, confirms these,
and fails if the first other one is invalid. It reaches all syncing blocks of a chain where every
block that a confirmed one stands on is confirmed as well. All calls keep this but two: the entry of
a confirmed block on one that is not, and a confirmation that fails on its way.
-/

namespace LmdGhost

/-- The positions that a walk comes by: while it is at a syncing node, it goes on to the parent. -/
inductive Visits (nodes : List Node) : Nat → Nat → Prop where
  | here : Visits nodes d d
  | up : nodes[d]? = some node → node.status = .syncing → node.parentIndex = some p →
      Visits nodes p i → Visits nodes d i

def Awaits (nodes : List Node) (d i : Nat) : Prop :=
  Visits nodes d i ∧ nodes[i]?.any (·.status.isOptimistic) = true

variable {nodes cur : List Node} {node : Node} {d i p : Nat}

theorem visits_iff (at_d : nodes[d]? = some node) : Visits nodes d i ↔
    i = d ∨ node.status = .syncing ∧ ∃ p, node.parentIndex = some p ∧ Visits nodes p i := by
  constructor
  · intro visits
    cases visits with
    | here => exact .inl rfl
    | up at_d' syncing link visits =>
      obtain rfl := Option.some.inj (at_d.symm.trans at_d')
      exact .inr ⟨syncing, _, link, visits⟩
  · rintro (rfl | ⟨syncing, p, link, visits⟩)
    · exact .here
    · exact .up at_d syncing link visits

theorem awaits_iff (at_d : nodes[d]? = some node) : Awaits nodes d i ↔
    node.status = .syncing ∧
      (i = d ∨ ∃ p, node.parentIndex = some p ∧ Awaits nodes p i) := by
  rw [Awaits, visits_iff at_d]
  by_cases syncing : node.status = .syncing
  · by_cases here : i = d
    · subst here
      simp [at_d, syncing, PayloadStatus.isOptimistic]
    · simp [syncing, here, Awaits, ← and_assoc, exists_and_right]
  · simp only [syncing, false_and, or_false, iff_false]
    rintro ⟨rfl, optimistic⟩
    rw [at_d, Option.any_some, PayloadStatus.isOptimistic_iff] at optimistic
    exact syncing optimistic

namespace Visits

theorem parent (visits : Visits nodes d i) (at_i : nodes[i]? = some node)
    (syncing : node.status = .syncing) (link : node.parentIndex = some p) : Visits nodes d p := by
  induction visits with
  | here => exact .up at_i syncing link .here
  | up at_d syncing' link' _ ih => exact .up at_d syncing' link' (ih at_i)

theorem to_below (visits : Visits nodes d i) (at_i : nodes[i]? = some node) :
    Below (parents nodes) i d := by
  induction visits with
  | here =>
    refine .refl ?_
    rw [length_parents]
    exact (List.getElem?_eq_some_iff.mp at_i).1
  | up at_d _ link _ ih => exact .up (parents_of_getElem? at_d link) (ih at_i)

end Visits

/-- How a walk ends: it fails at an invalid node if it comes by one. -/
def Ends (nodes : List Node) (d : Nat) (result : Except BlockTree.Error Unit) : Prop :=
  result = .ok () ∧
      (∀ i node, Visits nodes d i → nodes[i]? = some node → node.status ≠ .invalid) ∨
    ∃ i node, Visits nodes d i ∧ nodes[i]? = some node ∧ node.status = .invalid ∧
      result = .error (.statusFixed node.root .invalid .valid)

namespace Ends

variable {result : Except BlockTree.Error Unit}

theorem stop (at_d : nodes[d]? = some node) (sound : node.status ≠ .invalid)
    (last : node.status = .syncing → node.parentIndex = none) : Ends nodes d (.ok ()) := by
  refine .inl ⟨rfl, fun i other visits at_i => ?_⟩
  rcases (visits_iff at_d).mp visits with rfl | ⟨syncing, p, link, -⟩
  · obtain rfl := Option.some.inj (at_d.symm.trans at_i)
    exact sound
  · rw [last syncing] at link
    contradiction

theorem up (at_d : nodes[d]? = some node) (syncing : node.status = .syncing)
    (link : node.parentIndex = some p) (ends : Ends nodes p result) : Ends nodes d result := by
  rcases ends with ⟨done, sound⟩ | ⟨i, other, visits, found⟩
  · refine .inl ⟨done, fun i other visits at_i => ?_⟩
    rcases (visits_iff at_d).mp visits with rfl | ⟨-, q, link', visits⟩
    · obtain rfl := Option.some.inj (at_d.symm.trans at_i)
      simp [syncing]
    · obtain rfl := Option.some.inj (link.symm.trans link')
      exact sound i other visits at_i
  · exact .inr ⟨i, other, .up at_d syncing link visits, found⟩

end Ends

theorem ParentsFirst.parent (first : ParentsFirst (parents nodes)) (at_d : nodes[d]? = some node)
    (link : node.parentIndex = some p) : p < d ∧ ∃ parent, nodes[p]? = some parent := by
  have before := first (parents_of_getElem? at_d link)
  have bound := Nat.lt_trans before (List.getElem?_eq_some_iff.mp at_d).1
  exact ⟨before, _, List.getElem?_eq_getElem bound⟩

namespace BlockTree

theorem confirmFrom_of_settled (steps : Nat) (at_d : nodes[d]? = some node)
    (settled : node.status ≠ .syncing) : (confirmFrom (steps + 1) d nodes).state = nodes := by
  rw [confirmFrom]
  cases status : node.status with
  | syncing => contradiction
  | valid | preMerge | invalid => simp only [at_d, status, Outcome.state_done, Outcome.state_fail]

theorem confirmFrom_of_syncing (steps : Nat) (at_d : nodes[d]? = some node)
    (syncing : node.status = .syncing) :
    confirmFrom (steps + 1) d nodes =
      match node.parentIndex with
      | none => .done (nodes.set d { node with status := .valid }) ()
      | some p => confirmFrom steps p (nodes.set d { node with status := .valid }) := by
  cases link : node.parentIndex <;> simp only [confirmFrom, at_d, syncing, link]

/-- A walk confirms what awaits its verdict, whether it fails or not. -/
theorem confirmFrom_judged {steps : Nat} (first : ParentsFirst (parents nodes))
    (at_d : nodes[d]? = some node) (enough : d < steps) (same : ∀ i ≤ d, cur[i]? = nodes[i]?) :
    Judged .valid (Awaits nodes d) cur (confirmFrom steps d cur).state := by
  induction steps generalizing d node cur with
  | zero => omega
  | succ steps ih =>
    have at_d' := (same d (Nat.le_refl d)).trans at_d
    have awaits_iff {i : Nat} := awaits_iff at_d (i := i)
    by_cases syncing : node.status = .syncing
    · have single : Judged .valid (· = d) cur _ := .single at_d'
      rw [confirmFrom_of_syncing steps at_d' syncing]
      generalize { node with status := .valid } = changed at single ⊢
      cases link : node.parentIndex with
      | none =>
        simp only [syncing, link, reduceCtorEq, false_and, exists_false, or_false,
          true_and] at awaits_iff
        exact single.congr fun _ _ => awaits_iff.symm
      | some p =>
        simp only [syncing, link, Option.some.injEq, exists_eq_left', true_and] at awaits_iff
        obtain ⟨before, parent, at_p⟩ := first.parent at_d link
        refine (single.trans (ih at_p (by omega) fun i early => ?_)).congr
          fun _ _ => awaits_iff.symm
        rw [List.getElem?_set_ne (by omega)]
        exact same i (by omega)
    · rw [confirmFrom_of_settled steps at_d' syncing]
      exact .refl (fun _ awaits => syncing (awaits_iff.mp awaits).1) cur

/-- A walk fails if it comes by an invalid node, and only then. -/
theorem confirmFrom_ends {steps : Nat} (first : ParentsFirst (parents nodes))
    (at_d : nodes[d]? = some node) (enough : d < steps) (same : ∀ i ≤ d, cur[i]? = nodes[i]?) :
    Ends nodes d (confirmFrom steps d cur).result := by
  induction steps generalizing d node cur with
  | zero => omega
  | succ steps ih =>
    have at_d' := (same d (Nat.le_refl d)).trans at_d
    cases status : node.status with
    | syncing =>
      rw [confirmFrom_of_syncing steps at_d' status]
      cases link : node.parentIndex with
      | none => exact .stop at_d (by simp [status]) (by simp [link])
      | some p =>
        obtain ⟨before, parent, at_p⟩ := first.parent at_d link
        refine .up at_d status link (ih at_p (by omega) fun i early => ?_)
        rw [List.getElem?_set_ne (by omega)]
        exact same i (by omega)
    | invalid =>
      simp only [confirmFrom, at_d', status]
      exact .inr ⟨d, node, .here, at_d, status, rfl⟩
    | valid | preMerge =>
      simp only [confirmFrom, at_d', status]
      exact .stop at_d (by simp [status]) (by simp [status])

variable {tree : BlockTree} {top : Node} {root : Root}

/-- The blocks that a verdict on a block settles: the syncing ones that its chain begins with. -/
def awaiting (tree : BlockTree) (root : Root) : List Node :=
  (tree.chain root).takeWhile (·.status.isOptimistic)

/--
Whether every block that a confirmed one stands on is confirmed, so that no block above a confirmed
one awaits its verdict.
-/
def Grounded (tree : BlockTree) : Prop :=
  Graded (·.status.isConfirmed) (fun parent child => child = true → parent = true) tree.nodes

/--
A call that leaves a confirmed block on one that is not confirmed: it enters such a block, or it
confirms a syncing block and then fails at one above.
-/
def Presumes (tree : BlockTree) : Call → Prop
  | .insert block => tree.contains block.root = false ∧ block.status.isConfirmed = true ∧
      (block.parent.bind tree.node?).any (!·.status.isConfirmed) = true
  | .confirm root => (tree.node? root).any (·.status.isOptimistic) = true ∧
      ∃ cause, (tree.confirm root).result = .error cause
  | _ => False

namespace WellFormed

theorem mem_awaiting (wf : tree.WellFormed) (at_d : tree.nodes[d]? = some top) :
    node ∈ tree.awaiting top.root ↔ ∃ i, Awaits tree.nodes d i ∧ tree.nodes[i]? = some node := by
  induction d using Nat.strongRecOn generalizing top with
  | ind d ih =>
    simp only [awaits_iff at_d, awaiting]
    by_cases syncing : top.status = .syncing
    · have optimistic : PayloadStatus.syncing.isOptimistic = true := rfl
      cases link : top.parentIndex with
      | none =>
        simp only [wf.chain_eq at_d, link, List.takeWhile_cons, syncing, optimistic, if_true,
          List.takeWhile_nil, List.mem_singleton, true_and, reduceCtorEq, false_and, exists_false,
          or_false, exists_eq_left, at_d, Option.some.injEq]
        exact eq_comm
      | some p =>
        obtain ⟨before, parent, at_p, -⟩ := wf.parent at_d link
        simp only [wf.chain_of_link at_d link at_p, List.takeWhile_cons, syncing, optimistic,
          if_true, List.mem_cons]
        rw [← awaiting, ih p before at_p]
        simp only [Option.some.injEq, exists_eq_left', true_and, or_and_right, exists_or,
          exists_eq_left, at_d, eq_comm (a := top)]
    · have settled : top.status.isOptimistic = false := by
        simpa [PayloadStatus.isOptimistic] using syncing
      simp [wf.chain_eq at_d, settled, syncing]

theorem confirm_visits (wf : tree.WellFormed) (at_d : tree.nodes[d]? = some top) :
    Ends tree.nodes d (tree.confirm top.root).result ∧
      ∃ nodes, Judged .valid (Awaits tree.nodes d) tree.nodes nodes ∧
        (tree.confirm top.root).state = { tree with nodes } := by
  have bound := (List.getElem?_eq_some_iff.mp at_d).1
  have same (i : Nat) (_ : i ≤ d) : tree.nodes[i]? = tree.nodes[i]? := rfl
  simp only [BlockTree.confirm, indexOf, wf.index_root at_d, Outcome.state_lift,
    Outcome.result_lift, Outcome.mapError_id]
  exact ⟨confirmFrom_ends wf.first at_d (Nat.lt_succ_of_lt bound) same, _,
    confirmFrom_judged wf.first at_d (Nat.lt_succ_of_lt bound) same, rfl⟩

/-- Whether it ends or fails, a confirmation confirms what awaits the verdict, and nothing else. -/
theorem confirm_eq_judge (wf : tree.WellFormed) (root : Root) :
    (tree.confirm root).state = tree.judge .valid fun node => node ∈ tree.awaiting root := by
  cases index : tree.index[root]? with
  | none =>
    have none_awaits : tree.awaiting root = [] := by simp [awaiting, chain, index]
    have unchanged : Judged .valid (fun _ => False) tree.nodes tree.nodes :=
      .refl (fun _ => id) tree.nodes
    have same : (tree.confirm root).state = tree := by simp [BlockTree.confirm, indexOf, index]
    rw [same]
    exact eq_judge unchanged fun _ _ => by simp [none_awaits]
  | some d =>
    obtain ⟨top, at_d, rfl⟩ := wf.indexed.mp index
    obtain ⟨-, nodes, judged, state⟩ := wf.confirm_visits at_d
    rw [state]
    refine eq_judge judged fun {i node} at_i _ => ?_
    rw [decide_eq_true_iff, wf.mem_awaiting at_d]
    constructor
    · intro awaits
      exact ⟨i, awaits, at_i⟩
    · rintro ⟨j, awaits, at_j⟩
      rwa [wf.root_unique at_i at_j rfl]

/-- Only the confirmation of a syncing block changes the tree, whether it ends or fails. -/
theorem confirm_unchanged_iff (wf : tree.WellFormed) (root : Root) :
    (tree.confirm root).state = tree ↔ (tree.node? root).any (·.status.isOptimistic) = false := by
  cases index : tree.index[root]? with
  | none => simp [BlockTree.confirm, indexOf, node?, index]
  | some d =>
    obtain ⟨top, at_d, rfl⟩ := wf.indexed.mp index
    obtain ⟨-, nodes, judged, state⟩ := wf.confirm_visits at_d
    rw [wf.node?_root at_d, Option.any_some, state, Bool.eq_false_iff, ne_eq,
      PayloadStatus.isOptimistic_iff]
    constructor
    · intro same syncing
      have awaits : Awaits tree.nodes d d := (awaits_iff at_d).mpr ⟨syncing, .inl rfl⟩
      exact judged.ne_of_chosen awaits at_d (by simp [syncing]) (congrArg BlockTree.nodes same)
    · intro settled
      have none_awaits (i : Nat) : ¬Awaits tree.nodes d i :=
        fun awaits => settled ((awaits_iff at_d).mp awaits).1
      rw [judged.unique (.refl none_awaits tree.nodes)]

/-- A confirmation that does not fail on its way leaves what it confirms on confirmed blocks. -/
theorem grounded_confirm (wf : tree.WellFormed) (grounded : tree.Grounded)
    (sober : ¬tree.Presumes (.confirm root)) : (tree.confirm root).state.Grounded := by
  cases index : tree.index[root]? with
  | none =>
    have same : (tree.confirm root).state = tree := by simp [BlockTree.confirm, indexOf, index]
    rwa [same]
  | some d =>
    obtain ⟨top, at_d, rfl⟩ := wf.indexed.mp index
    obtain ⟨ends, nodes, judged, state⟩ := wf.confirm_visits at_d
    have sound {i p : Nat} {parent : Node} (awaits : Awaits tree.nodes d i)
        (visits : Visits tree.nodes d p) (at_p : tree.nodes[p]? = some parent) :
        parent.status ≠ .invalid := by
      rcases ends with ⟨-, sound⟩ | ⟨_, _, -, -, -, failed⟩
      · exact sound p parent visits at_p
      · refine absurd ⟨?_, _, failed⟩ sober
        rw [wf.node?_root at_d, Option.any_some, ((awaits_iff at_d).mp awaits).1]
        rfl
    rw [state]
    intro i p child' parent' at_i link at_p confirmed
    obtain ⟨child, old_i, same⟩ := judged.exists_of_getElem? at_i
    obtain ⟨parent, old_p, ⟨-, rfl⟩ | ⟨unmarked, rfl⟩⟩ := judged.exists_of_getElem? at_p
    · rfl
    · rcases same with ⟨awaits, rfl⟩ | ⟨-, rfl⟩
      · have syncing := awaits.2
        rw [old_i, Option.any_some, PayloadStatus.isOptimistic_iff] at syncing
        have visits := awaits.1.parent old_i syncing link
        cases status : parent'.status with
        | syncing =>
          refine absurd ⟨visits, ?_⟩ unmarked
          rw [old_p, Option.any_some, status]
          rfl
        | invalid => exact absurd status (sound awaits visits old_p)
        | valid | preMerge =>
          simp only [status]
          rfl
      · exact grounded old_i link old_p confirmed

/-- A confirmed block stands on confirmed ones unless a call presumes it. -/
theorem grounded_after (wf : tree.WellFormed) (grounded : tree.Grounded) {call : Call}
    (sober : ¬tree.Presumes call) : (tree.after call).Grounded := by
  cases call with
  | insert block =>
    refine (wf.graded_insert grounded block).mpr fun new parent found confirmed => ?_
    apply Decidable.byContradiction
    intro unconfirmed
    refine sober ⟨new, confirmed, ?_⟩
    rw [found]
    simpa using unconfirmed
  | applyScores change => exact wf.graded_applyScores grounded change
  | prune finalized => exact wf.graded_prune grounded finalized
  | setPruneThreshold pruneThreshold => exact grounded
  | confirm root => exact wf.grounded_confirm grounded sober
  | reject root =>
    refine graded_reject (fun block syncing => ?_) grounded root
    rw [syncing]
    rfl

/-- In a grounded tree, what a walk to a confirmed block has not come by is confirmed. -/
theorem visits_or_confirmed (grounded : tree.Grounded) {a : Nat} {ancestor : Node}
    (sound : ∀ i node, Visits tree.nodes d i → tree.nodes[i]? = some node →
      node.status ≠ .invalid)
    (below : Below (parents tree.nodes) a d) (at_a : tree.nodes[a]? = some ancestor) :
    Visits tree.nodes d a ∨ ancestor.status.isConfirmed = true := by
  induction below with
  | refl => exact .inl .here
  | @up d p link below ih =>
    obtain ⟨child, at_d, linked⟩ := exists_of_parents link
    by_cases syncing : child.status = .syncing
    · apply (ih fun i node visits => sound i node (.up at_d syncing linked visits)).imp_left
      exact Visits.up at_d syncing linked
    · have sound := sound d child .here at_d
      have confirmed : child.status.isConfirmed = true := by
        cases status : child.status with
        | syncing | invalid => contradiction
        | valid | preMerge => rfl
      have spread := grounded.of_below (fun _ => id) (fun left right => left ∘ right)
        (.up link below) at_a at_d
      exact .inr (spread confirmed)

/-- In a grounded tree, a confirmation that does not fail confirms all that is syncing. -/
theorem confirm_eq_judge_descends (wf : tree.WellFormed) (grounded : tree.Grounded)
    (done : (tree.confirm root).result = .ok ()) : (tree.confirm root).state =
      tree.judge .valid fun node => node.status.isOptimistic && tree.descends node.root root := by
  cases index : tree.index[root]? with
  | none => simp [BlockTree.confirm, indexOf, index] at done
  | some d =>
    obtain ⟨top, at_d, rfl⟩ := wf.indexed.mp index
    obtain ⟨ends, nodes, judged, state⟩ := wf.confirm_visits at_d
    rcases ends with ⟨-, sound⟩ | ⟨_, _, -, -, -, failed⟩
    · rw [state]
      refine eq_judge judged fun {i node} at_i _ => ?_
      rw [Bool.and_eq_true, wf.descends_roots at_i at_d, Awaits, at_i, Option.any_some, and_comm,
        PayloadStatus.isOptimistic_iff]
      refine and_congr_right fun syncing => ⟨fun visits => visits.to_below at_i, fun below => ?_⟩
      refine (visits_or_confirmed grounded sound below at_i).resolve_right fun confirmed => ?_
      rw [syncing] at confirmed
      contradiction
    · rw [failed] at done
      contradiction

/-- In a grounded tree, a confirmation that does not fail leaves nothing of its chain syncing. -/
theorem confirm_settles (wf : tree.WellFormed) (grounded : tree.Grounded)
    (done : (tree.confirm root).result = .ok ()) :
    ∀ node ∈ (tree.confirm root).state.nodes,
      (tree.confirm root).state.descends node.root root = true → node.status ≠ .syncing := by
  intro node member descends syncing
  have links := confirm_sameButStatuses tree root
  rw [wf.descends_congr (wf.confirm root) links.index_eq links.parents_eq] at descends
  rw [wf.confirm_eq_judge_descends grounded done] at member
  obtain ⟨old, -, rfl⟩ := List.mem_map.mp member
  by_cases marked : (old.status.isOptimistic && tree.descends old.root root) = true
  · rw [if_pos marked] at syncing
    contradiction
  · rw [if_neg marked] at descends syncing
    refine marked ?_
    rw [Bool.and_eq_true, PayloadStatus.isOptimistic_iff]
    exact ⟨syncing, descends⟩

end WellFormed

end BlockTree

end LmdGhost
