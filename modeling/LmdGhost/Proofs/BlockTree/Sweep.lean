import LmdGhost.Proofs.BlockTree.Judgement
/-!
The sweep of a rejection. It passes the nodes behind a block once, in the order of import, and looks
at nothing but the parent of each: since parents stand first, what it leaves behind is determined by
which nodes are tainted, and it fails at the first confirmed node on a tainted one.
-/

namespace LmdGhost

/--
What is invalid once a sweep has passed: the block it starts from, what was invalid before, and the
syncing nodes whose parents are invalid then and do not stand in front of that block.
-/
inductive Tainted (nodes : List Node) (start : Nat) : Nat → Prop where
  | marked : Tainted nodes start start
  | before : nodes[i]? = some node → node.status = .invalid → Tainted nodes start i
  | inherited : nodes[i]? = some node → node.status = .syncing → node.parentIndex = some p →
      start ≤ p → Tainted nodes start p → Tainted nodes start i

/-- A confirmed node on a tainted one, at which a sweep fails. -/
def Clashes (nodes : List Node) (start i : Nat) : Prop :=
  ∃ node p, nodes[i]? = some node ∧ node.status.isConfirmed = true ∧ node.parentIndex = some p ∧
    start ≤ p ∧ Tainted nodes start p

/-- The nodes after a sweep from `start` has passed those in front of a position. -/
def SweptTo (nodes : List Node) (start k : Nat) (cur : List Node) : Prop :=
  Judged .invalid (fun i => i < k ∧ Tainted nodes start i) nodes cur

variable {nodes cur : List Node} {node : Node} {start i k : Nat}

/-- A node whose parent is tainted and does not stand in front of the block of the sweep. -/
def Exposed (nodes : List Node) (start : Nat) (node : Node) : Prop :=
  ∃ p, node.parentIndex = some p ∧ start ≤ p ∧ Tainted nodes start p

theorem tainted_iff (behind : start < k) (at_k : nodes[k]? = some node) :
    Tainted nodes start k ↔
      node.status = .invalid ∨ node.status = .syncing ∧ Exposed nodes start node := by
  constructor
  · intro tainted
    cases tainted with
    | marked => omega
    | before at_k' invalid =>
      obtain rfl := Option.some.inj (at_k.symm.trans at_k')
      exact .inl invalid
    | inherited at_k' syncing link inside tainted =>
      obtain rfl := Option.some.inj (at_k.symm.trans at_k')
      exact .inr ⟨syncing, _, link, inside, tainted⟩
  · rintro (invalid | ⟨syncing, p, link, inside, tainted⟩)
    · exact .before at_k invalid
    · exact .inherited at_k syncing link inside tainted

theorem clashes_iff (at_k : nodes[k]? = some node) :
    Clashes nodes start k ↔ node.status.isConfirmed = true ∧ Exposed nodes start node := by
  simp [Clashes, Exposed, at_k]

/-- In front of the block that a sweep starts from, only what was invalid before is tainted. -/
theorem Tainted.invalid_in_front (first : ParentsFirst (parents nodes))
    (tainted : Tainted nodes start i) (in_front : i < start) (at_i : nodes[i]? = some node) :
    node.status = .invalid := by
  cases tainted with
  | marked => omega
  | before at_i' invalid =>
    rw [at_i] at at_i'
    cases at_i'
    exact invalid
  | inherited at_i' _ link inside =>
    have before := first (parents_of_getElem? at_i' link)
    omega

theorem Clashes.behind (first : ParentsFirst (parents nodes)) (clashes : Clashes nodes start i) :
    start < i := by
  obtain ⟨child, p, at_i, -, link, inside, -⟩ := clashes
  have before := first (parents_of_getElem? at_i link)
  omega

namespace SweptTo

theorem getElem?_self (swept : SweptTo nodes start k cur) : cur[k]? = nodes[k]? :=
  (swept k).2 fun here => Nat.lt_irrefl k here.1

/-- What a sweep has passed is what it leaves behind in the end. -/
theorem getElem?_eq {k' : Nat} {cur' : List Node} (swept : SweptTo nodes start k cur)
    (swept' : SweptTo nodes start k' cur') (behind : i < k) (behind' : i < k') :
    cur[i]? = cur'[i]? := by
  by_cases tainted : Tainted nodes start i
  · rw [(swept i).1 ⟨behind, tainted⟩, (swept' i).1 ⟨behind', tainted⟩]
  · rw [(swept i).2 fun here => tainted here.2, (swept' i).2 fun here => tainted here.2]

/-- Behind it the sweep leaves invalid what is tainted. -/
theorem isInvalid_iff (swept : SweptTo nodes start k cur) (behind : i < k)
    (at_i : cur[i]? = some node) : node.status.isInvalid = true ↔ Tainted nodes start i := by
  obtain ⟨old, at_i', ⟨⟨-, tainted⟩, rfl⟩ | ⟨sound, rfl⟩⟩ := Judged.exists_of_getElem? swept at_i
  · exact iff_of_true rfl tainted
  · have sound (tainted : Tainted nodes start i) : False := sound ⟨behind, tainted⟩
    refine iff_of_false (fun invalid => sound (.before at_i' ?_)) sound
    simpa [PayloadStatus.isInvalid] using invalid

/-- The sweep goes on over a node that is not tainted or was invalid before. -/
theorem pass (swept : SweptTo nodes start k cur) (at_k : nodes[k]? = some node)
    (untouched : Tainted nodes start k → node.status = .invalid) :
    SweptTo nodes start (k + 1) cur := by
  refine Judged.congr swept fun {i other} at_i sound => ?_
  have apart : Tainted nodes start i → i ≠ k := by
    rintro tainted rfl
    rw [at_k] at at_i
    cases at_i
    exact sound (untouched tainted)
  constructor
  · rintro ⟨behind, tainted⟩
    exact ⟨by omega, tainted⟩
  · rintro ⟨behind, tainted⟩
    have other := apart tainted
    exact ⟨by omega, tainted⟩

/-- The sweep goes on over a tainted node by marking it. -/
theorem mark (swept : SweptTo nodes start k cur) (at_k : nodes[k]? = some node)
    (tainted : Tainted nodes start k) :
    SweptTo nodes start (k + 1) (cur.set k { node with status := .invalid }) := by
  have at_k' := swept.getElem?_self.trans at_k
  refine (Judged.trans swept (.single at_k')).congr fun {i _} _ _ => ?_
  constructor
  · rintro (⟨behind, tainted⟩ | rfl)
    · exact ⟨by omega, tainted⟩
    · exact ⟨by omega, tainted⟩
  · rintro ⟨behind, tainted⟩
    by_cases here : i = k
    · exact .inr here
    · exact .inl ⟨by omega, tainted⟩

/-- Marking the block itself is the first step. -/
theorem outset (first : ParentsFirst (parents nodes)) (at_start : nodes[start]? = some node) :
    SweptTo nodes start (start + 1) (nodes.set start { node with status := .invalid }) := by
  refine (Judged.single at_start).congr fun {i other} at_i sound => ?_
  constructor
  · rintro rfl
    exact ⟨Nat.lt_succ_self _, .marked⟩
  · rintro ⟨behind, tainted⟩
    apply Decidable.byContradiction
    intro other
    exact sound (tainted.invalid_in_front first (by omega) at_i)

theorem take_eq (swept : SweptTo nodes start k cur) (first : ParentsFirst (parents nodes)) :
    cur.take start = nodes.take start := by
  have inside : Judged .invalid (fun i => start ≤ i ∧ i < k ∧ Tainted nodes start i) nodes cur := by
    refine Judged.congr swept fun {i other} at_i sound => ⟨fun here => ⟨?_, here⟩, And.right⟩
    apply Decidable.byContradiction
    intro in_front
    exact sound (here.2.invalid_in_front first (Nat.not_le.mp in_front) at_i)
  apply List.ext_getElem?
  intro i
  rw [List.getElem?_take, List.getElem?_take]
  split
  · exact (inside i).2 fun here => by omega
  · rfl

end SweptTo

namespace BlockTree

/-- The sweep sees from the status of the parent whether a node is exposed. -/
theorem exposed_iff (first : ParentsFirst (parents nodes)) (at_k : nodes[k]? = some node)
    (swept : SweptTo nodes start k cur) : Exposed nodes start node ↔
      ∃ p parent, node.parentIndex = some p ∧ start ≤ p ∧ cur[p]? = some parent ∧
        parent.status.isInvalid = true := by
  refine exists_congr fun p => ?_
  rw [exists_and_left, exists_and_left]
  refine and_congr_right fun link => and_congr_right fun _ => ?_
  have before := first (parents_of_getElem? at_k link)
  have bound := (List.getElem?_eq_some_iff.mp (swept.getElem?_self.trans at_k)).1
  have at_p := List.getElem?_eq_getElem (Nat.lt_trans before bound)
  rw [← swept.isInvalid_iff before at_p, at_p]
  simp

theorem rejectAt_of_exposed (at_k : cur[k]? = some node) {p : Nat} {parent : Node}
    (link : node.parentIndex = some p) (inside : start ≤ p) (at_p : cur[p]? = some parent)
    (invalid : parent.status.isInvalid = true) :
    rejectAt start k cur = match node.status with
      | .syncing => .done (cur.set k { node with status := .invalid }) [node.root]
      | .invalid => .done cur []
      | .valid | .preMerge => .fail cur (.statusFixed node.root node.status .invalid) := by
  simp only [rejectAt, at_k, link, if_neg (Nat.not_lt.mpr inside), at_p, invalid, if_true]
  cases node.status <;> rfl

theorem rejectAt_of_covered (first : ParentsFirst (parents nodes)) (at_k : nodes[k]? = some node)
    (swept : SweptTo nodes start k cur) (covered : ¬Exposed nodes start node) :
    rejectAt start k cur = .done cur [] := by
  rw [exposed_iff first at_k swept] at covered
  have at_k' := swept.getElem?_self.trans at_k
  simp only [rejectAt, at_k']
  cases link : node.parentIndex with
  | none => rfl
  | some p =>
    have before := first (parents_of_getElem? at_k link)
    have bound := (List.getElem?_eq_some_iff.mp at_k').1
    have at_p := List.getElem?_eq_getElem (Nat.lt_trans before bound)
    dsimp only
    split
    · rfl
    · rename_i inside
      simp only [at_p]
      rw [if_neg fun invalid => covered ⟨p, _, link, Nat.not_lt.mp inside, at_p, invalid⟩]

/-- The sweep goes on and lists what it has changed, or the next node clashes and it fails. -/
theorem rejectAt_swept (first : ParentsFirst (parents nodes)) (behind : start < k)
    (at_k : nodes[k]? = some node) (swept : SweptTo nodes start k cur) :
    (¬Clashes nodes start k ∧ SweptTo nodes start (k + 1) (rejectAt start k cur).state ∧
      (rejectAt start k cur).result =
        .ok (rejudged nodes[k]?.toList (rejectAt start k cur).state[k]?.toList)) ∨
    (Clashes nodes start k ∧ (rejectAt start k cur).state = cur ∧
      (rejectAt start k cur).result = .error (.statusFixed node.root node.status .invalid)) := by
  have at_k' := swept.getElem?_self.trans at_k
  have unlisted : [] = rejudged nodes[k]?.toList cur[k]?.toList := by
    rw [at_k, at_k', rejudged_self]
  rw [clashes_iff at_k]
  by_cases exposed : Exposed nodes start node
  · obtain ⟨p, parent, link, inside, at_p, invalid⟩ := (exposed_iff first at_k swept).mp exposed
    rw [rejectAt_of_exposed at_k' link inside at_p invalid]
    cases status : node.status with
    | syncing =>
      have marked := swept.mark at_k ((tainted_iff behind at_k).mpr (.inr ⟨status, exposed⟩))
      have bound := (List.getElem?_eq_some_iff.mp at_k').1
      refine .inl ⟨fun clashes => Bool.false_ne_true clashes.1, marked, ?_⟩
      simp [at_k, List.getElem?_set_self bound, rejudged, status]
    | invalid =>
      exact .inl ⟨fun clashes => Bool.false_ne_true clashes.1, swept.pass at_k fun _ => status,
        congrArg _ unlisted⟩
    | valid | preMerge => exact .inr ⟨⟨rfl, exposed⟩, rfl, rfl⟩
  · rw [rejectAt_of_covered first at_k swept exposed]
    refine .inl ⟨fun clashes => exposed clashes.2, swept.pass at_k fun tainted => ?_,
      congrArg _ unlisted⟩
    exact ((tainted_iff behind at_k).mp tainted).resolve_right fun here => exposed here.2

/-- A sweep over the remaining nodes lists what it has changed, or it fails at the first clash. -/
theorem rejectFrom_swept {count : Nat} (first : ParentsFirst (parents nodes)) (behind : start < k)
    (rest : k + count = nodes.length) (swept : SweptTo nodes start k cur) :
    ((∀ i, k ≤ i → ¬Clashes nodes start i) ∧
      SweptTo nodes start nodes.length (rejectFrom start count k cur).state ∧
      (rejectFrom start count k cur).result =
        .ok (rejudged (nodes.drop k) ((rejectFrom start count k cur).state.drop k))) ∨
    ∃ c node, k ≤ c ∧ nodes[c]? = some node ∧ Clashes nodes start c ∧
      (∀ i, k ≤ i → i < c → ¬Clashes nodes start i) ∧
      SweptTo nodes start c (rejectFrom start count k cur).state ∧
      (rejectFrom start count k cur).result =
        .error (.statusFixed node.root node.status .invalid) := by
  induction count generalizing k cur with
  | zero =>
    obtain rfl : k = nodes.length := rest
    refine .inl ⟨?_, swept, ?_⟩
    · rintro i past ⟨node, -, at_i, -⟩
      exact absurd (List.getElem?_eq_some_iff.mp at_i).1 (Nat.not_lt.mpr past)
    · rw [List.drop_length]
      rfl
  | succ count ih =>
    have at_k := List.getElem?_eq_getElem (show k < nodes.length by omega)
    rw [rejectFrom]
    rcases rejectAt_swept first behind at_k swept with
      ⟨clear, further, done⟩ | ⟨clashes, same, failed⟩
    · have from_next {i : Nat} (past : k ≤ i) (clear' : k + 1 ≤ i → ¬Clashes nodes start i) :
          ¬Clashes nodes start i := by
        by_cases here : i = k
        · subst here
          exact clear
        · exact clear' (by omega)
      rw [Outcome.result_bind_of_ok _ done, Outcome.state_bind_of_ok _ done]
      rcases ih (by omega) (by omega) further with
        ⟨clear', swept', ended⟩ | ⟨c, node, past, at_c, clashes, clear', swept', failed⟩
      · rw [Outcome.result_bind_of_ok _ ended, Outcome.state_bind_of_ok _ ended]
        have at_k' := further.getElem?_eq swept' (Nat.lt_succ_self k) (by omega)
        refine .inl ⟨fun i past => from_next past (clear' i), swept', ?_⟩
        rw [Outcome.state_done, Outcome.result_done, rejudged_drop swept'.length_eq.symm (k := k),
          at_k']
      · rw [Outcome.result_bind_of_error _ failed, Outcome.state_bind_of_error _ failed]
        refine .inr ⟨c, node, by omega, at_c, clashes, ?_, swept', rfl⟩
        exact fun i past lower => from_next past fun past' => clear' i past' lower
    · rw [Outcome.result_bind_of_error _ failed, Outcome.state_bind_of_error _ failed, same]
      exact .inr ⟨k, _, Nat.le_refl k, at_k, clashes, fun i past lower => by omega, swept, rfl⟩

/-- A rejection confirms nothing, and it does not take a confirmation back. -/
theorem reject_confirmed (tree : BlockTree) (root : Root) :
    ∃ nodes, (tree.reject root).state = { tree with nodes } ∧
      nodes.map (·.status.isConfirmed) = tree.nodes.map (·.status.isConfirmed) := by
  have blind (node : Node) (syncing : node.status = .syncing) :
      PayloadStatus.isConfirmed .invalid = node.status.isConfirmed := by
    rw [syncing]
    rfl
  exact reject_map blind tree root

theorem reject_of_unknown {tree : BlockTree} {root : Root} (index : tree.index[root]? = none) :
    tree.reject root = .fail tree (.unknownBlock root) := by
  simp [reject, indexOf, index]

theorem reject_of_settled {tree : BlockTree} {root : Root} (index : tree.index[root]? = some start)
    (at_start : tree.nodes[start]? = some node) (settled : node.status ≠ .syncing) :
    tree.reject root =
      if node.status = .invalid then .done tree []
      else .fail tree (.statusFixed root node.status .invalid) := by
  cases status : node.status with
  | syncing => contradiction
  | invalid | valid | preMerge => simp [reject, indexOf, index, nodeAt, at_start, status]

/-- A syncing block is marked, and the nodes after it are swept. -/
theorem reject_of_syncing {tree : BlockTree} {root : Root} (index : tree.index[root]? = some start)
    (at_start : tree.nodes[start]? = some node) (syncing : node.status = .syncing) :
    let marked := tree.nodes.set start { node with status := .invalid }
    let swept := rejectFrom start (marked.length - (start + 1)) (start + 1) marked
    (tree.reject root).state = { tree with nodes := swept.state } ∧
      (tree.reject root).result = swept.result.map (root :: ·) := by
  simp only [reject, indexOf, index, nodeAt, at_start, syncing]
  generalize tree.nodes.set start _ = marked
  generalize rejectFrom start (marked.length - (start + 1)) (start + 1) marked = swept
  have lifted := Outcome.result_lift (fun nodes => { tree with nodes }) id swept
  cases result : swept.result with
  | error cause =>
    rw [result] at lifted
    rw [Outcome.state_bind_of_error _ lifted, Outcome.result_bind_of_error _ lifted]
    exact ⟨rfl, rfl⟩
  | ok roots =>
    rw [result] at lifted
    rw [Outcome.state_bind_of_ok _ lifted, Outcome.result_bind_of_ok _ lifted]
    exact ⟨rfl, rfl⟩

/--
The rejection of a syncing block marks what is tainted and lists what it has changed. It fails where
a tainted node has a confirmed one on top, and has then marked what stands in front of the first
such node.
-/
theorem WellFormed.reject_swept {tree : BlockTree} (wf : tree.WellFormed)
    (at_start : tree.nodes[start]? = some node) (syncing : node.status = .syncing) :
    ((∀ i, ¬Clashes tree.nodes start i) ∧
      ∃ nodes, SweptTo tree.nodes start tree.nodes.length nodes ∧
        (tree.reject node.root).state = { tree with nodes } ∧
        (tree.reject node.root).result = .ok (rejudged tree.nodes nodes)) ∨
    ∃ c other nodes, tree.nodes[c]? = some other ∧ Clashes tree.nodes start c ∧
      (∀ i < c, ¬Clashes tree.nodes start i) ∧ SweptTo tree.nodes start c nodes ∧
      (tree.reject node.root).state = { tree with nodes } ∧
      (tree.reject node.root).result = .error (.statusFixed other.root other.status .invalid) := by
  have bound := (List.getElem?_eq_some_iff.mp at_start).1
  have outset := SweptTo.outset wf.first at_start
  obtain ⟨state, result⟩ := reject_of_syncing (wf.index_root at_start) at_start syncing
  rw [state, result, List.length_set]
  generalize tree.nodes.set start { node with status := .invalid } = marked at outset ⊢
  rcases rejectFrom_swept wf.first (Nat.lt_succ_self start) (Nat.add_sub_cancel' bound) outset with
    ⟨clear, swept, done⟩ | ⟨c, other, -, at_c, clashes, clear, swept, failed⟩
  · rw [done]
    refine .inl ⟨fun i clashes => clear i (clashes.behind wf.first) clashes, _, swept, rfl, ?_⟩
    have at_start' := (swept start).1 ⟨bound, .marked⟩
    generalize (rejectFrom start _ _ marked).state = final at swept at_start' ⊢
    rw [rejudged_of_take (swept.take_eq wf.first),
      rejudged_drop swept.length_eq.symm (k := start), at_start', at_start]
    simp [rejudged, syncing, Except.map]
  · rw [failed]
    refine .inr ⟨c, other, _, at_c, clashes, ?_, swept, rfl, rfl⟩
    exact fun i lower clashes => clear i (clashes.behind wf.first) lower clashes

/-- Only the rejection of a syncing block changes the tree, whether it ends or fails. -/
theorem WellFormed.reject_unchanged_iff {tree : BlockTree} (wf : tree.WellFormed) (root : Root) :
    (tree.reject root).state = tree ↔ (tree.node? root).any (·.status.isOptimistic) = false := by
  cases index : tree.index[root]? with
  | none => simp [reject_of_unknown index, node?, index]
  | some start =>
    obtain ⟨node, at_start, rfl⟩ := wf.indexed.mp index
    rw [wf.node?_root at_start, Option.any_some, Bool.eq_false_iff, ne_eq,
      PayloadStatus.isOptimistic_iff]
    by_cases syncing : node.status = .syncing
    · refine iff_of_false (fun same => ?_) (not_not_intro syncing)
      have other : node.status ≠ .invalid := by simp [syncing]
      rcases wf.reject_swept at_start syncing with
        ⟨-, nodes, swept, state, -⟩ | ⟨c, _, nodes, -, clashes, -, swept, state, -⟩
      · have bound := (List.getElem?_eq_some_iff.mp at_start).1
        rw [state] at same
        exact Judged.ne_of_chosen swept ⟨bound, .marked⟩ at_start other
          (congrArg BlockTree.nodes same)
      · rw [state] at same
        exact Judged.ne_of_chosen swept ⟨clashes.behind wf.first, .marked⟩ at_start other
          (congrArg BlockTree.nodes same)
    · refine iff_of_true ?_ syncing
      rw [reject_of_settled index at_start syncing]
      split <;> rfl

end BlockTree

end LmdGhost
