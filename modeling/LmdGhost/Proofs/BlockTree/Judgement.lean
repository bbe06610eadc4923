import LmdGhost.Proofs.BlockTree.Verdicts
/-!
What verdicts have changed. A verdict is passed on nodes at chosen positions and on no others, which
determines the nodes it leaves behind; the roots of those whose status differs from before are
listed in the order of the nodes, so each of them once and ancestors first.
-/

namespace LmdGhost

/-- Whether no verdict is awaited or has been against the block. -/
def PayloadStatus.isConfirmed (status : PayloadStatus) : Bool :=
  status.isValid || status.isPreMerge

theorem PayloadStatus.isOptimistic_iff {status : PayloadStatus} :
    status.isOptimistic = true ↔ status = .syncing :=
  beq_iff_eq

theorem PayloadStatus.sound_of_confirmed {status : PayloadStatus}
    (confirmed : status.isConfirmed = true) : status.isInvalid = false := by
  cases status with
  | syncing | invalid => contradiction
  | valid | preMerge => rfl

variable {status : PayloadStatus} {chosen chosen' : Nat → Prop} {nodes nodes' nodes'' : List Node}
  {node : Node} {i k : Nat}

/-- The second list is the first one after a verdict on the nodes at the chosen positions. -/
def Judged (status : PayloadStatus) (chosen : Nat → Prop) (nodes nodes' : List Node) : Prop :=
  ∀ i, (chosen i → nodes'[i]? = nodes[i]?.map fun node => { node with status }) ∧
    (¬chosen i → nodes'[i]? = nodes[i]?)

namespace Judged

theorem refl (none : ∀ i, ¬chosen i) (nodes : List Node) : Judged status chosen nodes nodes :=
  fun i => ⟨fun here => absurd here (none i), fun _ => rfl⟩

theorem single (at_k : nodes[k]? = some node) :
    Judged status (· = k) nodes (nodes.set k { node with status }) := by
  intro i
  constructor
  · rintro rfl
    rw [List.getElem?_set_self (List.getElem?_eq_some_iff.mp at_k).1, at_k, Option.map_some]
  · intro other
    rw [List.getElem?_set_ne (Ne.symm other)]

theorem trans (first : Judged status chosen nodes nodes')
    (second : Judged status chosen' nodes' nodes'') :
    Judged status (fun i => chosen i ∨ chosen' i) nodes nodes'' := by
  intro i
  obtain ⟨passed, kept⟩ := first i
  obtain ⟨passed', kept'⟩ := second i
  constructor
  · intro here
    by_cases later : chosen' i
    · rw [passed' later]
      by_cases earlier : chosen i
      · rw [passed earlier, Option.map_map]
        rfl
      · rw [kept earlier]
    · rw [kept' later, passed (here.resolve_right later)]
  · intro nowhere
    rw [not_or] at nowhere
    rw [kept' nowhere.2, kept nowhere.1]

theorem congr (judged : Judged status chosen nodes nodes')
    (same : ∀ {i node}, nodes[i]? = some node → node.status ≠ status → (chosen i ↔ chosen' i)) :
    Judged status chosen' nodes nodes' := by
  intro i
  cases at_i : nodes[i]? with
  | none =>
    have past : nodes'[i]? = none := by
      by_cases here : chosen i
      · rw [(judged i).1 here, at_i, Option.map_none]
      · rw [(judged i).2 here, at_i]
    simp [past]
  | some node =>
    by_cases already : node.status = status
    · subst already
      have kept : nodes'[i]? = some node := by
        by_cases here : chosen i
        · rw [(judged i).1 here, at_i, Option.map_some]
        · rw [(judged i).2 here, at_i]
      simp [kept]
    · rw [← same at_i already, ← at_i]
      exact judged i

theorem unique (left : Judged status chosen nodes nodes')
    (right : Judged status chosen nodes nodes'') : nodes' = nodes'' := by
  apply List.ext_getElem?
  intro i
  by_cases here : chosen i
  · rw [(left i).1 here, (right i).1 here]
  · rw [(left i).2 here, (right i).2 here]

theorem exists_of_getElem? (judged : Judged status chosen nodes nodes')
    (at_i : nodes'[i]? = some node) : ∃ old, nodes[i]? = some old ∧
      (chosen i ∧ node = { old with status } ∨ ¬chosen i ∧ node = old) := by
  by_cases here : chosen i
  · rw [(judged i).1 here] at at_i
    obtain ⟨old, at_i', rfl⟩ := Option.map_eq_some_iff.mp at_i
    exact ⟨old, at_i', .inl ⟨here, rfl⟩⟩
  · rw [(judged i).2 here] at at_i
    exact ⟨node, at_i, .inr ⟨here, rfl⟩⟩

theorem ne_of_chosen (judged : Judged status chosen nodes nodes') (here : chosen i)
    (at_i : nodes[i]? = some node) (other : node.status ≠ status) : nodes' ≠ nodes := by
  rintro rfl
  have same := (judged i).1 here
  rw [at_i, Option.map_some, Option.some.injEq] at same
  exact other (congrArg (·.status) same)

theorem length_eq (judged : Judged status chosen nodes nodes') : nodes'.length = nodes.length := by
  have past (i : Nat) : nodes'.length ≤ i ↔ nodes.length ≤ i := by
    rw [← List.getElem?_eq_none_iff, ← List.getElem?_eq_none_iff]
    by_cases here : chosen i
    · rw [(judged i).1 here, Option.map_eq_none_iff]
    · rw [(judged i).2 here]
  exact Nat.le_antisymm ((past _).mpr (Nat.le_refl _)) ((past _).mp (Nat.le_refl _))

end Judged

namespace BlockTree

variable {tree : BlockTree} {choice : Node → Bool}

def judge (tree : BlockTree) (status : PayloadStatus) (choice : Node → Bool) : BlockTree :=
  { tree with
    nodes := tree.nodes.map fun node => if choice node then { node with status } else node }

theorem judged_judge (tree : BlockTree) (status : PayloadStatus) (choice : Node → Bool) :
    Judged status (fun i => tree.nodes[i]?.any choice = true) tree.nodes
      (tree.judge status choice).nodes := by
  intro i
  simp only [judge, List.getElem?_map]
  cases tree.nodes[i]? with
  | none => simp
  | some node => cases chosen : choice node <;> simp [chosen]

/-- The nodes are told by a choice of blocks as well as by one of positions. -/
theorem eq_judge (judged : Judged status chosen tree.nodes nodes')
    (same : ∀ {i node}, tree.nodes[i]? = some node → node.status ≠ status →
      (chosen i ↔ choice node = true)) :
    { tree with nodes := nodes' } = tree.judge status choice := by
  have judged' : Judged status (fun i => tree.nodes[i]?.any choice = true) tree.nodes nodes' := by
    refine judged.congr fun {i node} at_i other => ?_
    rw [at_i, Option.any_some]
    exact same at_i other
  rw [judged'.unique (tree.judged_judge status choice)]
  rfl

end BlockTree

/-- The roots of the nodes whose statuses differ, in the order of the nodes. -/
def rejudged (nodes nodes' : List Node) : List Root :=
  ((nodes.zip nodes').filter fun (old, new) => old.status != new.status).map (·.1.root)

theorem rejudged_cons (old new : Node) (nodes nodes' : List Node) :
    rejudged (old :: nodes) (new :: nodes') =
      if old.status = new.status then rejudged nodes nodes'
      else old.root :: rejudged nodes nodes' := by
  by_cases same : old.status = new.status <;> simp [rejudged, same]

theorem rejudged_self (nodes : List Node) : rejudged nodes nodes = [] := by
  induction nodes with
  | nil => rfl
  | cons node nodes ih => rw [rejudged_cons, if_pos rfl, ih]

theorem rejudged_sublist (nodes nodes' : List Node) :
    (rejudged nodes nodes').Sublist (nodes.map (·.root)) := by
  induction nodes generalizing nodes' with
  | nil => exact .slnil
  | cons old nodes ih =>
    cases nodes' with
    | nil => exact List.nil_sublist _
    | cons new nodes' =>
      rw [rejudged_cons, List.map_cons]
      split
      · exact (ih nodes').cons _
      · exact (ih nodes').cons_cons _

theorem rejudged_append {front front' : List Node} (length : front.length = front'.length) :
    rejudged (front ++ nodes) (front' ++ nodes') =
      rejudged front front' ++ rejudged nodes nodes' := by
  simp only [rejudged, List.zip_append length, List.filter_append, List.map_append]

/-- The change at one position comes before those at later ones. -/
theorem rejudged_drop (length : nodes.length = nodes'.length) :
    rejudged (nodes.drop k) (nodes'.drop k) =
      rejudged nodes[k]?.toList nodes'[k]?.toList ++
        rejudged (nodes.drop (k + 1)) (nodes'.drop (k + 1)) := by
  rw [List.drop_eq_getElem?_toList_append, List.drop_eq_getElem?_toList_append (l := nodes')]
  apply rejudged_append
  simp [Option.length_toList, length]

/-- Where two lists agree, no verdict has been passed. -/
theorem rejudged_of_take (same : nodes'.take k = nodes.take k) :
    rejudged nodes nodes' = rejudged (nodes.drop k) (nodes'.drop k) := by
  have split : rejudged nodes nodes' =
      rejudged (nodes.take k ++ nodes.drop k) (nodes'.take k ++ nodes'.drop k) := by
    rw [List.take_append_drop, List.take_append_drop]
  rw [split, same, rejudged_append rfl, rejudged_self, List.nil_append]

end LmdGhost
