import LmdGhost.Proofs.ForkChoice.Calls
/-!
Properties of the tree that a few calls may end. What holds of the empty tree and is kept by all
calls of the tree but some holds in all states of a run until one of these calls is made.
-/

namespace LmdGhost.ForkChoice

def ComesTo (deviates : BlockTree → BlockTree.Call → Prop) (fc : ForkChoice) (call : Call) : Prop :=
  ∃ induced, Induces fc call induced ∧ deviates fc.tree induced

/--
The property holds of empty trees and is kept by all calls that do not deviate; neither the entry of
a first block nor new weights deviate.
-/
structure KeptUnless (P : BlockTree → Prop) (deviates : BlockTree → BlockTree.Call → Prop) :
    Prop where
  empty : ∀ pruneThreshold justifiedEpoch finalizedEpoch,
    P (.empty pruneThreshold justifiedEpoch finalizedEpoch)
  first : ∀ pruneThreshold justifiedEpoch finalizedEpoch block,
    ¬deviates (.empty pruneThreshold justifiedEpoch finalizedEpoch) (.insert block)
  scores : ∀ tree change, ¬deviates tree (.applyScores change)
  after : ∀ {tree : BlockTree} {call : BlockTree.Call}, tree.WellFormed → P tree →
    ¬deviates tree call → P (tree.after call)

namespace KeptUnless

variable {P : BlockTree → Prop} {deviates : BlockTree → BlockTree.Call → Prop}
  {fc fc' : ForkChoice}

theorem after_call (kept : KeptUnless P deviates) (wf : fc.tree.WellFormed) (holds : P fc.tree)
    (call : Call) : P (fc.after call).tree ∨ ComesTo deviates fc call := by
  rcases fc.tree_after call with same | ⟨induced, induces, tree⟩
  · rw [same]
    exact .inl holds
  · by_cases deviates : deviates fc.tree induced
    · exact .inr ⟨induced, induces, deviates⟩
    · rw [tree]
      exact .inl (kept.after wf holds deviates)

theorem after_head (kept : KeptUnless P deviates) (wf : fc.tree.WellFormed) (holds : P fc.tree) :
    P (fc.after .head).tree := by
  apply (kept.after_call wf holds .head).resolve_right
  rintro ⟨_, ⟨⟩, deviates⟩
  exact kept.scores _ _ deviates

theorem of_start {preset : Preset} {config : ChainConfig} {settings : NodeSettings}
    {anchor : Block} {slot : Slot} {balances : Balances} (kept : KeptUnless P deviates)
    (started : start preset config settings anchor slot balances = .ok fc) :
    fc.tree.WellFormed ∧ P fc.tree := by
  obtain ⟨head, state⟩ := start_after started
  obtain ⟨block, tree, -⟩ := anchored_tree preset config settings anchor slot balances head
  have wf := wellFormed_anchored preset config settings anchor slot balances head
  have holds := kept.after (BlockTree.empty_wellFormed _ _ _) (kept.empty _ _ _)
    (kept.first settings.pruneThreshold (preset.epochOf anchor.slot) (preset.epochOf anchor.slot)
      block)
  rw [BlockTree.after, ← tree] at holds
  rw [state]
  exact ⟨wellFormed_after wf .head, kept.after_head wf holds⟩

/-- The property holds in all states of a run until a call deviates. -/
theorem of_run {init : ForkChoice} {history : List (Event ForkChoice Call)}
    {allowed : List (Event ForkChoice Call) → ForkChoice → Call → Prop}
    (kept : KeptUnless P deviates) (initial : init.tree.WellFormed ∧ P init.tree)
    (run : Run ForkChoice.after allowed init history fc) :
    fc.tree.WellFormed ∧
      (P fc.tree ∨ ∃ event ∈ history, ComesTo deviates event.before event.call) := by
  let Q (history : List (Event ForkChoice Call)) (fc : ForkChoice) : Prop :=
    fc.tree.WellFormed ∧
      (P fc.tree ∨ ∃ event ∈ history, ComesTo deviates event.before event.call)
  refine Run.invariant (P := Q) ⟨initial.1, .inl initial.2⟩ ?_ run
  rintro history fc call ⟨wf, holds | ⟨event, member, deviated⟩⟩ -
  · refine ⟨wellFormed_after wf call, ?_⟩
    apply (kept.after_call wf holds call).imp_right
    intro deviated
    exact ⟨_, List.mem_cons_self, deviated⟩
  · exact ⟨wellFormed_after wf call, .inr ⟨event, List.mem_cons_of_mem _ member, deviated⟩⟩

end KeptUnless

end LmdGhost.ForkChoice
