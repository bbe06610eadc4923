import LmdGhost.Proofs.BlockTree.Faults
import LmdGhost.Proofs.ForkChoice.Deviation
import LmdGhost.Proofs.ForkChoice.Selection
/-!
Heads and invalid payloads. No head is invalid itself. Its chain can have an invalid block, but only
after a call that left a block on an invalid one without marking it: the import of a block whose
parent was rejected before, or a rejection that failed on its way.
-/

namespace LmdGhost.ForkChoice

variable {fc fc' : ForkChoice} {history : List (Event ForkChoice Call)}

def Misjudges (fc : ForkChoice) (call : Call) : Prop :=
  ∃ induced, Induces fc call induced ∧ fc.tree.Misjudges induced

theorem faultsDescend_kept : KeptUnless BlockTree.FaultsDescend BlockTree.Misjudges where
  empty := fun _ _ _ _ _ _ _ => nofun
  first := by
    rintro pruneThreshold justifiedEpoch finalizedEpoch block ⟨-, -, misjudged⟩
    simp [BlockTree.node?_empty] at misjudged
  scores := fun _ _ => id
  after := fun wf descend => (wf.faultsDescend_after_iff descend _).mpr

section
variable {preset : Preset} {config : ChainConfig} {settings : NodeSettings} {anchor : Block}
  {slot : Slot} {balances : Balances}

/--
A head is not invalid in any state of a run. If there is an invalid block on its chain, the run has
a call that imported a block on an invalid one or a rejection that failed on its way.
-/
theorem head_not_invalid
    (started : start preset config settings anchor slot balances = .ok fc)
    (run : Run after (fun _ _ _ => True) fc history fc') {head : Node}
    (updated : fc'.updateHead.result = .ok head) :
    head.status ≠ .invalid ∧
      ((∃ ancestor ∈ fc'.updateHead.state.tree.nodes, ancestor.status = .invalid ∧
          fc'.updateHead.state.tree.descends ancestor.root head.root = true) →
        ∃ event ∈ history, event.before.Misjudges event.call) := by
  obtain ⟨wf, descend⟩ := faultsDescend_kept.of_run (faultsDescend_kept.of_start started) run
  have wf' : fc'.updateHead.state.tree.WellFormed := wellFormed_after wf .head
  obtain ⟨i, justified, -, -, at_leaf, viable⟩ := selectHead_ok wf' (updateHead_ok updated).1
  have sound : head.status.isInvalid = false := by
    simp only [BlockTree.isViable, Bool.and_eq_true, Bool.not_eq_true'] at viable
    exact viable.1.1
  refine ⟨fun invalid => ?_, ?_⟩
  · rw [invalid] at sound
    contradiction
  · rintro ⟨ancestor, member, invalid, descends⟩
    apply descend.resolve_left
    intro descend
    have descend' := faultsDescend_kept.after_head wf descend
    obtain ⟨a, at_a⟩ := List.mem_iff_getElem?.mp member
    have below := (wf'.descends_roots at_a at_leaf).mp descends
    have inherited := descend'.not_invalid below at_leaf sound at_a
    rw [invalid] at inherited
    contradiction

end

/-- A block is rejected, and then another one arrives on top of it. -/
def builtOnRejected : List Call :=
  [.time 16, syncingBlock 8 2 1 ⟨0, .ofNat 1⟩, .invalidPayload (.ofNat 2),
    syncingBlock 16 3 2 ⟨0, .ofNat 1⟩]

theorem head_built_on_rejected :
    ∃ history fc head ancestor,
      start .minimal .minimal .pruneEagerly genesis 0 genesisBalances = .ok atGenesis ∧
      Run after (fun _ _ _ => True) atGenesis history fc ∧ fc.updateHead.result = .ok head ∧
      ancestor ∈ fc.updateHead.state.tree.nodes ∧ ancestor.status = .invalid ∧
      fc.updateHead.state.tree.descends ancestor.root head.root = true := by
  have outset : Run after (fun _ _ _ => True) atGenesis [] atGenesis := .start
  obtain ⟨history, run⟩ := outset.calls builtOnRejected
  let fc := builtOnRejected.foldl after atGenesis
  have updated : fc.updateHead.result = .ok (fc.updateHead.state.tree.nodes[2]!) := by
    decide +kernel
  refine ⟨history, fc, _, fc.updateHead.state.tree.nodes[1]!, start_genesis, run, updated, ?_⟩
  decide +kernel

theorem misjudged_before_head_built_on_rejected :
    ∃ history fc, start .minimal .minimal .pruneEagerly genesis 0 genesisBalances = .ok atGenesis ∧
      Run after (fun _ _ _ => True) atGenesis history fc ∧
      ∃ event ∈ history, event.before.Misjudges event.call := by
  have outset : Run after (fun _ _ _ => True) atGenesis [] atGenesis := .start
  obtain ⟨history, run⟩ := outset.calls builtOnRejected
  let fc := builtOnRejected.foldl after atGenesis
  have updated : fc.updateHead.result = .ok (fc.updateHead.state.tree.nodes[2]!) := by
    decide +kernel
  refine ⟨history, fc, start_genesis, run, (head_not_invalid start_genesis run updated).2 ?_⟩
  exact ⟨fc.updateHead.state.tree.nodes[1]!, by decide +kernel⟩

end LmdGhost.ForkChoice
