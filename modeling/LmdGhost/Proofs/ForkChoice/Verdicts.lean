import LmdGhost.Proofs.BlockTree.Confirmation
import LmdGhost.Proofs.ForkChoice.Faults
/-!
How far verdicts on payloads get. A verdict that fails has no effect just where its block was not
waiting for one; otherwise it has been applied up to the block that contradicts it, and nothing
tells the caller which blocks that were. A verdict that a payload is valid may also stop early
without failing: below a confirmed block that was imported on top of a syncing one.
-/

namespace LmdGhost.ForkChoice

variable {fc fc' : ForkChoice} {history : List (Event ForkChoice Call)} {root : Root}

def Presumes (fc : ForkChoice) (call : Call) : Prop :=
  ∃ induced, Induces fc call induced ∧ fc.tree.Presumes induced

theorem grounded_kept : KeptUnless BlockTree.Grounded BlockTree.Presumes where
  empty := fun _ _ _ _ _ _ _ => nofun
  first := by
    rintro pruneThreshold justifiedEpoch finalizedEpoch block ⟨-, -, presumed⟩
    simp [BlockTree.node?_empty] at presumed
  scores := fun _ _ => id
  after := fun wf grounded => wf.grounded_after grounded

theorem onValidPayload_result (fc : ForkChoice) (root : Root) :
    (fc.onValidPayload root).result = (fc.tree.confirm root).result.mapError Error.ofTree :=
  rfl

theorem onValidPayload_state (fc : ForkChoice) (root : Root) :
    (fc.onValidPayload root).state = { fc with tree := (fc.tree.confirm root).state } :=
  rfl

/-- A rejection that fails leaves the flag for the weights as it was. -/
theorem onInvalidPayload_of_error {cause : Error}
    (failed : (fc.onInvalidPayload root).result = .error cause) :
    (∃ cause, (fc.tree.reject root).result = .error cause) ∧
      (fc.onInvalidPayload root).state = { fc with tree := (fc.tree.reject root).state } := by
  have lifted := Outcome.result_lift (fun tree => { fc with tree }) Error.ofTree
    (fc.tree.reject root)
  rw [onInvalidPayload, onTree] at failed ⊢
  cases result : (fc.tree.reject root).result with
  | ok roots =>
    rw [result] at lifted
    rw [Outcome.result_bind_of_ok _ lifted] at failed
    contradiction
  | error cause =>
    rw [result] at lifted
    rw [Outcome.state_bind_of_error _ lifted]
    exact ⟨⟨cause, rfl⟩, rfl⟩

theorem unchanged_iff {tree : BlockTree} : { fc with tree } = fc ↔ tree = fc.tree := by
  constructor
  · exact congrArg ForkChoice.tree
  · rintro rfl
    rfl

section
variable {preset : Preset} {config : ChainConfig} {settings : NodeSettings} {anchor : Block}
  {slot : Slot} {balances : Balances}

/--
In every state of a run, a verdict that fails leaves the state as it was if and only if its block
was not syncing. If it was, a confirmation has made valid the syncing blocks from there up to the
first other one, and a rejection has made invalid what is tainted in front of the first clash.
-/
theorem failed_verdict
    (started : start preset config settings anchor slot balances = .ok fc)
    (run : Run after (fun _ _ _ => True) fc history fc') (root : Root) :
    (∀ cause, (fc'.onValidPayload root).result = .error cause →
      ((fc'.onValidPayload root).state = fc' ↔ fc'.isOptimistic root = false) ∧
      (fc'.onValidPayload root).state =
        { fc' with tree := fc'.tree.judge .valid fun node => node ∈ fc'.tree.awaiting root }) ∧
    ∀ cause, (fc'.onInvalidPayload root).result = .error cause →
      ((fc'.onInvalidPayload root).state = fc' ↔ fc'.isOptimistic root = false) ∧
      (fc'.isOptimistic root = true → ∃ start clash nodes,
        fc'.tree.index[root]? = some start ∧ Clashes fc'.tree.nodes start clash ∧
        (∀ i < clash, ¬Clashes fc'.tree.nodes start i) ∧
        SweptTo fc'.tree.nodes start clash nodes ∧
        (fc'.onInvalidPayload root).state =
          { fc' with tree := { fc'.tree with nodes } }) := by
  obtain ⟨wf, -⟩ := faultsDescend_kept.of_run (faultsDescend_kept.of_start started) run
  constructor
  · intro cause _
    rw [onValidPayload_state]
    refine ⟨unchanged_iff.trans (wf.confirm_unchanged_iff root), ?_⟩
    rw [wf.confirm_eq_judge root]
  · intro cause failed
    obtain ⟨⟨cause, failed⟩, state⟩ := onInvalidPayload_of_error failed
    rw [state]
    refine ⟨unchanged_iff.trans (wf.reject_unchanged_iff root), fun optimistic => ?_⟩
    obtain ⟨node, found, syncing⟩ := (Option.any_eq_true _ _).mp optimistic
    obtain ⟨start, at_start, rfl⟩ := wf.node?_eq_some.mp found
    rw [PayloadStatus.isOptimistic_iff] at syncing
    rcases wf.reject_swept at_start syncing with
      ⟨-, _, -, -, done⟩ | ⟨clash, _, nodes, -, clashes, clear, swept, state, -⟩
    · rw [done] at failed
      contradiction
    · rw [state]
      exact ⟨start, clash, nodes, wf.index_root at_start, clashes, clear, swept, rfl⟩

/--
In every state of a run, a verdict that a payload is valid and that does not fail confirms the
syncing blocks from there up to the first other one. These are all syncing blocks of the chain, and
none is left, unless the run has a call that entered a confirmed block on one that was not, or a
confirmation that failed on its way.
-/
theorem onValidPayload_ok
    (started : start preset config settings anchor slot balances = .ok fc)
    (run : Run after (fun _ _ _ => True) fc history fc')
    (done : (fc'.onValidPayload root).result = .ok ()) :
    (fc'.onValidPayload root).state =
        { fc' with tree := fc'.tree.judge .valid fun node => node ∈ fc'.tree.awaiting root } ∧
      ((fc'.onValidPayload root).state = { fc' with
            tree := fc'.tree.judge .valid fun node =>
              node.status.isOptimistic && fc'.tree.descends node.root root } ∧
          (∀ node ∈ (fc'.onValidPayload root).state.tree.nodes,
            (fc'.onValidPayload root).state.tree.descends node.root root = true →
              node.status ≠ .syncing) ∨
        ∃ event ∈ history, event.before.Presumes event.call) := by
  obtain ⟨wf, grounded⟩ := grounded_kept.of_run (grounded_kept.of_start started) run
  rw [onValidPayload_result, Outcome.mapError_eq_ok_iff] at done
  rw [onValidPayload_state]
  refine ⟨by rw [wf.confirm_eq_judge root], grounded.imp_left fun grounded => ?_⟩
  exact ⟨by rw [wf.confirm_eq_judge_descends grounded done], wf.confirm_settles grounded done⟩

end

def confirmedOnSyncing : List Call :=
  [.time 16, syncingBlock 8 2 1 ⟨0, .ofNat 1⟩,
    epochBlock 16 3 2 ⟨0, .ofNat 1⟩ ⟨0, .ofNat 1⟩, .head]

theorem rejection_half_applied :
    ∃ history fc cause,
      start .minimal .minimal .pruneEagerly genesis 0 genesisBalances = .ok atGenesis ∧
      Run after (fun _ _ _ => True) atGenesis history fc ∧
      (fc.onInvalidPayload (.ofNat 2)).result = .error cause ∧ fc.synced = true ∧
      (fc.tree.node? (.ofNat 2)).map (·.status) = some .syncing ∧
      (fc.onInvalidPayload (.ofNat 2)).state.synced = true ∧
      ((fc.onInvalidPayload (.ofNat 2)).state.tree.node? (.ofNat 2)).map (·.status) =
        some .invalid := by
  have outset : Run after (fun _ _ _ => True) atGenesis [] atGenesis := .start
  obtain ⟨history, run⟩ := outset.calls confirmedOnSyncing
  refine ⟨history, _, .tree (.statusFixed (.ofNat 3) .valid .invalid), start_genesis, run, ?_⟩
  decide +kernel

theorem failed_rejection_not_undone :
    ∃ history fc cause,
      start .minimal .minimal .pruneEagerly genesis 0 genesisBalances = .ok atGenesis ∧
      Run after (fun _ _ _ => True) atGenesis history fc ∧
      (fc.onInvalidPayload (.ofNat 2)).result = .error cause ∧
      (fc.onInvalidPayload (.ofNat 2)).state ≠ fc := by
  have outset : Run after (fun _ _ _ => True) atGenesis [] atGenesis := .start
  obtain ⟨history, run⟩ := outset.calls confirmedOnSyncing
  have failed : ((confirmedOnSyncing.foldl after atGenesis).onInvalidPayload (.ofNat 2)).result =
      .error (.tree (.statusFixed (.ofNat 3) .valid .invalid)) := by decide +kernel
  refine ⟨history, _, _, start_genesis, run, failed, fun same => ?_⟩
  have settled := ((failed_verdict start_genesis run (.ofNat 2)).2 _ failed).1.mp same
  revert settled
  decide +kernel

def confirmedBetween : List Call :=
  [.time 24, syncingBlock 8 2 1 ⟨0, .ofNat 1⟩,
    epochBlock 16 3 2 ⟨0, .ofNat 1⟩ ⟨0, .ofNat 1⟩, syncingBlock 24 4 3 ⟨0, .ofNat 1⟩]

theorem ancestor_left_syncing :
    ∃ history fc node,
      start .minimal .minimal .pruneEagerly genesis 0 genesisBalances = .ok atGenesis ∧
      Run after (fun _ _ _ => True) atGenesis history fc ∧
      (fc.onValidPayload (.ofNat 4)).result = .ok () ∧
      node ∈ (fc.onValidPayload (.ofNat 4)).state.tree.nodes ∧
      (fc.onValidPayload (.ofNat 4)).state.tree.descends node.root (.ofNat 4) = true ∧
      node.status = .syncing := by
  have outset : Run after (fun _ _ _ => True) atGenesis [] atGenesis := .start
  obtain ⟨history, run⟩ := outset.calls confirmedBetween
  let fc := confirmedBetween.foldl after atGenesis
  refine ⟨history, fc, (fc.onValidPayload (.ofNat 4)).state.tree.nodes[1]!, start_genesis, run, ?_⟩
  decide +kernel

theorem presumed_before_ancestor_left_syncing :
    ∃ history fc, start .minimal .minimal .pruneEagerly genesis 0 genesisBalances = .ok atGenesis ∧
      Run after (fun _ _ _ => True) atGenesis history fc ∧
      (fc.onValidPayload (.ofNat 4)).result = .ok () ∧
      ∃ event ∈ history, event.before.Presumes event.call := by
  have outset : Run after (fun _ _ _ => True) atGenesis [] atGenesis := .start
  obtain ⟨history, run⟩ := outset.calls confirmedBetween
  let fc := confirmedBetween.foldl after atGenesis
  have done : (fc.onValidPayload (.ofNat 4)).result = .ok () := by decide +kernel
  refine ⟨history, fc, start_genesis, run, done, ?_⟩
  refine (onValidPayload_ok start_genesis run done).2.resolve_left ?_
  rintro ⟨-, settled⟩
  exact settled ((fc.onValidPayload (.ofNat 4)).state.tree.nodes[1]!) (by decide +kernel)
    (by decide +kernel) (by decide +kernel)

end LmdGhost.ForkChoice
