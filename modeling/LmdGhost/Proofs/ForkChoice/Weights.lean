import LmdGhost.Proofs.ForkChoice.Accounts
/-!
Weights over whole runs. Where no change of weights fails nothing drifts, and where the weights take
account of all votes and blocks, what accounts for them is what is due: the justified balances of
the latest messages and the current boost.
-/

namespace LmdGhost.ForkChoice

variable {fc fc' : ForkChoice} {gone : List Root} {drift : Root → Int}
  {history : List (Event ForkChoice Call)} {call : Call}
  {slot : Slot}

/--
No block has the zero root or comes back after it was pruned, messages name known blocks, and
weights that are brought up to date stay in range.
-/
def Orderly (history : List (Event ForkChoice Call)) (fc : ForkChoice) : Call → Prop
  | .block block state arrival engine =>
    (∃ entry, (fc.onBlock block state arrival engine).result = .ok entry) →
      arrival.root ≠ .zero ∧ arrival.root ∉ removed history
  | .message _ _ root => fc.tree.contains root = true
  | .head => fc.synced = false → fc.reweigh.result = .ok ()
  | _ => True

/--
What a block should weigh: the balances behind it and, if it leads to the boosted block, the boost.
-/
def dueWeight (fc : ForkChoice) (root : Root) : Nat :=
  support (fc.tree.descends root) fc.store.justifiedBalances 0 (fc.votes.votes.map (·.latest)) +
    match fc.boostRoot with
    | none => 0
    | some boosted =>
      if fc.settings.boostEnabled && fc.tree.descends root boosted then
        (fc.settings.boostScore?.getD
          (boostScore fc.preset fc.config.boostPercent fc.store.justifiedBalances)).toNat
      else 0

theorem Orderly.tidy (orderly : Orderly history fc call) : Tidy history fc call := by
  cases call with
  | block => exact orderly
  | message => exact orderly
  | attestation | head | time | tick | prune | setPruneThreshold | validPayload | invalidPayload =>
    trivial

/-- Weights that take account of all votes and blocks are what is due, but for the drift. -/
theorem Accounted.weight_eq (accounted : Accounted gone drift fc) (synced : fc.synced = true)
    {node : Node} (member : node ∈ fc.tree.nodes) :
    (node.weight.toNat : Int) = fc.dueWeight node.root + drift node.root := by
  obtain ⟨settled, applied, boost⟩ := accounted.synced synced
  obtain ⟨i, at_i⟩ := List.mem_iff_getElem?.mp member
  have counted : fc.votes.votes.map (·.counted) = fc.votes.votes.map (·.latest) :=
    List.map_congr_left settled
  rw [accounted.weights at_i, backing, dueWeight, counted, applied, boost, boost?, applied]
  cases fc.boostRoot with
  | none => rfl
  | some boosted =>
    cases fc.settings.boostEnabled with
    | false => rfl
    | true => rfl

def Tallied (gone : List Root) (fc : ForkChoice) : Prop :=
  Accounted gone (fun _ => 0) fc

namespace Tallied

/-- Every call of an orderly run keeps the weights as they should be. -/
theorem after (tallied : Tallied (removed history) fc) (orderly : Orderly history fc call) :
    Tallied (removed (⟨fc, call⟩ :: history)) (fc.after call) := by
  apply Accounted.after tallied orderly.tidy
  rintro rfl
  exact orderly

theorem of_start {preset : Preset} {config : ChainConfig} {settings : NodeSettings}
    {anchor : Block} {balances : Balances} (nonzero : anchor.root ≠ .zero)
    (started : start preset config settings anchor slot balances = .ok fc) : Tallied [] fc :=
  Accounted.of_start nonzero started

theorem weight_eq (tallied : Tallied gone fc) (synced : fc.synced = true) {node : Node}
    (member : node ∈ fc.tree.nodes) : node.weight.toNat = fc.dueWeight node.root := by
  have exact_weight := Accounted.weight_eq tallied synced member
  omega

end Tallied

/--
In a run without zero roots, returns after pruning and failed changes of weights, every block weighs
what is due whenever the weights take account of all votes and blocks.
-/
theorem weight_eq_dueWeight {preset : Preset} {config : ChainConfig} {settings : NodeSettings}
    {anchor : Block} {balances : Balances} (nonzero : anchor.root ≠ .zero)
    (started : start preset config settings anchor slot balances = .ok fc)
    (run : Run after Orderly fc history fc') (synced : fc'.synced = true) {node : Node}
    (member : node ∈ fc'.tree.nodes) : node.weight.toNat = fc'.dueWeight node.root := by
  let P (history : List (Event ForkChoice Call)) (fc : ForkChoice) : Prop :=
    Tallied (removed history) fc
  have tallied : P history fc' := by
    apply Run.invariant (P := P) (Tallied.of_start nonzero started) _ run
    intro _ _ _ tallied orderly
    exact tallied.after orderly
  exact tallied.weight_eq synced member

/-- A vote for the anchor, and one for a block that is boosted as well. -/
theorem weight_eq_dueWeight_boosted :
    ∃ history fc node, genesis.root ≠ .zero ∧
      start .minimal .minimal .pruneEagerly genesis 0 genesisBalances = .ok atGenesis ∧
      Run after Orderly atGenesis history fc ∧ fc.synced = true ∧ node ∈ fc.tree.nodes ∧
      fc.dueWeight node.root = 240 ∧ node.weight.toNat = fc.dueWeight node.root := by
  have nonzero : genesis.root ≠ .zero := by decide +kernel
  have outset : Run after Orderly atGenesis [] atGenesis := .start
  have grown := (outset.call (.time 8) trivial).call
    (epochBlock 8 2 1 ⟨0, .ofNat 1⟩ ⟨0, .ofNat 1⟩) fun _ => by constructor <;> decide +kernel
  have voted := (grown.call (.message 0 1 (.ofNat 2)) (by rw [Orderly]; decide +kernel)).call
    (.message 1 1 (.ofNat 1)) (by rw [Orderly]; decide +kernel)
  have run := voted.call .head fun _ => by decide +kernel
  refine ⟨_, _, List.head _ ?_, nonzero, start_genesis, run, ?_, List.head_mem _, ?_, ?_⟩
  · decide +kernel
  · decide +kernel
  · decide +kernel
  · exact weight_eq_dueWeight nonzero start_genesis run (by decide +kernel) (List.head_mem _)

end LmdGhost.ForkChoice
