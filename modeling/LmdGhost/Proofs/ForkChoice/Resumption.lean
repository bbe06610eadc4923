import LmdGhost.Proofs.BlockTree.Decoding
import LmdGhost.Proofs.ForkChoice.Selection
import LmdGhost.Proofs.ForkChoice.Synced
/-!
Resuming from a snapshot. A snapshot reads back as it was written, and fork choice that is resumed
from it brings its weights up to date as the original does. Where these were up to date already,
the original does not look at its links again, but the resumed one does. That finds a head as well,
unless a rejection has broken off and left statuses behind that the links take no account of.
-/

namespace LmdGhost

theorem Snapshot.ofJson_toJson {snapshot : Snapshot} (wf : snapshot.tree.WellFormed)
    (size : snapshot.tree.nodes.length ≤ UInt64.size) :
    ofJson snapshot.toJson = .ok snapshot := by
  have tree := wf.ofJson_toJson size
  simp -implicitDefEqProofs [ofJson, toJson, ofFields?, tree, Json.fields?, Json.Fields.within,
    Json.Fields.required, Json.Fields.optional, Json.Fields.lookup_of_ne, pure, Except.pure]

namespace ForkChoice

variable {fc fc' init : ForkChoice} {history : List (Event ForkChoice Call)} {head found : Node}
  {slot : Slot}

/-- Two states that differ at most in best links, the head and the data remembered as valid. -/
structure Agrees (fc fc' : ForkChoice) : Prop extends SameSetup fc fc' where
  store : fc'.store = fc.store
  tree : BlockTree.SameButLinks fc.tree fc'.tree
  votes : fc'.votes = fc.votes
  queue : fc'.queue = fc.queue
  boostRoot : fc'.boostRoot = fc.boostRoot
  appliedBalances : fc'.appliedBalances = fc.appliedBalances
  synced : fc'.synced = fc.synced

def recalling (fc : ForkChoice) (head : Node) (validated : List AttestationData) : ForkChoice :=
  { fc with head, validated }

theorem applyDeltas_recalling (fc : ForkChoice) (head : Node) (validated : List AttestationData)
    (deltas : List Delta) : (fc.recalling head validated).applyDeltas deltas =
      (fc.applyDeltas deltas).lift (·.recalling head validated) id := by
  have scored : (fc.recalling head validated).tree.applyScores
      ((fc.recalling head validated).scoreChange deltas) =
        fc.tree.applyScores (fc.scoreChange deltas) := rfl
  rw [applyDeltas, applyDeltas, scored]
  rcases fc.tree.applyScores (fc.scoreChange deltas) with ⟨result, tree, log⟩
  cases result <;> rfl

/-- Weights do not depend on the head or on what is remembered. -/
theorem reweigh_recalling (fc : ForkChoice) (head : Node) (validated : List AttestationData) :
    (fc.recalling head validated).reweigh = fc.reweigh.lift (·.recalling head validated) id := by
  rw [reweigh_eq, reweigh_eq]
  have moved : (fc.recalling head validated).votes.deltas (fc.recalling head validated).tree.index
      (fc.recalling head validated).appliedBalances
      (fc.recalling head validated).store.justifiedBalances =
        fc.votes.deltas fc.tree.index fc.appliedBalances fc.store.justifiedBalances := rfl
  rw [moved]
  rcases fc.votes.deltas fc.tree.index fc.appliedBalances fc.store.justifiedBalances with
    ⟨result, votes, log⟩
  cases result with
  | error cause => rfl
  | ok deltas =>
    have applied := (fc.withVotes votes).applyDeltas_recalling head validated deltas
    exact congrArg (fun outcome => { outcome with log := log ++ outcome.log }) applied

variable {preset : Preset} {config : ChainConfig} {settings : NodeSettings} {anchor : Block}
  {balances : Balances} {snapshot : Snapshot}

/-- Resuming comes to an update of the head, given a valid configuration and a justified block. -/
theorem resume_eq (valid : config.validate = .ok ())
    (justified : snapshot.tree.node? snapshot.justified.root = some head) :
    resume preset config settings snapshot =
      (outdated preset config settings snapshot head).updateHead.result.map fun _ =>
        ((outdated preset config settings snapshot head).updateHead.state,
          (outdated preset config settings snapshot head).updateHead.log) := by
  rw [resume, valid]
  simp only [justified, Outcome.mapError_ok, bind, Except.bind, outdated]
  split
  · rename_i failed
    rw [failed]
    rfl
  · rename_i ok
    rw [ok]
    rfl

theorem start_valid (started : start preset config settings anchor slot balances = .ok fc) :
    config.validate = .ok () := by
  cases valid : config.validate with
  | error fault =>
    rw [start, resume, valid] at started
    contradiction
  | ok _ => rfl

/-- The justified block of a state in which a head is found is in its tree. -/
theorem exists_justified (wf : fc.tree.WellFormed) (updated : fc.updateHead.result = .ok head) :
    ∃ justified, fc.tree.node? fc.store.justified.root = some justified := by
  obtain ⟨selected, store⟩ := updateHead_ok updated
  have wf' : fc.updateHead.state.tree.WellFormed := wellFormed_after wf .head
  obtain ⟨i, justified, at_i, named, -⟩ := selectHead_ok wf' selected
  have index : fc.updateHead.state.tree.index = fc.tree.index := by
    rcases fc.updateHead_tree with same | ⟨change, state⟩
    · rw [same]
    · rw [state]
      exact (BlockTree.shape_applyScores wf change).1
  have position := wf'.index_root at_i
  rw [index, named, store] at position
  obtain ⟨node, at_i', -⟩ := wf.indexed.mp position
  exact ⟨node, by rw [BlockTree.node?, position, Option.bind_some, at_i']⟩

/-- A state that is out of sync goes on alike, whatever head it had and data it remembered. -/
theorem updateHead_recalling (unsynced : fc.synced = false)
    (updated : fc.updateHead.result = .ok head) (other : Node) (validated : List AttestationData) :
    (fc.recalling other validated).updateHead.result = .ok head ∧
      Agrees fc.updateHead.state (fc.recalling other validated).updateHead.state := by
  have unsynced' : (fc.recalling other validated).synced = false := unsynced
  have reweigh := fc.reweigh_recalling other validated
  rw [updateHead_of_unsynced unsynced] at updated ⊢
  rw [updateHead_of_unsynced unsynced']
  obtain ⟨_, reweighed, selected⟩ := Outcome.bind_eq_ok_iff.mp updated
  have reweighed' : (fc.recalling other validated).reweigh.result = .ok () := by
    rw [reweigh, Outcome.result_lift, reweighed, Outcome.mapError_ok]
  rw [Outcome.result_bind_of_ok _ reweighed', Outcome.state_bind_of_ok _ reweighed',
    Outcome.state_bind_of_ok _ reweighed, reweigh, Outcome.state_lift]
  have same : (fc.reweigh.state.recalling other validated).selectHead.result =
      fc.reweigh.state.selectHead.result := selectHead_congr rfl rfl
  refine ⟨same.trans selected, ?_⟩
  obtain ⟨_, state⟩ := fc.reweigh.state.selectHead_state
  obtain ⟨_, state'⟩ := (fc.reweigh.state.recalling other validated).selectHead_state
  rw [state, state']
  exact ⟨⟨rfl, rfl, rfl⟩, rfl, .refl _, rfl, rfl, rfl, rfl, rfl⟩

/--
Where the weights are up to date already, bringing them up to date again changes best links alone,
and the head is found again if the tree is steady.
-/
theorem UpToDate.updateHead (upToDate : fc.UpToDate) (wf : fc.tree.WellFormed)
    (unsynced : fc.synced = false) (selected : fc.selectHead.result = .ok head) :
    Agrees { fc with synced := true } fc.updateHead.state ∧
      ((∃ found, fc.updateHead.result = .ok found) ∨
        ¬fc.tree.Steady ∧ ∃ leaf, fc.updateHead.result = .error (.tree (.headNotViable leaf))) := by
  obtain ⟨reweighed, change, alike, state⟩ := upToDate.reweigh wf
  rw [updateHead_of_unsynced unsynced, Outcome.result_bind_of_ok _ reweighed,
    Outcome.state_bind_of_ok _ reweighed]
  have wf' : fc.reweigh.state.tree.WellFormed := by
    rw [state]
    exact wf.rescored change
  constructor
  · obtain ⟨_, selected⟩ := fc.reweigh.state.selectHead_state
    rw [selected, state]
    exact ⟨⟨rfl, rfl, rfl⟩, rfl, alike, rfl, rfl, rfl, rfl, rfl⟩
  · obtain ⟨i, justified, at_i, named, at_leaf, viable⟩ := selectHead_ok wf selected
    have carries : fc.tree.Carries i :=
      ⟨_, wf.below_leafAt at_i, (BlockTree.viableAt_eq at_leaf).trans viable⟩
    obtain ⟨justified', at_i', links⟩ := alike.getElem? at_i
    have named' : justified'.root = fc.store.justified.root :=
      (congrArg (·.root) links).trans named
    rw [state] at wf' ⊢
    obtain ⟨leaf, at_leaf', answer⟩ := selectHead_of_known wf' at_i' named'
    cases viable' : (fc.tree.rescored change).isViable leaf with
    | true => exact .inl ⟨leaf, by rw [answer, if_pos viable']⟩
    | false =>
      refine .inr ⟨fun steady => ?_, leaf.root, by rw [answer, viable', if_neg Bool.false_ne_true]⟩
      have found := steady.sound_repeated wf alike i (alike.carries_iff.mpr carries)
      rw [BlockTree.viableAt_eq at_leaf', viable'] at found
      contradiction

theorem sameSetup_of_run (started : start preset config settings anchor slot balances = .ok init)
    (run : Run after (fun _ _ _ => True) init history fc) :
    fc.preset = preset ∧ fc.config = config ∧ fc.settings = settings := by
  obtain ⟨head, _, -, state⟩ := start_ok started
  have outset := SameSetup.updateHead
    (anchored preset config settings anchor slot balances head)
  rw [← state] at outset
  have same : SameSetup init fc := Run.invariant (P := fun _ => SameSetup init) (.refl init)
    (fun {_ _ call} same _ => same.trans (.after _ call)) run
  exact ⟨same.preset.trans outset.preset, same.config.trans outset.config,
    same.settings.trans outset.settings⟩

/--
The snapshot of a state of a run in which a head is found reads back as it was written, and fork
choice resumes from it and agrees with the state after that update. Only where the weights are up
to date and a rejection has broken off since they were brought so may the leaf that the links are
led to again not be viable, and then resuming fails.
-/
theorem resume_of_run (started : start preset config settings anchor slot balances = .ok init)
    (run : Run after (fun _ _ _ => True) init history fc)
    (size : fc.tree.nodes.length ≤ UInt64.size) (updated : fc.updateHead.result = .ok head) :
    Snapshot.ofJson fc.snapshot.toJson = .ok fc.snapshot ∧
      ((∃ resumed log, resume preset config settings fc.snapshot = .ok (resumed, log) ∧
          Agrees fc.updateHead.state resumed) ∨
        fc.synced = true ∧ (∃ event ∈ sinceSynced history, event.before.BreaksOff event.call) ∧
          ∃ leaf, resume preset config settings fc.snapshot =
            .error (.tree (.headNotViable leaf))) := by
  obtain ⟨wf, candid⟩ := candid_of_run started run
  refine ⟨Snapshot.ofJson_toJson wf size, ?_⟩
  obtain ⟨justified, at_justified⟩ := exists_justified wf updated
  obtain ⟨rfl, rfl, rfl⟩ := sameSetup_of_run started run
  rw [resume_eq (start_valid started) at_justified]
  let outset : ForkChoice := { fc.recalling justified [] with synced := false }
  have same : outdated fc.preset fc.config fc.settings fc.snapshot justified = outset := rfl
  rw [same]
  cases synced : fc.synced with
  | false =>
    have unchanged : outset = fc.recalling justified [] := by
      simp only [outset, ← synced]
      rfl
    obtain ⟨found, agrees⟩ := updateHead_recalling synced updated justified []
    rw [unchanged, found]
    exact .inl ⟨_, _, rfl, agrees⟩
  | true =>
    obtain ⟨upToDate, steady⟩ := candid synced
    rw [updateHead_of_synced synced] at updated ⊢
    have upToDate' : outset.UpToDate := { upToDate with }
    have selected : outset.selectHead.result = fc.selectHead.result := selectHead_congr rfl rfl
    obtain ⟨agrees, ⟨_, found⟩ | ⟨unsteady, leaf, failed⟩⟩ :=
      upToDate'.updateHead wf rfl (selected.trans updated)
    · refine .inl ⟨outset.updateHead.state, outset.updateHead.log, by rw [found]; rfl, ?_⟩
      obtain ⟨_, state⟩ := fc.selectHead_state
      rw [state]
      exact { agrees with synced := agrees.synced.trans synced.symm }
    · exact .inr ⟨rfl, steady.resolve_left unsteady, leaf, by rw [failed]; rfl⟩

/-- A snapshot in the middle of a slot, with a boost and a vote in the weights. -/
theorem boosted_resumed :
    ∃ history fc head resumed log,
      start .minimal .minimal .pruneEagerly genesis 0 genesisBalances = .ok atGenesis ∧
      Run after (fun _ _ _ => True) atGenesis history fc ∧ fc.updateHead.result = .ok head ∧
      fc.synced = true ∧ fc.tree.boost.isSome = true ∧
      Snapshot.ofJson fc.snapshot.toJson = .ok fc.snapshot ∧
      resume .minimal .minimal .pruneEagerly fc.snapshot = .ok (resumed, log) ∧
      Agrees fc.updateHead.state resumed := by
  have outset : Run after (fun _ _ _ => True) atGenesis [] atGenesis := .start
  let calls : List Call := [.time 8, epochBlock 8 2 1 ⟨0, .ofNat 1⟩ ⟨0, .ofNat 1⟩,
    .message 0 1 (.ofNat 2), .head]
  obtain ⟨history, run⟩ := outset.calls calls
  let fc := calls.foldl after atGenesis
  have updated : fc.updateHead.result = .ok (fc.updateHead.state.tree.nodes[1]!) := by
    decide +kernel
  have resumes : (resume .minimal .minimal .pruneEagerly fc.snapshot).toOption.isSome = true := by
    decide +kernel
  obtain ⟨back, ⟨resumed, log, ok, agrees⟩ | ⟨-, -, leaf, failed⟩⟩ :=
    resume_of_run start_genesis run (by decide +kernel) updated
  · exact ⟨history, fc, _, resumed, log, start_genesis, run, updated, by decide +kernel,
      by decide +kernel, back, ok, agrees⟩
  · rw [failed] at resumes
    exact absurd resumes Bool.false_ne_true

/--
Block 3 has the head below it and is outranked by the branch of block 4 until that is rejected. Its
own child 9 is rejected as well, and both rejections break off at the valid block 11, the head.
-/
def unsettling : List Call :=
  let arrive (root parent : Nat) := syncingBlock 8 root parent ⟨0, .ofNat 1⟩
  let reject (root : Nat) := Call.invalidPayload (.ofNat root)
  [.time 16, arrive 4 1, reject 4, arrive 2 1, arrive 6 4, arrive 5 4, arrive 7 5, arrive 3 1,
    arrive 9 3, .head, reject 7, arrive 8 5, reject 8, arrive 10 3, reject 10, arrive 12 2,
    reject 12, epochBlock 8 11 12 ⟨0, .ofNat 1⟩ ⟨0, .ofNat 1⟩, .message 0 1 (.ofNat 8), .head,
    reject 9, reject 6, reject 5]

theorem unsettled_not_resumed :
    ∃ history fc head,
      start .minimal .minimal .pruneEagerly genesis 0 genesisBalances = .ok atGenesis ∧
      Run after (fun _ _ _ => True) atGenesis history fc ∧ fc.updateHead.result = .ok head ∧
      resume .minimal .minimal .pruneEagerly fc.snapshot =
        .error (.tree (.headNotViable (.ofNat 10))) := by
  have outset : Run after (fun _ _ _ => True) atGenesis [] atGenesis := .start
  obtain ⟨history, run⟩ := outset.calls unsettling
  let fc := unsettling.foldl after atGenesis
  have updated : fc.updateHead.result = .ok (fc.updateHead.state.tree.nodes[11]!) := by
    decide +kernel
  have failed : (resume .minimal .minimal .pruneEagerly fc.snapshot).map (fun _ => ()) =
      .error (.tree (.headNotViable (.ofNat 10))) := by
    decide +kernel
  refine ⟨history, fc, _, start_genesis, run, updated, ?_⟩
  generalize resume .minimal .minimal .pruneEagerly fc.snapshot = result at failed ⊢
  cases result with
  | error cause =>
    cases failed
    rfl
  | ok resumed => cases failed

end ForkChoice

end LmdGhost
