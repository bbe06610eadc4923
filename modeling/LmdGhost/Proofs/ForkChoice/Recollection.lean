import LmdGhost.Proofs.ForkChoice.Passage
import LmdGhost.Proofs.ForkChoice.Targets
/-!
What fork choice remembers of attestations. Data that was found valid is passed again without a
check until time is updated. The check would pass it again too, as far as time and blocks go that
it has seen: only data that has grown too old for attestations outside of blocks and data whose
head or target was pruned in between is passed for no other reason than that it is remembered.
-/

namespace LmdGhost.ForkChoice

variable {fc fc' init : ForkChoice} {attestation : Attestation} {data : AttestationData}
  {fromBlock : Bool} {history : List (Event ForkChoice Call)} {call : Call}

def remembering (fc : ForkChoice) (validated : List AttestationData) : ForkChoice :=
  { fc with validated }

/-- Two receptions of an attestation with the same result and the same effect. -/
structure Alike (left right : Outcome ForkChoice Error Unit) : Prop where
  result : right.result = left.result
  votes : right.state.votes = left.state.votes
  queue : right.state.queue = left.state.queue
  synced : right.state.synced = left.state.synced

def enter (fc : ForkChoice) (attestation : Attestation) : Outcome ForkChoice Error Unit :=
  let known := fc.store.justifiedBalances.length
  match attestation.validators.find? (known ≤ ·.toNat) with
  | some validator => .fail fc (.invalidAttestation (.unknownValidator validator known))
  | none =>
    if attestation.data.slot < fc.store.slot then
      castVotes attestation.data.target.epoch attestation.data.head attestation.validators fc
    else .done { fc with queue := fc.queue ++ [attestation.waiting] } ()

theorem onAttestation_eq_enter (fc : ForkChoice) (attestation : Attestation) (fromBlock : Bool) :
    fc.onAttestation attestation fromBlock =
      if attestation.data.head.isZero then .done fc ()
      else match fc.examine attestation fromBlock with
        | .error cause => .fail fc (.invalidAttestation cause)
        | .ok examined => examined.enter attestation :=
  rfl

theorem castVotes_remembering (epoch : Epoch) (root : Root) (validators : List ValidatorIndex)
    (fc : ForkChoice) (validated : List AttestationData) :
    castVotes epoch root validators (fc.remembering validated) =
      (castVotes epoch root validators fc).lift (·.remembering validated) id := by
  induction validators generalizing fc with
  | nil => rfl
  | cons validator validators ih =>
    rw [castVotes, castVotes]
    have cast : (fc.remembering validated).castVote validator epoch root =
        (fc.castVote validator epoch root).lift (·.remembering validated) id := by
      simp only [castVote, remembering]
      cases fc.votes.record validator root epoch <;> rfl
    rw [cast]
    exact (Outcome.lift_bind _ fun state _ => (ih state).symm).symm

/-- What is remembered makes no difference to an attestation whose data is valid. -/
theorem enter_remembering (fc : ForkChoice) (attestation : Attestation)
    (validated : List AttestationData) : (fc.remembering validated).enter attestation =
      (fc.enter attestation).lift (·.remembering validated) id := by
  rw [enter, enter]
  simp only [castVotes_remembering, show (fc.remembering validated).store = fc.store from rfl]
  split
  · rfl
  · split <;> rfl

theorem Alike.of_enter (fc : ForkChoice) (attestation : Attestation)
    (validated validated' : List AttestationData) :
    Alike ((fc.remembering validated).enter attestation)
      ((fc.remembering validated').enter attestation) := by
  rw [enter_remembering, enter_remembering]
  exact ⟨rfl, rfl, rfl, rfl⟩

/-- An attestation with data that is remembered, but that a check would now refuse. -/
structure Overlooks (fc : ForkChoice) (attestation : Attestation) (fromBlock : Bool) : Prop where
  nonzero : attestation.data.head.isZero = false
  voters : attestation.validators.isEmpty = false
  remembered : attestation.data ∈ fc.validated
  fails : fc.checkData attestation.data fromBlock ≠ .ok ()

/-- The validators are looked up apart from the check of the data. -/
theorem checkData_ne_unknownValidator {validator : ValidatorIndex} {count : Nat} :
    fc.checkData data fromBlock ≠ .error (.unknownValidator validator count) := by
  intro failed
  cases timely : fc.checkTargetEpoch data fromBlock with
  | error cause =>
    simp only [checkData, timely, bind, Except.bind, Except.error.injEq] at failed
    rw [failed, checkTargetEpoch] at timely
    split_ifs at timely
    all_goals simp at timely
  | ok _ =>
    simp only [checkData, timely, bind, Except.bind, checkVote] at failed
    split at failed
    · simp at failed
    · split at failed
      · simp at failed
      · split_ifs at failed
        all_goals simp at failed

/-- A valid attestation fails only for a validator that is not known or for lack of room. -/
theorem enter_ne_error (fc : ForkChoice) (attestation : Attestation) {cause : InvalidAttestation}
    (other : ∀ validator count, cause ≠ .unknownValidator validator count) :
    (fc.enter attestation).result ≠ .error (.invalidAttestation cause) := by
  have cast : ∀ (validators : List ValidatorIndex) (fc : ForkChoice),
      (castVotes attestation.data.target.epoch attestation.data.head validators fc).result ≠
        .error (.invalidAttestation cause) := by
    intro validators
    induction validators with
    | nil => simp [castVotes]
    | cons validator validators ih =>
      intro fc
      rw [castVotes, castVote]
      cases fc.votes.record validator attestation.data.head attestation.data.target.epoch with
      | error fault => simp
      | ok recorded => simpa only [Outcome.bind_done] using ih _
  rw [enter]
  split
  · simpa using (other _ _).symm
  · split
    · exact cast _ _
    · simp

/-- Nothing but remembered data that would now fail the check makes memory matter. -/
theorem alike_iff (fc : ForkChoice) (attestation : Attestation) (fromBlock : Bool) :
    Alike (fc.onAttestation attestation fromBlock)
        ((fc.remembering []).onAttestation attestation fromBlock) ↔
      ¬fc.Overlooks attestation fromBlock := by
  have checks : (fc.remembering []).checkData attestation.data fromBlock =
      fc.checkData attestation.data fromBlock := rfl
  rw [onAttestation_eq_enter, onAttestation_eq_enter, examine, examine]
  cases zero : attestation.data.head.isZero with
  | true =>
    refine iff_of_true ⟨rfl, rfl, rfl, rfl⟩ fun overlooks => ?_
    rw [overlooks.nonzero] at zero
    contradiction
  | false =>
    cases nobody : attestation.validators.isEmpty with
    | true =>
      refine iff_of_true ⟨rfl, rfl, rfl, rfl⟩ fun overlooks => ?_
      rw [overlooks.voters] at nobody
      contradiction
    | false =>
      simp only [Bool.false_eq_true, if_false, checks, show (fc.remembering []).validated = [] from
        rfl, List.contains_nil]
      cases checked : fc.checkData attestation.data fromBlock with
      | ok _ =>
        refine iff_of_true ?_ fun overlooks => overlooks.fails checked
        by_cases remembered : fc.validated.contains attestation.data = true
        · rw [if_pos remembered]
          exact .of_enter fc attestation fc.validated [attestation.data]
        · rw [if_neg remembered]
          exact .of_enter fc attestation (attestation.data :: fc.validated) [attestation.data]
      | error cause =>
        have other (validator : ValidatorIndex) (count : Nat) :
            cause ≠ .unknownValidator validator count := by
          rintro rfl
          exact checkData_ne_unknownValidator checked
        by_cases remembered : attestation.data ∈ fc.validated
        · rw [if_pos (List.contains_iff_mem.mpr remembered)]
          refine iff_of_false (fun alike => ?_) fun unseen => unseen ?_
          · exact fc.enter_ne_error attestation other alike.result.symm
          · exact ⟨zero, nobody, remembered, by simp [checked]⟩
        · rw [if_neg (mt List.contains_iff_mem.mp remembered)]
          exact iff_of_true ⟨rfl, rfl, rfl, rfl⟩ fun overlooks => remembered overlooks.remembered

theorem slot_le_after (fc : ForkChoice) (call : Call) :
    fc.store.slot ≤ (fc.after call).store.slot := by
  have untimely (other : ¬call.IsTimely) : fc.store.slot ≤ (fc.after call).store.slot := by
    have step := fc.storeStep_after call
    generalize (fc.after call).store = store at step
    cases step with
    | same => exact UInt64.le_refl _
    | followed => exact UInt64.le_refl _
    | elapsed timely => contradiction
  cases call with
  | tick slot => exact (fc.onTick_ticked slot).2
  | time slot =>
    apply updateTime_invariant (P := fun fc' => fc.store.slot ≤ fc'.store.slot)
    · exact UInt64.le_refl _
    · intro fc' slot order
      exact UInt64.le_trans order (fc'.onTick_ticked slot).2
    · intro fc' order
      rw [(processQueue_noted fc').sameChain.store]
      exact order
    · exact id
  | _ => exact untimely id

/-- What is remembered after a call was remembered before, or the call has just checked it. -/
theorem validated_after (remembered : data ∈ (fc.after call).validated) :
    data ∈ fc.validated ∨ ∃ fromBlock, fc.checkData data fromBlock = .ok () := by
  cases call with
  | block block state arrival engine =>
    rw [after] at remembered
    rcases fc.onBlock_cases block state arrival engine with same | ⟨_, -, -, same⟩
    all_goals
      rw [same] at remembered
      exact .inl remembered
  | attestation attestation fromBlock =>
    rw [after] at remembered
    rcases fc.onAttestation_cases attestation fromBlock with same | ⟨examined, passed, cases⟩
    · rw [same] at remembered
      exact .inl remembered
    · have kept : (fc.onAttestation attestation fromBlock).state.validated =
          examined.validated := by
        rcases cases with same | same | same <;> rw [same]
        exact (castVotes_voted _ _ _ examined).validated
      rw [kept] at remembered
      rcases examine_ok passed with ⟨rfl, -⟩ | ⟨rfl, checked⟩
      · exact .inl remembered
      · rcases List.mem_cons.mp remembered with rfl | old
        · exact .inr ⟨fromBlock, checked⟩
        · exact .inl old
  | message validator epoch root =>
    rw [after, (castVote_voted fc validator epoch root).validated] at remembered
    exact .inl remembered
  | head =>
    obtain ⟨_, _, _, _, _, state⟩ := fc.updateHead_rehead
    rw [after, state] at remembered
    exact .inl remembered
  | time slot =>
    left
    refine updateTime_invariant (P := fun fc' => data ∈ fc'.validated → data ∈ fc.validated) id
      ?_ ?_ ?_ slot remembered
    · intro fc' slot kept remembered
      obtain ⟨⟨_, _, _, same⟩, -⟩ := fc'.onTick_ticked slot
      rw [same] at remembered
      exact kept remembered
    · intro fc' kept remembered
      have same : fc'.processQueue.state.validated = fc'.validated :=
        (countQueued_voted _ { fc' with queue := _ }).validated
      rw [same] at remembered
      exact kept remembered
    · intro _ _ none
      exact absurd none List.not_mem_nil
  | tick slot =>
    obtain ⟨⟨_, _, _, same⟩, -⟩ := fc.onTick_ticked slot
    rw [after, same] at remembered
    exact .inl remembered
  | prune | setPruneThreshold | validPayload => exact .inl remembered
  | invalidPayload root =>
    let P (fc' : ForkChoice) : Prop := fc'.validated = fc.validated
    have same : P (fc.onInvalidPayload root).state :=
      Outcome.state_bind (P := P) rfl fun _ _ => rfl
    rw [after, same] at remembered
    exact .inl remembered

def updatesTime (event : Event ForkChoice Call) : Bool :=
  match event.call with
  | .time slot => (event.before.updateTime slot).result.toOption.isSome
  | _ => false

/-- The calls since time was last brought up to date, latest first. -/
def sinceTime (history : List (Event ForkChoice Call)) : List (Event ForkChoice Call) :=
  history.takeWhile fun event => !updatesTime event

theorem validated_of_updatesTime (updates : updatesTime ⟨fc, call⟩ = true) :
    (fc.after call).validated = [] := by
  cases call with
  | time slot =>
    cases ok : (fc.updateTime slot).result with
    | error cause => simp [updatesTime, ok, Except.toOption] at updates
    | ok _ =>
      obtain ⟨_, advanced, rest⟩ := Outcome.bind_eq_ok_iff.mp ok
      obtain ⟨_, counted, -⟩ := Outcome.bind_eq_ok_iff.mp rest
      rw [after, updateTime, Outcome.state_bind_of_ok _ advanced,
        Outcome.state_bind_of_ok _ counted]
      rfl
  | _ => contradiction

/-- The target epoch of data that was accepted from a block stays acceptable in blocks. -/
theorem checkTargetEpoch_after (timely : fc.checkTargetEpoch data true = .ok ()) (call : Call) :
    (fc.after call).checkTargetEpoch data true = .ok () := by
  obtain ⟨not_future, -, epoch⟩ := checkTargetEpoch_eq_ok.mp timely
  have setup := (SameSetup.after fc call).preset
  refine checkTargetEpoch_eq_ok.mpr ⟨?_, .inl rfl, ?_⟩
  · rw [currentEpoch, setup]
    exact UInt64.le_trans not_future (fc.preset.epochOf_mono (fc.slot_le_after call))
  · rw [setup]
    exact epoch

/-- A vote that was valid stays valid while its head and its target are in the tree. -/
theorem checkVote_after (wf : fc.tree.WellFormed) (valid : fc.checkVote data = .ok ())
    (call : Call) : (fc.after call).checkVote data = .ok () ∨ data.head ∈ removedBy fc call ∨
      data.target.root ∈ removedBy fc call := by
  obtain ⟨target_known, head, found, expected, early⟩ := checkVote_eq_ok.mp valid
  obtain ⟨i, at_i, named⟩ := wf.node?_eq_some.mp found
  have head_known : fc.tree.contains data.head = true := named ▸ wf.contains_root at_i
  rcases (fc.contains_after wf call data.target.root).1 target_known with target_stays | gone
  · rcases (fc.contains_after wf call data.head).1 head_known with head_stays | gone
    · have wf' := wellFormed_after wf call
      obtain ⟨j, head', at_j, named'⟩ := wf'.contains_iff.mp head_stays
      have found' : (fc.after call).tree.node? data.head = some head' :=
        wf'.node?_eq_some.mpr ⟨j, at_j, named'⟩
      have alike : { head'.toBlock with status := head.status } = head.toBlock := by
        rcases fc.tree_after call with same | ⟨induced, -, tree⟩
        · rw [same, found] at found'
          cases found'
          rfl
        · rw [tree] at found'
          exact wf.block_after found found'
      have slot : head'.slot = head.slot := congrArg (·.slot) alike
      have target : head'.target = head.target := congrArg (·.target) alike
      refine .inl (checkVote_eq_ok.mpr ⟨target_stays, head', found', ?_, ?_⟩)
      · rw [← expected, expectedTarget, expectedTarget, slot, target,
          (SameSetup.after fc call).preset]
      · rw [slot]
        exact early
    · exact .inr (.inl gone)
  · exact .inr (.inr gone)

/-- Remembered data is timely in a block, and its vote is valid unless its blocks were pruned. -/
structure Recalls (history : List (Event ForkChoice Call)) (fc : ForkChoice) : Prop where
  wellFormed : fc.tree.WellFormed
  timely : ∀ data ∈ fc.validated, fc.checkTargetEpoch data true = .ok ()
  valid : ∀ data ∈ fc.validated, fc.checkVote data = .ok () ∨
    data.head ∈ removed (sinceTime history) ∨ data.target.root ∈ removed (sinceTime history)

namespace Recalls

theorem after (recalls : Recalls history fc) (call : Call) :
    Recalls (⟨fc, call⟩ :: history) (fc.after call) := by
  have wf' := wellFormed_after recalls.wellFormed call
  cases updates : updatesTime ⟨fc, call⟩ with
  | true =>
    have none := validated_of_updatesTime updates
    refine ⟨wf', ?_, ?_⟩ <;> rw [none]
    · exact List.forall_mem_nil _
    · exact List.forall_mem_nil _
  | false =>
    have gone : removed (sinceTime (⟨fc, call⟩ :: history)) =
        removedBy fc call ++ removed (sinceTime history) := by
      simp [sinceTime, updates, removed]
    -- What the call has checked itself was timely and valid before it, as what was remembered.
    have before {data : AttestationData} (remembered : data ∈ (fc.after call).validated) :
        fc.checkTargetEpoch data true = .ok () ∧ (fc.checkVote data = .ok () ∨
          data.head ∈ removed (sinceTime history) ∨
            data.target.root ∈ removed (sinceTime history)) := by
      rcases validated_after remembered with old | ⟨fromBlock, passed⟩
      · exact ⟨recalls.timely data old, recalls.valid data old⟩
      · obtain ⟨timely, valid⟩ := checkData_eq_ok.mp passed
        obtain ⟨not_future, -, epoch⟩ := checkTargetEpoch_eq_ok.mp timely
        exact ⟨checkTargetEpoch_eq_ok.mpr ⟨not_future, .inl rfl, epoch⟩, .inl valid⟩
    refine ⟨wf', ?_, ?_⟩
    · intro data remembered
      exact checkTargetEpoch_after (before remembered).1 call
    · intro data remembered
      rw [gone, List.mem_append, List.mem_append]
      rcases (before remembered).2 with valid | head_gone | target_gone
      · exact (checkVote_after recalls.wellFormed valid call).imp_right (Or.imp .inl .inl)
      · exact .inr (.inl (.inr head_gone))
      · exact .inr (.inr (.inr target_gone))

theorem start {preset : Preset} {config : ChainConfig} {settings : NodeSettings} {anchor : Block}
    {slot : Slot} {balances : Balances}
    (started : ForkChoice.start preset config settings anchor slot balances = .ok fc) :
    Recalls [] fc := by
  obtain ⟨head, state⟩ := start_after started
  have wf := wellFormed_after
    (wellFormed_anchored preset config settings anchor slot balances head) .head
  obtain ⟨_, _, _, _, _, rehead⟩ :=
    (anchored preset config settings anchor slot balances head).updateHead_rehead
  have none : fc.validated = [] := by
    rw [state, ForkChoice.after, rehead]
    rfl
  rw [← state] at wf
  refine ⟨wf, ?_, ?_⟩ <;> rw [none]
  · exact List.forall_mem_nil _
  · exact List.forall_mem_nil _

/-- Data is passed against the checks for its age or for blocks that were pruned. -/
theorem of_overlooks (recalls : Recalls history fc)
    (overlooks : fc.Overlooks attestation fromBlock) :
    (fromBlock = false ∧ attestation.data.target.epoch.toNat + 1 < fc.currentEpoch.toNat) ∨
      attestation.data.head ∈ removed (sinceTime history) ∨
        attestation.data.target.root ∈ removed (sinceTime history) := by
  rcases recalls.valid _ overlooks.remembered with valid | gone
  · left
    obtain ⟨not_future, -, epoch⟩ :=
      checkTargetEpoch_eq_ok.mp (recalls.timely _ overlooks.remembered)
    have late : ¬(fromBlock = true ∨
        fc.currentEpoch.toNat ≤ attestation.data.target.epoch.toNat + 1) := by
      intro recent
      apply overlooks.fails
      rw [checkData_eq_ok, checkTargetEpoch_eq_ok]
      exact ⟨⟨not_future, recent, epoch⟩, valid⟩
    rw [not_or, Bool.not_eq_true, Nat.not_le] at late
    exact late
  · exact .inr gone

end Recalls

/--
In every state of a run an attestation is received as it would be with nothing remembered, unless
its data is remembered and would now fail the check; and that is so only for data that is too old
outside of a block or whose head or target was pruned since time was last brought up to date.
-/
theorem onAttestation_remembering {preset : Preset} {config : ChainConfig}
    {settings : NodeSettings} {anchor : Block} {slot : Slot} {balances : Balances}
    (started : start preset config settings anchor slot balances = .ok init)
    (run : Run after (fun _ _ _ => True) init history fc) (attestation : Attestation)
    (fromBlock : Bool) :
    (Alike (fc.onAttestation attestation fromBlock)
        ((fc.remembering []).onAttestation attestation fromBlock) ↔
      ¬fc.Overlooks attestation fromBlock) ∧
    (fc.Overlooks attestation fromBlock →
      (fromBlock = false ∧ attestation.data.target.epoch.toNat + 1 < fc.currentEpoch.toNat) ∨
        attestation.data.head ∈ removed (sinceTime history) ∨
          attestation.data.target.root ∈ removed (sinceTime history)) := by
  have recalls : Recalls history fc := Run.invariant (P := Recalls) (.start started)
    (fun {_ _ call} recalls _ => recalls.after call) run
  exact ⟨fc.alike_iff attestation fromBlock, recalls.of_overlooks⟩

def oldData : AttestationData where
  slot := 8
  committee := 0
  head := .ofNat 2
  source := ⟨0, .ofNat 1⟩
  target := ⟨1, .ofNat 2⟩

def attestedCalls : List Call :=
  [.time 32, epochBlock 8 2 1 ⟨0, .ofNat 1⟩ ⟨0, .ofNat 1⟩, .attestation ⟨[0], oldData⟩ true]

def attested : ForkChoice :=
  attestedCalls.foldl after atGenesis

theorem run_attested : ∃ history, Run after (fun _ _ _ => True) atGenesis history attested := by
  have started : Run after (fun _ _ _ => True) atGenesis [] atGenesis := .start
  exact started.calls attestedCalls

/-- Outside of blocks the vote is too old, but it is passed because the block has been seen. -/
theorem old_attestation_passed :
    ∃ history, start .minimal .minimal .pruneEagerly genesis 0 genesisBalances = .ok atGenesis ∧
      Run after (fun _ _ _ => True) atGenesis history attested ∧
      (attested.onAttestation ⟨[1], oldData⟩ false).result = .ok () ∧
      ((attested.remembering []).onAttestation ⟨[1], oldData⟩ false).result =
        .error (.invalidAttestation (.pastEpoch 1 4)) ∧
      ¬Alike (attested.onAttestation ⟨[1], oldData⟩ false)
        ((attested.remembering []).onAttestation ⟨[1], oldData⟩ false) := by
  obtain ⟨history, run⟩ := run_attested
  have passed : (attested.onAttestation ⟨[1], oldData⟩ false).result = .ok () := by decide +kernel
  have refused : ((attested.remembering []).onAttestation ⟨[1], oldData⟩ false).result =
      .error (.invalidAttestation (.pastEpoch 1 4)) := by decide +kernel
  refine ⟨history, start_genesis, run, passed, refused, fun alike => ?_⟩
  have same := alike.result
  rw [passed, refused] at same
  contradiction

/-- From a block the same vote is received as if it were new. -/
theorem old_attestation_from_block :
    ∃ history, start .minimal .minimal .pruneEagerly genesis 0 genesisBalances = .ok atGenesis ∧
      Run after (fun _ _ _ => True) atGenesis history attested ∧
      oldData ∈ attested.validated ∧
      Alike (attested.onAttestation ⟨[1], oldData⟩ true)
        ((attested.remembering []).onAttestation ⟨[1], oldData⟩ true) := by
  obtain ⟨history, run⟩ := run_attested
  have checked : attested.checkData oldData true = .ok () := by decide +kernel
  have remembered : oldData ∈ attested.validated := by decide +kernel
  obtain ⟨alike, -⟩ := onAttestation_remembering start_genesis run ⟨[1], oldData⟩ true
  have alike := alike.mpr fun overlooks => overlooks.fails checked
  exact ⟨history, start_genesis, run, remembered, alike⟩

end LmdGhost.ForkChoice
