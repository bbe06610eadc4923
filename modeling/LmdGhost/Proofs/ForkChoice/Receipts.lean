import LmdGhost.Proofs.VoteTable.LatestMessage
/-!
Receipts of attestations. Every accepted attestation is given one, and it is counted as soon as its
slot has passed, at its arrival or when an update of time gets to the queue. In every state of a run
the receipts that are not counted are those of the queue, and the messages of those that are, and no
others, have been handed to the table of votes, once each. So the table says of every validator what
the messages that have been handed to it come to.
-/

namespace LmdGhost.ForkChoice

/-- An accepted attestation, and whether it has been counted. -/
structure Receipt where
  attestation : QueuedAttestation
  counted : Bool

/-- The attestation that a call brings, if it is accepted and is not for the zero root. -/
def accepted? (fc : ForkChoice) : Call → Option QueuedAttestation
  | .attestation attestation fromBlock =>
    if !attestation.data.head.isZero && (fc.onAttestation attestation fromBlock).result.isOk then
      some attestation.waiting
    else none
  | _ => none

/-- The slot at which a call gets to the queue: an update of time does, unless a tick fails. -/
def opening? (fc : ForkChoice) : Call → Option Slot
  | .time slot =>
    let ticked := fc.advanceTime (slot.toNat - fc.store.slot.toNat)
    if ticked.result.isOk then some ticked.state.store.slot else none
  | _ => none

namespace Receipt

def atOpening (slot : Slot) (receipt : Receipt) : Receipt :=
  { receipt with counted := receipt.counted || receipt.attestation.slot < slot }

def atArrival (slot : Slot) (attestation : QueuedAttestation) : Receipt where
  attestation
  counted := attestation.slot < slot

end Receipt

def receiptsAfter (fc : ForkChoice) (call : Call) (receipts : List Receipt) : List Receipt :=
  (match fc.opening? call with
    | some slot => receipts.map (·.atOpening slot)
    | none => receipts) ++
  (fc.accepted? call).toList.map (.atArrival fc.store.slot)

def receipts : List (Event ForkChoice Call) → List Receipt
  | [] => []
  | event :: earlier => receiptsAfter event.before event.call (receipts earlier)

def acceptedIn : List (Event ForkChoice Call) → List QueuedAttestation
  | [] => []
  | event :: earlier => acceptedIn earlier ++ (event.before.accepted? event.call).toList

def counted (receipts : List Receipt) : List QueuedAttestation :=
  (receipts.filter (·.counted)).map (·.attestation)

def waiting (receipts : List Receipt) : List QueuedAttestation :=
  (receipts.filter (!·.counted)).map (·.attestation)

def due (fc : ForkChoice) (call : Call) : List QueuedAttestation :=
  (match fc.opening? call with
    | some slot => fc.queue.filter (·.slot < slot)
    | none => []) ++
  (fc.accepted? call).toList.filter (·.slot < fc.store.slot)

def pending (fc : ForkChoice) (call : Call) : List QueuedAttestation :=
  (match fc.opening? call with
    | some slot => fc.queue.filter (slot ≤ ·.slot)
    | none => fc.queue) ++
  (fc.accepted? call).toList.filter (fc.store.slot ≤ ·.slot)

/-- The messages that a call hands to the table of votes. -/
def handed (fc : ForkChoice) (call : Call) : List Message :=
  ((⟨fc, []⟩ : Watched).after call).handed

def handedIn : List (Event ForkChoice Call) → List Message
  | [] => []
  | event :: earlier => handedIn earlier ++ handed event.before event.call

/-- Messages come with attestations only, and lists of balances are shorter than there are words. -/
def Countable (_ : List (Event ForkChoice Call)) (_ : ForkChoice) : Call → Prop
  | .message .. => False
  | call => call.IsSized

variable {fc init : ForkChoice} {history : List (Event ForkChoice Call)} {call : Call}
  {settled : List Receipt}

structure Serves (fc : ForkChoice) (call : Call) : Prop where
  handed : handed fc call = (due fc call).flatMap (·.messages)
  queue : (fc.after call).queue = pending fc call
  opening : ∀ slot, fc.opening? call = some slot → (fc.after call).store.slot = slot
  slot : fc.store.slot ≤ (fc.after call).store.slot

theorem accepted?_eq_some {attestation : QueuedAttestation} :
    fc.accepted? call = some attestation ↔ ∃ arriving fromBlock,
      call = .attestation arriving fromBlock ∧ arriving.waiting = attestation ∧
        arriving.data.head.isZero = false ∧
        (fc.onAttestation arriving fromBlock).result = .ok () := by
  constructor
  · intro accepted
    cases call with
    | attestation arriving fromBlock =>
      rw [accepted?] at accepted
      split at accepted
      · rename_i passed
        obtain ⟨nonzero, ok⟩ := Bool.and_eq_true_iff.mp passed
        refine ⟨arriving, fromBlock, rfl, Option.some.inj accepted,
          (Bool.not_eq_true' _).mp nonzero, ?_⟩
        cases result : (fc.onAttestation arriving fromBlock).result with
        | error cause =>
          rw [result] at ok
          contradiction
        | ok _ => rfl
      · contradiction
    | _ => contradiction
  · rintro ⟨arriving, fromBlock, rfl, rfl, nonzero, ok⟩
    simp [accepted?, nonzero, ok, Except.isOk, Except.toBool]

/-- The messages of an accepted attestation name a block and are from known validators. -/
theorem known_of_accepted? {attestation : QueuedAttestation}
    (accepted : fc.accepted? call = some attestation) : attestation.head ≠ .zero ∧
      ∀ validator ∈ attestation.validators,
        validator.toNat < fc.store.justifiedBalances.length := by
  obtain ⟨arriving, fromBlock, rfl, rfl, nonzero, ok⟩ := accepted?_eq_some.mp accepted
  refine ⟨beq_eq_false_iff_ne.mp nonzero, ?_⟩
  rw [onAttestation_eq] at ok
  have reception := fc.receive_reception arriving fromBlock id
    (castVotes arriving.data.target.epoch arriving.data.head arriving.validators)
  generalize fc.receive arriving fromBlock id _ = outcome at reception ok
  cases reception with
  | passedOver zero =>
    rw [zero] at nonzero
    contradiction
  | refused => contradiction
  | counted _ _ known => exact known
  | queued _ _ known => exact known

theorem countable_of_accepted? {attestation : QueuedAttestation} (sized : fc.Sized)
    (accepted : fc.accepted? call = some attestation) :
    ∀ message ∈ attestation.messages, VoteTable.Countable message := by
  intro message brought
  obtain ⟨validator, listed, rfl⟩ := List.mem_map.mp brought
  obtain ⟨nonzero, known⟩ := known_of_accepted? accepted
  exact ⟨nonzero, sized.place (known validator listed)⟩

namespace Serves

theorem of_silent (opening : fc.opening? call = none) (accepted : fc.accepted? call = none)
    (handed : ForkChoice.handed fc call = []) (queue : (fc.after call).queue = fc.queue)
    (slot : fc.store.slot ≤ (fc.after call).store.slot) : Serves fc call where
  handed := by simp [handed, due, opening, accepted]
  queue := by simp [queue, pending, opening, accepted]
  opening := by simp [opening]
  slot := slot

/-- An accepted attestation is counted, or it joins the queue. -/
theorem of_accepted {attestation : QueuedAttestation} (opening : fc.opening? call = none)
    (accepted : fc.accepted? call = some attestation)
    (handed : ForkChoice.handed fc call =
      if attestation.slot < fc.store.slot then attestation.messages else [])
    (queue : (fc.after call).queue =
      if attestation.slot < fc.store.slot then fc.queue else fc.queue ++ [attestation])
    (slot : fc.store.slot ≤ (fc.after call).store.slot) : Serves fc call := by
  constructor
  · rw [handed]
    split
    · rename_i passed
      simp [due, opening, accepted, passed]
    · rename_i waits
      simp [due, opening, accepted, waits]
  · rw [queue]
    split
    · rename_i passed
      simp [pending, opening, accepted, passed]
    · rename_i waits
      simp [pending, opening, accepted, UInt64.not_lt.mp waits]
  · simp [opening]
  · exact slot

theorem attestation (sized : fc.Sized) (attestation : Attestation) (fromBlock : Bool) :
    Serves fc (.attestation attestation fromBlock) := by
  let watched : Watched := ⟨fc, []⟩
  have reception := fc.receive_reception attestation fromBlock watched.put fun fc =>
    Watched.castVotes attestation.data.target.epoch attestation.data.head attestation.validators
      (watched.put fc)
  have erases := watched.onAttestation_erases attestation fromBlock
  have state : fc.after (.attestation attestation fromBlock) =
      (watched.onAttestation attestation fromBlock).state.fc := congrArg (·.state) erases.symm
  have result : (fc.onAttestation attestation fromBlock).result =
      (watched.onAttestation attestation fromBlock).result := by
    simpa using congrArg (·.result) erases.symm
  have handed : ForkChoice.handed fc (.attestation attestation fromBlock) =
      (watched.onAttestation attestation fromBlock).state.handed := rfl
  rw [Watched.onAttestation] at state result handed
  generalize fc.receive attestation fromBlock watched.put _ = outcome
    at reception state result handed
  cases reception with
  | passedOver zero =>
    refine of_silent rfl ?_ handed (by rw [state]; rfl) (by rw [state]; exact UInt64.le_refl _)
    simp [accepted?, zero]
  | refused validated cause =>
    refine of_silent rfl ?_ handed (by rw [state]; rfl) (by rw [state]; exact UInt64.le_refl _)
    simp [accepted?, result, Except.isOk, Except.toBool]
  | counted validated nonzero known past =>
    obtain ⟨_, ⟨_, _, rfl⟩, cast⟩ := Watched.castVotes_done
      (fun validator listed => sized.place (known validator listed))
      (watched.put { fc with validated }) attestation.data.target.epoch attestation.data.head
    rw [cast] at state result handed
    have passed : attestation.waiting.slot < fc.store.slot := past
    refine of_accepted rfl (accepted?_eq_some.mpr ⟨_, _, rfl, rfl, nonzero, result⟩) ?_ ?_ ?_
    · rw [handed, if_pos passed]
      rfl
    · rw [state, if_pos passed]
      rfl
    · rw [state]
      exact UInt64.le_refl _
  | queued validated nonzero known late =>
    have waits : ¬attestation.waiting.slot < fc.store.slot := late
    refine of_accepted rfl (accepted?_eq_some.mpr ⟨_, _, rfl, rfl, nonzero, result⟩) ?_ ?_ ?_
    · rw [handed, if_neg waits]
      rfl
    · rw [state, if_neg waits]
      rfl
    · rw [state]
      exact UInt64.le_refl _

theorem time (sized : fc.Sized) (slot : Slot) : Serves fc (.time slot) := by
  let watched : Watched := ⟨fc, []⟩
  have handed : ForkChoice.handed fc (.time slot) = (watched.updateTime slot).state.handed := rfl
  have state : fc.after (.time slot) = (watched.updateTime slot).state.fc :=
    (watched.after_erases (.time slot)).symm
  obtain ⟨ticked, later⟩ := fc.advanceTime_ticked (slot.toNat - fc.store.slot.toNat)
  rw [Watched.updateTime] at handed state
  have opening : fc.opening? (.time slot) =
      let ticked := fc.advanceTime (slot.toNat - fc.store.slot.toNat)
      if ticked.result.isOk then some ticked.state.store.slot else none := rfl
  generalize fc.advanceTime (slot.toNat - fc.store.slot.toNat) = advanced at *
  cases result : advanced.result with
  | error cause =>
    have stopped : (advanced.lift watched.put id).result = .error cause := by simp [result]
    rw [Outcome.state_bind_of_error _ stopped] at handed state
    refine of_silent (by simp [opening, result, Except.isOk, Except.toBool]) rfl handed ?_ ?_
    · rw [state]
      exact ticked.queue
    · rw [state]
      exact later
  | ok _ =>
    have through : (advanced.lift watched.put id).result = .ok () := by simp [result]
    have queue : advanced.state.queue = fc.queue := ticked.queue
    have places := sized.queued
    rw [← queue] at places
    obtain ⟨_, voted, counted⟩ := (watched.put advanced.state).processQueue_done places
    rw [Outcome.state_bind_of_ok _ through, Outcome.state_lift, counted, Outcome.bind_done]
      at handed state
    simp only [result, Except.isOk, Except.toBool, if_true] at opening
    constructor
    · simp [handed, due, opening, accepted?, ready, Watched.put, watched, queue]
      rfl
    · simp [state, pending, opening, accepted?, Watched.put, voted.queue, taken, queue]
      rfl
    · simp [state, opening, Watched.put, voted.store, taken]
    · simpa [state, Watched.put, voted.store, taken] using later

theorem of_untimely (untimely : ¬call.IsTimely)
    (other : ∀ attestation fromBlock, call ≠ .attestation attestation fromBlock)
    (opening : fc.opening? call = none) (accepted : fc.accepted? call = none)
    (handed : ForkChoice.handed fc call = []) : Serves fc call := by
  refine of_silent opening accepted handed ?_ ?_
  · have step := fc.queueStep_after call
    generalize (fc.after call).queue = queue at step
    cases step with
    | same => rfl
    | joined => exact absurd rfl (other _ _)
    | left => exact absurd trivial untimely
  · have step := fc.storeStep_after call
    generalize (fc.after call).store = store at step
    cases step with
    | same | followed => exact UInt64.le_refl _
    | elapsed timely => exact absurd timely untimely

theorem of_countable (sized : fc.Sized) (countable : Countable history fc call) :
    Serves fc call := by
  cases call with
  | message => exact countable.elim
  | attestation attestation fromBlock => exact Serves.attestation sized attestation fromBlock
  | time slot => exact time sized slot
  | tick slot =>
    obtain ⟨ticked, later⟩ := fc.onTick_ticked slot
    exact of_silent rfl rfl rfl ticked.queue later
  | block | head | prune | setPruneThreshold | validPayload | invalidPayload =>
    exact of_untimely id nofun rfl rfl rfl

end Serves

theorem receiptsAfter_attestation (fc : ForkChoice) (call : Call) (settled : List Receipt) :
    (receiptsAfter fc call settled).map (·.attestation) =
      settled.map (·.attestation) ++ (fc.accepted? call).toList := by
  rw [receiptsAfter]
  cases fc.opening? call <;>
    simp [Receipt.atOpening, Receipt.atArrival, Function.comp_def]

theorem receipts_attestation (history : List (Event ForkChoice Call)) :
    (receipts history).map (·.attestation) = acceptedIn history := by
  induction history with
  | nil => rfl
  | cons event earlier ih => rw [receipts, receiptsAfter_attestation, ih, acceptedIn]

theorem waiting_after (call : Call) (queue : fc.queue = waiting settled) :
    waiting (receiptsAfter fc call settled) = pending fc call := by
  rw [waiting, receiptsAfter, List.filter_append, List.map_append, pending, queue, waiting]
  congr 1
  · cases fc.opening? call with
    | none => rfl
    | some slot =>
      simp [List.filter_map, Receipt.atOpening, Function.comp_def, ← UInt64.not_lt, Bool.and_comm]
  · simp [List.filter_map, Receipt.atArrival, Function.comp_def, ← UInt64.not_lt]

/-- What has one property or another has the one, or the other only. -/
theorem filter_or_perm {α : Type} (p q : α → Bool) (l : List α) :
    (l.filter fun a => p a || q a).Perm (l.filter p ++ l.filter fun a => !p a && q a) := by
  have parts := List.filter_append_perm p (l.filter fun a => p a || q a)
  have first (a : α) : (p a && (p a || q a)) = p a := by cases p a <;> rfl
  have second (a : α) : (!p a && (p a || q a)) = (!p a && q a) := by cases p a <;> rfl
  simp only [List.filter_filter, first, second] at parts
  exact parts.symm

theorem counted_after (call : Call) (queue : fc.queue = waiting settled) :
    (counted (receiptsAfter fc call settled)).Perm (counted settled ++ due fc call) := by
  rw [counted, receiptsAfter, List.filter_append, List.map_append, due, ← List.append_assoc, queue,
    waiting, counted]
  refine List.Perm.append ?_ (.of_eq ?_)
  · cases fc.opening? call with
    | none => simp
    | some slot =>
      have parts := filter_or_perm Receipt.counted (·.attestation.slot < slot) settled
      simpa [List.filter_map, Receipt.atOpening, Function.comp_def, Bool.and_comm] using
        parts.map (·.attestation)
  · simp [List.filter_map, Receipt.atArrival, Function.comp_def]

def Past (fc : ForkChoice) (receipt : Receipt) : Prop :=
  receipt.counted = true → receipt.attestation.slot < fc.store.slot

theorem past_after (serves : Serves fc call) (past : ∀ receipt ∈ settled, Past fc receipt) :
    ∀ receipt ∈ receiptsAfter fc call settled, Past (fc.after call) receipt := by
  intro receipt member counted
  rcases List.mem_append.mp member with old | new
  · cases opening : fc.opening? call with
    | none =>
      simp only [opening] at old
      exact UInt64.lt_of_lt_of_le (past receipt old counted) serves.slot
    | some slot =>
      simp only [opening] at old
      obtain ⟨before, listed, rfl⟩ := List.mem_map.mp old
      rcases Bool.or_eq_true_iff.mp counted with already | now
      · exact UInt64.lt_of_lt_of_le (past before listed already) serves.slot
      · rw [serves.opening slot opening]
        exact of_decide_eq_true now
  · obtain ⟨attestation, -, rfl⟩ := List.mem_map.mp new
    exact UInt64.lt_of_lt_of_le (of_decide_eq_true counted) serves.slot

theorem recalls_updateHead {messages : List Message}
    (recalls : VoteTable.Recalls messages fc.votes) :
    VoteTable.Recalls messages fc.updateHead.state.votes := by
  rcases Watched.votes_updateHead fc with same | moved
  · rwa [same]
  · rw [moved]
    exact recalls.deltas _ _ _

theorem recalls_after {messages : List Message} (recalls : VoteTable.Recalls messages fc.votes)
    (countable : ∀ message ∈ handed fc call, VoteTable.Countable message) :
    VoteTable.Recalls (messages ++ handed fc call) (fc.after call).votes := by
  by_cases head : call = .head
  · subst head
    have silent : handed fc .head = [] := rfl
    rw [silent, List.append_nil]
    exact recalls_updateHead recalls
  · rw [Watched.votes_after fc head]
    exact recalls.foldl_take countable

structure Settled (history : List (Event ForkChoice Call)) (fc : ForkChoice) : Prop where
  sized : fc.Sized
  queue : fc.queue = waiting (receipts history)
  past : ∀ receipt ∈ receipts history, Past fc receipt
  handed : (handedIn history).Perm ((counted (receipts history)).flatMap (·.messages))
  countable : ∀ attestation ∈ acceptedIn history, ∀ message ∈ attestation.messages,
    VoteTable.Countable message
  recalls : VoteTable.Recalls (handedIn history) fc.votes

namespace Settled

theorem countable_handed (settled : Settled history fc) (countable : Countable history fc call) :
    ∀ message ∈ ForkChoice.handed fc call, VoteTable.Countable message := by
  rw [(Serves.of_countable settled.sized countable).handed]
  intro message member
  obtain ⟨attestation, listed, brought⟩ := List.mem_flatMap.mp member
  rcases List.mem_append.mp listed with waits | arrives
  · split at waits
    · have queued := List.mem_of_mem_filter waits
      rw [settled.queue, ForkChoice.waiting] at queued
      obtain ⟨receipt, given, rfl⟩ := List.mem_map.mp queued
      refine settled.countable _ ?_ message brought
      rw [← receipts_attestation]
      exact List.mem_map_of_mem (List.mem_of_mem_filter given)
    · contradiction
  · have accepted := Option.mem_toList.mp (List.mem_of_mem_filter arrives)
    exact countable_of_accepted? settled.sized accepted message brought

theorem after (settled : Settled history fc) (countable : Countable history fc call) :
    Settled (⟨fc, call⟩ :: history) (fc.after call) := by
  have serves := Serves.of_countable settled.sized countable
  have supplied : call.IsSized := by
    cases call with
    | message => exact countable.elim
    | _ => exact countable
  refine ⟨settled.sized.after supplied, ?_, past_after serves settled.past, ?_, ?_, ?_⟩
  · rw [serves.queue, receipts, waiting_after _ settled.queue]
  · have parts := (counted_after call settled.queue).flatMap_right (·.messages)
    rw [handedIn, receipts, serves.handed]
    exact (settled.handed.append_right _).trans (by simpa using parts.symm)
  · intro attestation member
    rcases List.mem_append.mp member with old | new
    · exact settled.countable attestation old
    · exact countable_of_accepted? settled.sized (Option.mem_toList.mp new)
  · exact recalls_after settled.recalls (settled.countable_handed countable)

theorem start {preset : Preset} {config : ChainConfig} {settings : NodeSettings} {anchor : Block}
    {slot : Slot} {balances : Balances} (size : balances.length < UInt64.size)
    (started : ForkChoice.start preset config settings anchor slot balances = .ok fc) :
    Settled [] fc := by
  obtain ⟨_, _, _, _, _, _, state⟩ := start_rehead started
  refine ⟨.start size started, ?_, List.forall_mem_nil _, .refl _, List.forall_mem_nil _, ?_⟩
  · rw [state]
    rfl
  · obtain ⟨_, _, -, updated⟩ := start_ok started
    rw [updated]
    exact recalls_updateHead .empty

end Settled

variable {preset : Preset} {config : ChainConfig} {settings : NodeSettings} {anchor : Block}
  {slot : Slot} {balances : Balances}

/--
In every state of a run, the accepted attestations that are not in the queue are those whose
messages were handed to the table of votes, each message once. Their slots have passed. A call hands
on what is due, in the order of arrival, and the table learns that and nothing else: of every
validator it says what the messages that have been handed to it come to. Once time is updated no
slot in the queue has passed.
-/
theorem votes_handed_once (size : balances.length < UInt64.size)
    (started : start preset config settings anchor slot balances = .ok init)
    (run : Run after Countable init history fc) :
    (receipts history).map (·.attestation) = acceptedIn history ∧
    fc.queue = waiting (receipts history) ∧
    (handedIn history).Perm ((counted (receipts history)).flatMap (·.messages)) ∧
    (∀ receipt ∈ receipts history, receipt.counted = true →
      receipt.attestation.slot < fc.store.slot) ∧
    (∀ call, Countable history fc call →
      handed fc call = (due fc call).flatMap (·.messages) ∧
      (fc.after call).votes.latest =
        ((handed fc call).foldl VoteTable.take fc.votes).latest) ∧
    (∀ validator, VoteTable.Latest ((handedIn history).filter (·.validator = validator))
      (fc.votes.latest? validator)) ∧
    ∀ later current, (fc.updateTime later).result = .ok current →
      ∀ attestation ∈ (fc.updateTime later).state.queue,
        (fc.updateTime later).state.store.slot ≤ attestation.slot := by
  have settled := Run.invariant (P := Settled) (.start size started) Settled.after run
  refine ⟨receipts_attestation history, settled.queue, settled.handed, settled.past, ?_,
    settled.recalls.latest, ?_⟩
  · intro call countable
    exact ⟨(Serves.of_countable settled.sized countable).handed, Watched.latest_after fc call⟩
  · intro later current ok
    exact fc.updateTime_waits ok

/-- Of two attestations from one epoch, one is counted at once, the other when its slot is over. -/
theorem votes_handed_once_over_two_slots :
    ∃ history fc, start .minimal .minimal .pruneEagerly genesis 0 genesisBalances = .ok atGenesis ∧
      Run after Countable atGenesis history fc ∧ fc.queue = [] ∧
      handedIn history = [⟨0, 1, .ofNat 1⟩, ⟨1, 1, .ofNat 1⟩, ⟨2, 1, .ofNat 1⟩] ∧
      (handedIn history).Perm ((counted (receipts history)).flatMap (·.messages)) ∧
      fc.votes.latest? 2 = some (.ofNat 1, 1) ∧
      VoteTable.Latest ((handedIn history).filter (·.validator = 2)) (fc.votes.latest? 2) := by
  let arriving (slot : Slot) (validators : List ValidatorIndex) : Call :=
    .attestation ⟨validators, ⟨slot, 0, .ofNat 1, ⟨0, .ofNat 1⟩, ⟨1, .ofNat 1⟩⟩⟩ false
  have started : Run after Countable atGenesis [] atGenesis := .start
  have run := (((started.call (.time 10) trivial).call (arriving 10 [2]) trivial).call
    (arriving 9 [0, 1]) trivial).call (.time 11) trivial
  obtain ⟨-, -, once, -, -, latest, -⟩ := votes_handed_once (by decide) start_genesis run
  exact ⟨_, _, start_genesis, run, by decide +kernel, by decide +kernel, once, by decide +kernel,
    latest 2⟩

end LmdGhost.ForkChoice
