import LmdGhost.Proofs.ForkChoice.Receipts
/-!
How long the table of votes gets. An attestation is accepted only if the justified balances of the
time have a place for all its validators. It may be counted later, when the justified balances are
others and fewer, so it is the longest of all lists that were justified that bounds the table. An
attestation that is rejected leaves no vote: all validators are looked up before the first of them
is counted, and the counting itself does not fail.
-/

namespace LmdGhost

open ForkChoice (Message)

def Covers (lists : List Balances) (length : Nat) : Prop :=
  ∃ balances ∈ lists, length ≤ balances.length

theorem Covers.mono {lists lists' : List Balances} {length : Nat} (covers : Covers lists length)
    (listed : lists ⊆ lists') : Covers lists' length := by
  obtain ⟨balances, member, fits⟩ := covers
  exact ⟨balances, listed member, fits⟩

namespace VoteTable

variable {table : VoteTable} {lists : List Balances}

theorem size_grow (table : VoteTable) (validator : ValidatorIndex) :
    (table.grow validator).size = max table.size (validator.toNat + 1) := by
  simp only [grow, size, List.length_append, List.length_replicate]
  omega

theorem size_of_latest {table' : VoteTable} (same : table.latest = table'.latest) :
    table.size = table'.size := by
  have lengths := congrArg List.length same
  rwa [latest, latest, List.length_map, List.length_map] at lengths

/-- A message leaves the table as long as it is, or it makes it fit the validator. -/
theorem size_take (table : VoteTable) (message : Message) :
    (table.take message).size = table.size ∨
      (table.take message).size = message.validator.toNat + 1 := by
  have grown : (table.take message).size = table.size ∨
      (table.take message).size = (table.grow message.validator).size := by
    rw [take, record]
    dsimp only
    split_ifs
    · exact .inl rfl
    · exact .inr List.length_set
    · exact .inr rfl
  rw [size_grow] at grown
  omega

theorem covers_take (covers : Covers lists table.size) {message : Message}
    (known : Covers lists (message.validator.toNat + 1)) :
    Covers lists (table.take message).size := by
  rcases table.size_take message with size | size
  · rwa [size]
  · rwa [size]

theorem covers_foldl_take (covers : Covers lists table.size) {messages : List Message}
    (known : ∀ message ∈ messages, Covers lists (message.validator.toNat + 1)) :
    Covers lists (messages.foldl take table).size := by
  induction messages generalizing table with
  | nil => exact covers
  | cons message messages ih =>
    obtain ⟨here, others⟩ := List.forall_mem_cons.mp known
    exact ih (covers_take covers here) others

end VoteTable

namespace ForkChoice

variable {fc init : ForkChoice} {history : List (Event ForkChoice Call)} {call : Call}

def Call.isMessage : Call → Bool
  | .message .. => true
  | _ => false

/-- The lists of justified balances that the store has held, the current one first. -/
def justifiedLists (history : List (Event ForkChoice Call)) (fc : ForkChoice) : List Balances :=
  fc.store.justifiedBalances :: history.map (·.before.store.justifiedBalances)

def Places (history : List (Event ForkChoice Call)) (fc : ForkChoice)
    (validators : List ValidatorIndex) : Prop :=
  ∀ validator ∈ validators, Covers (justifiedLists history fc) (validator.toNat + 1)

theorem places_of_known {validators : List ValidatorIndex}
    (known : ∀ validator ∈ validators, validator.toNat < fc.store.justifiedBalances.length) :
    Places history fc validators :=
  fun validator listed => ⟨_, List.mem_cons_self, known validator listed⟩

/-- A rejected attestation leaves fork choice as it was, but for what it remembers of checks. -/
theorem onAttestation_rejected (sized : fc.Sized) {attestation : Attestation} {fromBlock : Bool}
    {cause : Error} (rejected : (fc.onAttestation attestation fromBlock).result = .error cause) :
    ∃ validated, (fc.onAttestation attestation fromBlock).state = { fc with validated } := by
  rw [onAttestation_eq] at rejected ⊢
  have reception := fc.receive_reception attestation fromBlock id
    (castVotes attestation.data.target.epoch attestation.data.head attestation.validators)
  generalize fc.receive attestation fromBlock id _ = outcome at reception rejected
  cases reception with
  | passedOver => contradiction
  | refused validated => exact ⟨validated, rfl⟩
  | counted _ _ known =>
    rw [castVotes_ok fun validator listed => sized.place (known validator listed)] at rejected
    contradiction
  | queued => contradiction

/-- The queue can be gone through after any number of ticks. -/
theorem processQueue_advanceTime_ok (sized : fc.Sized) (count : Nat) :
    (fc.advanceTime count).state.processQueue.result = .ok () := by
  apply processQueue_ok
  rw [(fc.advanceTime_ticked count).1.queue]
  exact sized.queued

/--
The table is no longer than some list that was justified, unless messages came by themselves, and
the same list or another one has a place for every validator in the queue.
-/
structure Bounded (history : List (Event ForkChoice Call)) (fc : ForkChoice) : Prop where
  sized : fc.Sized
  votes : (∀ event ∈ history, event.call.isMessage = false) →
    Covers (justifiedLists history fc) fc.votes.size
  queued : ∀ attestation ∈ fc.queue, Places history fc attestation.validators

namespace Bounded

theorem places_due (bounded : Bounded history fc) {attestation : QueuedAttestation}
    (member : attestation ∈ due fc call) : Places history fc attestation.validators := by
  rcases List.mem_append.mp member with waits | arrives
  · split at waits
    · exact bounded.queued attestation (List.mem_of_mem_filter waits)
    · contradiction
  · have accepted := Option.mem_toList.mp (List.mem_of_mem_filter arrives)
    exact places_of_known (known_of_accepted? accepted).2

theorem places_handed (bounded : Bounded history fc) (countable : Countable history fc call) :
    ∀ message ∈ handed fc call,
      Covers (justifiedLists history fc) (message.validator.toNat + 1) := by
  rw [(Serves.of_countable bounded.sized countable).handed]
  intro message member
  obtain ⟨attestation, listed, brought⟩ := List.mem_flatMap.mp member
  obtain ⟨validator, attests, rfl⟩ := List.mem_map.mp brought
  exact bounded.places_due listed validator attests

theorem votes_after (bounded : Bounded history fc) (countable : Countable history fc call)
    (attested : ∀ event ∈ history, event.call.isMessage = false) :
    Covers (justifiedLists history fc) (fc.after call).votes.size := by
  rw [VoteTable.size_of_latest (Watched.latest_after fc call)]
  exact VoteTable.covers_foldl_take (bounded.votes attested) (bounded.places_handed countable)

theorem queued_after (bounded : Bounded history fc) :
    ∀ attestation ∈ (fc.after call).queue, Places history fc attestation.validators := by
  have step := fc.queueStep_after call
  generalize (fc.after call).queue = queue at step
  cases step with
  | same => exact bounded.queued
  | joined known =>
    intro attestation member
    rcases List.mem_append.mp member with old | new
    · exact bounded.queued attestation old
    · rw [List.mem_singleton.mp new]
      exact places_of_known known
  | left => exact fun attestation member =>
      bounded.queued attestation (List.mem_of_mem_filter member)

theorem after (bounded : Bounded history fc) (supplied : call.IsSized) :
    Bounded (⟨fc, call⟩ :: history) (fc.after call) := by
  have still : justifiedLists history fc ⊆
      justifiedLists (⟨fc, call⟩ :: history) (fc.after call) := List.subset_cons_self _ _
  refine ⟨bounded.sized.after supplied, fun attested => ?_, fun attestation member => ?_⟩
  · obtain ⟨here, earlier⟩ := List.forall_mem_cons.mp attested
    have countable : Countable history fc call := by
      cases call with
      | message => contradiction
      | _ => exact supplied
    exact (bounded.votes_after countable earlier).mono still
  · intro validator listed
    exact (bounded.queued_after attestation member validator listed).mono still

theorem start {preset : Preset} {config : ChainConfig} {settings : NodeSettings} {anchor : Block}
    {slot : Slot} {balances : Balances} (size : balances.length < UInt64.size)
    (started : ForkChoice.start preset config settings anchor slot balances = .ok fc) :
    Bounded [] fc := by
  obtain ⟨head, _, -, state⟩ := start_ok started
  refine ⟨.start size started, fun _ => ?_, ?_⟩
  · have blank : fc.votes.size = 0 := by
      rw [state]
      exact VoteTable.size_of_latest (Watched.latest_updateHead _)
    rw [blank]
    exact ⟨_, List.mem_cons_self, Nat.zero_le _⟩
  · obtain ⟨_, _, _, _, _, same⟩ := updateHead_rehead
      (anchored preset config settings anchor slot balances head)
    rw [state, same]
    exact List.forall_mem_nil _

end Bounded

variable {preset : Preset} {config : ChainConfig} {settings : NodeSettings} {anchor : Block}
  {slot : Slot} {balances : Balances}

/--
In every state of a run: an attestation that is rejected, from a block or not, changes nothing but
what is remembered of checks, and the queue can be gone through after any number of ticks. If no
message came by itself, the table of votes is no longer than the longest of the lists of balances
that have been justified.
-/
theorem votes_bounded (size : balances.length < UInt64.size)
    (started : ForkChoice.start preset config settings anchor slot balances = .ok init)
    (run : Run ForkChoice.after (fun _ _ call => call.IsSized) init history fc) :
    (∀ attestation fromBlock cause,
      (fc.onAttestation attestation fromBlock).result = .error cause →
        ∃ validated, (fc.onAttestation attestation fromBlock).state = { fc with validated }) ∧
    (∀ count, (fc.advanceTime count).state.processQueue.result = .ok ()) ∧
    ((∀ event ∈ history, event.call.isMessage = false) →
      ∃ balances ∈ justifiedLists history fc, fc.votes.size ≤ balances.length) := by
  have bounded := Run.invariant (P := Bounded) (.start size started) Bounded.after run
  exact ⟨fun _ _ _ => onAttestation_rejected bounded.sized,
    processQueue_advanceTime_ok bounded.sized, bounded.votes⟩

/--
A vote waits while the balances of eight validators give way to those of a single one, and it is
counted nevertheless. Later on a vote of the first validator is lost along with one of the second.
-/
theorem votes_bounded_by_earlier_list :
    ∃ history fc, genesisBalances.length < UInt64.size ∧
      start .minimal .minimal .pruneEagerly genesis 0 genesisBalances = .ok atGenesis ∧
      Run ForkChoice.after (fun _ _ call => call.IsSized) atGenesis history fc ∧
      fc.votes.size = 8 ∧ fc.store.justifiedBalances = [200] ∧
      (∃ balances ∈ justifiedLists history fc, fc.votes.size ≤ balances.length) ∧
      ∃ attestation validated, attestation.validators = [0, 1] ∧
        (fc.onAttestation attestation false).result =
          .error (.invalidAttestation (.unknownValidator 1 1)) ∧
        (fc.onAttestation attestation false).state = { fc with validated } := by
  let voting (validators : List ValidatorIndex) : Attestation :=
    ⟨validators, ⟨16, 0, .ofNat 2, ⟨0, .ofNat 1⟩, ⟨2, .ofNat 2⟩⟩⟩
  let shrinking : Call := .block
    { slot := 16, proposer := 0, parent := .ofNat 2, stateRoot := .zero, payload := {} }
    { slot := 16, justified := ⟨1, .ofNat 2⟩, finalized := ⟨0, .ofNat 1⟩, genesisTime := 0
      blockRootAt := fun _ => none }
    { root := .ofNat 3, delay := ⟨0⟩, balances := some [200], status := .valid }
    .absent
  have size : genesisBalances.length < UInt64.size := by decide
  have outset : Run ForkChoice.after (fun _ _ call => call.IsSized) atGenesis [] atGenesis := .start
  have entered := (outset.call (.time 8) trivial).call
    (epochBlock 8 2 1 ⟨0, .ofNat 1⟩ ⟨0, .ofNat 1⟩) fun | _, rfl => size
  have queued := (entered.call (.time 16) trivial).call (.attestation (voting [7]) false) trivial
  have run := (queued.call shrinking fun | _, rfl => by decide).call (.time 17) trivial
  obtain ⟨rejected, -, bounded⟩ := votes_bounded size start_genesis run
  have longest := bounded (by simp [Call.isMessage, epochBlock, shrinking])
  obtain ⟨validated, state⟩ := rejected (voting [0, 1]) false
    (.invalidAttestation (.unknownValidator 1 1)) (by decide +kernel)
  exact ⟨_, _, size, start_genesis, run, by decide +kernel, by decide +kernel, longest,
    voting [0, 1], validated, rfl, by decide +kernel, state⟩

end ForkChoice

end LmdGhost
