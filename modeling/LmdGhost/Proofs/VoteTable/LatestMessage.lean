import LmdGhost.Proofs.ForkChoice.Watching
import LmdGhost.Proofs.Run
/-!
The rule of the latest message. Messages are offered to a table of votes one by one, and in between
its votes are moved to their latest blocks, which may fail half-way. What the table says of a
validator depends on the messages of this validator alone: it is the earliest of those that have the
greatest epoch. So where no validator names two blocks for one epoch, tables that have been offered
the same messages say the same, in whatever order the messages came.
-/

namespace LmdGhost.VoteTable

open ForkChoice (Message HasPlace)

inductive Call where
  | offer (message : Message)
  | move (index : RootIndex) (old new : Balances)

def after (table : VoteTable) : Call → VoteTable
  | .offer message => table.take message
  | .move index old new => (table.deltas index old new).state

/-- A message that can be told from no message, from a validator that has a place in the table. -/
structure Countable (message : Message) : Prop where
  nonzero : message.root ≠ .zero
  place : HasPlace message.validator

/-- Only countable messages are offered. Votes may be moved at any time, whatever comes of it. -/
def Offerable (_ : List (Event VoteTable Call)) (_ : VoteTable) : Call → Prop
  | .offer message => Countable message
  | .move .. => True

def Call.message? : Call → Option Message
  | .offer message => some message
  | .move .. => none

/-- The messages that have been offered, in the order of their arrival. -/
def offered : List (Event VoteTable Call) → List Message
  | [] => []
  | event :: earlier => offered earlier ++ event.call.message?.toList

def offeredBy (validator : ValidatorIndex) (history : List (Event VoteTable Call)) : List Message :=
  (offered history).filter (·.validator = validator)

def latest? (table : VoteTable) (validator : ValidatorIndex) : Option (Root × Epoch) :=
  (table.get? validator).map fun vote => (vote.latest, vote.epoch)

/-- What messages come to: nothing, or the earliest of those that have the greatest epoch. -/
inductive Latest : List Message → Option (Root × Epoch) → Prop where
  | silence : Latest [] none
  | message {earlier later : List Message} {message : Message}
      (newer : ∀ other ∈ earlier, other.epoch < message.epoch)
      (newest : ∀ other ∈ later, other.epoch ≤ message.epoch) :
      Latest (earlier ++ message :: later) (some (message.root, message.epoch))

/-- No validator names two blocks for one epoch. -/
def Unequivocal (messages : List Message) : Prop :=
  ∀ a ∈ messages, ∀ b ∈ messages, a.validator = b.validator → a.epoch = b.epoch → a.root = b.root

def isOutdated (said : Option (Root × Epoch)) (epoch : Epoch) : Bool :=
  said.all (·.2 < epoch)

variable {table : VoteTable} {messages messages' : List Message} {message : Message}
  {validator other : ValidatorIndex} {said said' : Option (Root × Epoch)} {epoch : Epoch}
  {root : Root} {history history' : List (Event VoteTable Call)}

namespace Latest

theorem eq_none_iff (latest : Latest messages said) : said = none ↔ messages = [] := by
  cases latest with
  | silence => exact iff_of_true rfl rfl
  | message => exact iff_of_false nofun (List.append_ne_nil_of_right_ne_nil _ nofun)

theorem exists_mem {now : Root × Epoch} (latest : Latest messages (some now)) :
    ∃ message ∈ messages, now = (message.root, message.epoch) := by
  cases latest with
  | message => exact ⟨_, List.mem_append_right _ List.mem_cons_self, rfl⟩

theorem epoch_le {now : Root × Epoch} (latest : Latest messages (some now)) :
    ∀ message ∈ messages, message.epoch ≤ now.2 := by
  cases latest with
  | message newer newest =>
    simp only [List.forall_mem_append, List.forall_mem_cons]
    exact ⟨fun other member => UInt64.le_of_lt (newer other member), UInt64.le_refl _, newest⟩

/-- What the messages come to is outdated by an epoch that all of them are before. -/
theorem isOutdated_iff (latest : Latest messages said) :
    isOutdated said epoch = true ↔ ∀ message ∈ messages, message.epoch < epoch := by
  cases said with
  | none => simp [isOutdated, latest.eq_none_iff.mp rfl]
  | some now =>
    rw [isOutdated, Option.all_some, decide_eq_true_iff]
    constructor
    · exact fun older message member => UInt64.lt_of_le_of_lt (latest.epoch_le message member) older
    · intro below
      obtain ⟨message, member, rfl⟩ := latest.exists_mem
      exact below message member

/-- Another message is the latest one if it outdates the others, and else makes no difference. -/
theorem append (latest : Latest messages said) (message : Message) :
    Latest (messages ++ [message])
      (if isOutdated said message.epoch then some (message.root, message.epoch) else said) := by
  split
  · rename_i outdated
    exact .message (latest.isOutdated_iff.mp outdated) (List.forall_mem_nil _)
  · rename_i stays
    cases latest with
    | silence => contradiction
    | message newer newest =>
      simp only [isOutdated, Option.all_some, decide_eq_true_eq, UInt64.not_lt] at stays
      rw [List.append_assoc, List.cons_append]
      refine .message newer ?_
      simpa only [List.forall_mem_append, List.forall_mem_singleton] using ⟨newest, stays⟩

/-- The same messages come to the same in any order if no two of them conflict. -/
theorem unique (latest : Latest messages said) (latest' : Latest messages' said')
    (same : ∀ message, message ∈ messages ↔ message ∈ messages')
    (agree : ∀ a ∈ messages, ∀ b ∈ messages, a.epoch = b.epoch → a.root = b.root) :
    said = said' := by
  cases said with
  | none =>
    rw [latest.eq_none_iff.mp rfl] at same
    refine (latest'.eq_none_iff.mpr (List.eq_nil_iff_forall_not_mem.mpr ?_)).symm
    exact fun message member => List.not_mem_nil ((same message).mpr member)
  | some now =>
    obtain ⟨a, member, rfl⟩ := latest.exists_mem
    cases said' with
    | none =>
      rw [latest'.eq_none_iff.mp rfl] at same
      exact absurd ((same a).mp member) List.not_mem_nil
    | some now' =>
      obtain ⟨b, member', rfl⟩ := latest'.exists_mem
      have epochs : a.epoch = b.epoch := UInt64.le_antisymm
        (latest'.epoch_le a ((same a).mp member)) (latest.epoch_le b ((same b).mpr member'))
      rw [agree a member b ((same b).mpr member') epochs, epochs]

end Latest

/-- The vote that a table keeps for a validator, blank if it has not come to that validator yet. -/
def kept (table : VoteTable) (validator : ValidatorIndex) : Vote :=
  table.votes[validator.toNat]?.getD .blank

theorem get?_eq (table : VoteTable) (validator : ValidatorIndex) :
    table.get? validator =
      if (table.kept validator).isBlank then none else some (table.kept validator) := by
  rw [get?, kept]
  cases table.votes[validator.toNat]? with
  | none => rfl
  | some vote => cases blank : vote.isBlank <;> simp [Option.filter, blank]

theorem kept_grow (table : VoteTable) (validator other : ValidatorIndex) :
    (table.grow validator).kept other = table.kept other := by
  rw [kept, kept, grow, List.getElem?_append]
  split
  · rfl
  · rename_i past
    rw [List.getElem?_eq_none (Nat.not_lt.mp past), List.getElem?_replicate]
    split <;> rfl

/-- A message outdates a vote if it outdates what the table says. -/
theorem yieldsTo_kept (table : VoteTable) (validator : ValidatorIndex) (epoch : Epoch) :
    (table.kept validator).yieldsTo epoch = isOutdated (table.latest? validator) epoch := by
  rw [latest?, get?_eq, Vote.yieldsTo]
  cases (table.kept validator).isBlank <;> simp [isOutdated]

def renew (table : VoteTable) (message : Message) : VoteTable :=
  ⟨(table.grow message.validator).votes.set message.validator.toNat
    { table.kept message.validator with latest := message.root, epoch := message.epoch }⟩

theorem kept_renew (table : VoteTable) (message : Message) (other : ValidatorIndex) :
    (table.renew message).kept other = if message.validator = other then
        { table.kept other with latest := message.root, epoch := message.epoch }
      else table.kept other := by
  have bound : message.validator.toNat < (table.grow message.validator).votes.length := by
    simp only [grow, List.length_append, List.length_replicate]
    omega
  rw [kept, renew, List.getElem?_set]
  by_cases same : message.validator = other
  · subst same
    rw [if_pos rfl, if_pos rfl, if_pos bound]
    rfl
  · rw [if_neg (mt UInt64.toNat_inj.mp same), if_neg same, ← kept, kept_grow]

/-- A message that has a place renews the vote of its validator if it outdates that. -/
theorem record_eq (table : VoteTable) (place : HasPlace message.validator) :
    table.record message.validator message.root message.epoch = .ok
      (if isOutdated (table.latest? message.validator) message.epoch then
        (table.renew message, true)
      else (table.grow message.validator, false)) := by
  have at_validator := table.kept_grow message.validator message.validator
  rw [kept] at at_validator
  rw [record, if_neg (Nat.ne_of_lt place)]
  simp only [at_validator, yieldsTo_kept]
  split <;> rfl

theorem take_eq (table : VoteTable) (place : HasPlace message.validator) :
    table.take message = if isOutdated (table.latest? message.validator) message.epoch then
      table.renew message else table.grow message.validator := by
  rw [take, record_eq table place]
  cases isOutdated (table.latest? message.validator) message.epoch <;> rfl

theorem record_take (table : VoteTable) (place : HasPlace message.validator) :
    table.record message.validator message.root message.epoch =
      .ok (table.take message, isOutdated (table.latest? message.validator) message.epoch) := by
  rw [record_eq table place, take_eq table place]
  cases isOutdated (table.latest? message.validator) message.epoch <;> rfl

/-- A vote that names a block is not blank. -/
theorem isBlank_of_named {vote : Vote} (named : vote.latest ≠ .zero) : vote.isBlank = false := by
  rw [Vote.isBlank, beq_eq_false_iff_ne]
  exact fun blank => named (congrArg Vote.latest blank)

/-- A vote has named a block since it was no longer blank. -/
def Cast (table : VoteTable) : Prop :=
  ∀ vote ∈ table.votes, vote = .blank ∨ vote.latest ≠ .zero

namespace Cast

/-- Where all votes are cast, the table says what votes have last been given. -/
theorem latest?_eq (cast : table.Cast) (validator : ValidatorIndex) :
    table.latest? validator = table.latest[validator.toNat]?.filter (!·.1.isZero) := by
  rw [latest?, get?, latest, List.getElem?_map]
  cases at_validator : table.votes[validator.toNat]? with
  | none => rfl
  | some vote =>
    rcases cast vote (List.mem_of_getElem? at_validator) with rfl | named
    · rfl
    · simp [Option.filter, isBlank_of_named named, Root.isZero, named]

theorem take (cast : table.Cast) (countable : Countable message) : (table.take message).Cast := by
  have grown : (table.grow message.validator).Cast := by
    intro vote member
    rcases mem_grow member with member | rfl
    · exact cast vote member
    · exact .inl rfl
  rw [take_eq table countable.place]
  split
  · intro vote member
    rcases List.mem_or_eq_of_mem_set member with member | rfl
    · exact grown vote member
    · exact .inr countable.nonzero
  · exact grown

theorem deltas (cast : table.Cast) (index : RootIndex) (old new : Balances) :
    (table.deltas index old new).state.Cast := by
  intro vote member
  obtain ⟨before, was_there, rfl | rfl⟩ := mem_settleFrom member
  · exact cast vote was_there
  · exact (cast before was_there).imp_left fun blank => by rw [blank]; rfl

/-- Votes may be moved from their blocks, and say the same. -/
theorem latest?_deltas (cast : table.Cast) (index : RootIndex) (old new : Balances)
    (validator : ValidatorIndex) :
    (table.deltas index old new).state.latest? validator = table.latest? validator := by
  rw [(cast.deltas index old new).latest?_eq, cast.latest?_eq, latest_deltas]

end Cast

/-- A message is the latest one of its validator if it outdates what the table says. -/
theorem latest?_take_self (table : VoteTable) (countable : Countable message) :
    (table.take message).latest? message.validator =
      if isOutdated (table.latest? message.validator) message.epoch then
        some (message.root, message.epoch) else table.latest? message.validator := by
  rw [take_eq table countable.place]
  split
  · rw [latest?, get?_eq, kept_renew, if_pos rfl, isBlank_of_named countable.nonzero]
    rfl
  · rw [latest?, latest?, get?_eq, get?_eq, kept_grow]

/-- A message says nothing of other validators. -/
theorem get?_take_of_ne (table : VoteTable) (place : HasPlace message.validator)
    (other : validator ≠ message.validator) :
    (table.take message).get? validator = table.get? validator := by
  rw [take_eq table place, get?_eq, get?_eq]
  split
  · rw [kept_renew, if_neg other.symm]
  · rw [kept_grow]

structure Recalls (messages : List Message) (table : VoteTable) : Prop where
  cast : table.Cast
  latest : ∀ validator,
    Latest (messages.filter (·.validator = validator)) (table.latest? validator)

namespace Recalls

theorem empty : Recalls [] empty :=
  ⟨nofun, fun _ => .silence⟩

theorem take (recalls : Recalls messages table) (countable : Countable message) :
    Recalls (messages ++ [message]) (table.take message) := by
  refine ⟨recalls.cast.take countable, fun validator => ?_⟩
  rw [List.filter_append, List.filter_singleton]
  by_cases own : message.validator = validator
  · subst own
    rw [latest?_take_self table countable, decide_eq_true rfl]
    exact (recalls.latest _).append message
  · have same : (table.take message).latest? validator = table.latest? validator := by
      rw [latest?, get?_take_of_ne table countable.place (Ne.symm own), latest?]
    rw [decide_eq_false own, same]
    simpa using recalls.latest validator

theorem foldl_take (recalls : Recalls messages table)
    (countable : ∀ message ∈ messages', Countable message) :
    Recalls (messages ++ messages') (messages'.foldl VoteTable.take table) := by
  induction messages' generalizing messages table with
  | nil => rwa [List.append_nil]
  | cons message messages' ih =>
    obtain ⟨here, others⟩ := List.forall_mem_cons.mp countable
    rw [List.append_cons]
    exact ih (recalls.take here) others

theorem deltas (recalls : Recalls messages table) (index : RootIndex) (old new : Balances) :
    Recalls messages (table.deltas index old new).state := by
  refine ⟨recalls.cast.deltas index old new, fun validator => ?_⟩
  rw [recalls.cast.latest?_deltas]
  exact recalls.latest validator

theorem after (recalls : Recalls (offered history) table) {call : Call}
    (offerable : Offerable history table call) :
    Recalls (offered (⟨table, call⟩ :: history)) (table.after call) := by
  cases call with
  | offer message => exact recalls.take offerable
  | move index old new =>
    have silent : offered (⟨table, .move index old new⟩ :: history) = offered history :=
      List.append_nil _
    rw [silent]
    exact recalls.deltas index old new

theorem of_run (run : Run VoteTable.after Offerable .empty history table) :
    Recalls (offered history) table :=
  run.invariant (P := fun history => Recalls (offered history)) empty fun recalls => recalls.after

end Recalls

/--
A table knows nothing of the validators that have sent no message. Of the others it says what their
messages come to. A message is taken over exactly if it outdates all that its validator has sent,
and is without effect on other validators. Without equivocation the order of arrival is without
effect, too.
-/
theorem latest_message_of_run (run : Run after Offerable .empty history table) :
    (∀ validator, table.get? validator = none ↔ offeredBy validator history = []) ∧
    (∀ validator, Latest (offeredBy validator history) (table.latest? validator)) ∧
    (∀ message, Countable message → ∃ table' recorded,
      table.record message.validator message.root message.epoch = .ok (table', recorded) ∧
      (recorded = true ↔
        ∀ sent ∈ offeredBy message.validator history, sent.epoch < message.epoch) ∧
      table'.latest? message.validator = (if recorded then some (message.root, message.epoch)
        else table.latest? message.validator) ∧
      ∀ other, other ≠ message.validator → table'.get? other = table.get? other) ∧
    ∀ history' table', Run after Offerable .empty history' table' →
      (∀ message, message ∈ offered history ↔ message ∈ offered history') →
      Unequivocal (offered history) → table'.latest? = table.latest? := by
  have recalls := Recalls.of_run run
  refine ⟨fun validator => ?_, recalls.latest, fun message countable => ?_,
    fun history' table' run' same agree => ?_⟩
  · rw [offeredBy, ← (recalls.latest validator).eq_none_iff, latest?, Option.map_eq_none_iff]
  · refine ⟨table.take message, _, table.record_take countable.place,
      (recalls.latest message.validator).isOutdated_iff,
      table.latest?_take_self countable, fun other differs => ?_⟩
    exact table.get?_take_of_ne countable.place differs
  · funext validator
    refine ((recalls.latest validator).unique ((Recalls.of_run run').latest validator) ?_ ?_).symm
    · intro message
      rw [List.mem_filter, List.mem_filter, same message]
    · intro a member b member' epochs
      rw [List.mem_filter, decide_eq_true_iff] at member member'
      exact agree a member.1 b member'.1 (member.2.trans member'.2.symm) epochs

/-- A vote in epoch 0, one that replaces it, one that comes too late, and another validator's. -/
def sentMessages : List Message :=
  [⟨0, 0, .ofNat 5⟩, ⟨0, 3, .ofNat 8⟩, ⟨0, 1, .ofNat 6⟩, ⟨1, 2, .ofNat 6⟩]

/-- An attempt to move the votes that fails, as a balance is too large for a change. -/
def overflowingMove : Call :=
  .move ((∅ : RootIndex).insert (.ofNat 5) 0) [] [9223372036854775808]

/--
The votes are offered in order, with a move after the first that fails, and then in reverse, with a
move in between. The tables differ in where votes are counted, but say the same. Another message is
turned down by the first of them.
-/
theorem sentMessages_latest : ∃ history history' table table',
    Run after Offerable .empty history table ∧ Run after Offerable .empty history' table' ∧
    offered history = sentMessages ∧ offered history' = sentMessages.reverse ∧
    table ≠ table' ∧ table'.latest? = table.latest? ∧ table.latest? 0 = some (.ofNat 8, 3) ∧
    table.get? 2 = none ∧ ∃ table'', table.record 1 (.ofNat 7) 2 = .ok (table'', false) := by
  have countable : ∀ message ∈ sentMessages, Countable message := by
    have checks : ∀ message ∈ sentMessages,
        message.root ≠ .zero ∧ message.validator.toNat + 1 < UInt64.size := by decide +kernel
    exact fun message member => ⟨(checks message member).1, (checks message member).2⟩
  obtain ⟨first, newer, older, other, -⟩ := by
    simpa only [sentMessages, List.forall_mem_cons] using countable
  have outset : Run after Offerable .empty [] .empty := .start
  have run := ((((outset.call (.offer _) first).call overflowingMove trivial).call
    (.offer _) newer).call (.offer _) older).call (.offer _) other
  have run' := ((((outset.call (.offer _) other).call (.offer _) older).call
    (.move ∅ [] []) trivial).call (.offer _) newer).call (.offer _) first
  have agree : Unequivocal sentMessages := by
    have checks : ∀ a ∈ sentMessages, ∀ b ∈ sentMessages, a.validator = b.validator →
      a.epoch = b.epoch → a.root = b.root := by decide +kernel
    exact checks
  obtain ⟨silent, -, takes, order⟩ := latest_message_of_run run
  have same : ∀ message, message ∈ sentMessages ↔ message ∈ sentMessages.reverse :=
    fun _ => List.mem_reverse.symm
  obtain ⟨table'', recorded, ok, recorded_iff, -⟩ := takes ⟨1, 2, .ofNat 7⟩
    ⟨by decide +kernel, other.place⟩
  have declined : recorded = false := by
    rw [Bool.eq_false_iff]
    intro taken
    exact UInt64.lt_irrefl _ (recorded_iff.mp taken ⟨1, 2, .ofNat 6⟩ (by decide +kernel))
  subst declined
  exact ⟨_, _, _, _, run, run', rfl, rfl, by decide +kernel, order _ _ run' same agree,
    by decide +kernel, (silent 2).mpr (by decide +kernel), table'', ok⟩

end LmdGhost.VoteTable
