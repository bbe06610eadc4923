import LmdGhost.Proofs.BlockTree.Weighing
import LmdGhost.VoteTable.Deltas
import Mathlib.Tactic.Linarith
/-!
The balances behind blocks. Settling votes takes from any set of positions the old balances of the
votes counted in it and adds the new balances of the votes whose latest message is in it. Recording
a message does not change where votes are counted.
-/

namespace LmdGhost

open Finset

/-- The balances of the validators, numbered from the first, whose blocks are covered. -/
def support (covers : Root → Bool) (balances : Balances) (first : Nat) (blocks : List Root) : Nat :=
  ((blocks.zipIdx first).map fun (root, validator) =>
    if covers root then (balances.of validator).toNat else 0).sum

variable {covers covers' : Root → Bool} {balances : Balances} {first : Nat} {blocks : List Root}
  {root : Root}

@[simp]
theorem support_nil : support covers balances first [] = 0 :=
  rfl

theorem support_cons (covers : Root → Bool) (balances : Balances) (first : Nat) (root : Root)
    (blocks : List Root) : support covers balances first (root :: blocks) =
      (if covers root then (balances.of first).toNat else 0) +
        support covers balances (first + 1) blocks := by
  simp [support, List.zipIdx_cons]

theorem support_congr (same : ∀ root ∈ blocks, covers' root = covers root) :
    support covers' balances first blocks = support covers balances first blocks := by
  induction blocks generalizing first with
  | nil => rfl
  | cons root blocks ih =>
    rw [support_cons, support_cons, same root List.mem_cons_self,
      ih fun other member => same other (List.mem_cons_of_mem _ member)]

theorem support_uncovered (none_covered : ∀ root ∈ blocks, covers root = false) :
    support covers balances first blocks = 0 := by
  induction blocks generalizing first with
  | nil => rfl
  | cons root blocks ih =>
    rw [support_cons, none_covered root List.mem_cons_self,
      ih fun other member => none_covered other (List.mem_cons_of_mem _ member)]
    rfl

theorem support_append (covers : Root → Bool) (balances : Balances) (first : Nat)
    (blocks more : List Root) : support covers balances first (blocks ++ more) =
      support covers balances first blocks +
        support covers balances (first + blocks.length) more := by
  simp [support, List.zipIdx_append]

/-- A block that is covered in addition adds the balances of its own votes. -/
theorem support_extend {new : Root} (before : covers new = false) (now : covers' new = true)
    (same : ∀ root, root ≠ new → covers' root = covers root) :
    support covers' balances first blocks =
      support covers balances first blocks + support (· == new) balances first blocks := by
  induction blocks generalizing first with
  | nil => rfl
  | cons root blocks ih =>
    simp only [support_cons, ih, beq_iff_eq]
    by_cases named : root = new
    · simp only [named, before, now, Bool.false_eq_true, if_true, if_false]
      omega
    · simp only [same root named, if_neg named]
      omega

def changeUnder (P : Nat → Bool) (deltas : List Delta) : Int :=
  ∑ j ∈ range deltas.length, if P j then deltaAt deltas j else 0

theorem changeUnder_zero (P : Nat → Bool) (n : Nat) : changeUnder P (List.replicate n 0) = 0 := by
  apply Finset.sum_eq_zero
  intro j member
  have bound : j < n := by simpa using member
  simp [deltaAt, bound]

/-- A change that is entered counts for a set if the block is at one of its positions. -/
theorem shiftDelta_ok {combine : Delta → Delta → Option Delta} {sign : Int}
    (exact_sum : ∀ {a b c : Delta}, combine a b = some c → c.toInt = a.toInt + sign * b.toInt)
    {index : RootIndex} {amount : Gwei} {deltas deltas' : List Delta}
    (ok : shiftDelta combine index root amount deltas = .ok deltas') (P : Nat → Bool) :
    deltas'.length = deltas.length ∧ changeUnder P deltas' = changeUnder P deltas +
      if index[root]?.any P then sign * amount.toNat else 0 := by
  rw [shiftDelta] at ok
  cases at_root : index[root]? with
  | none =>
    simp only [at_root] at ok
    cases ok
    simp
  | some i =>
    simp only [at_root] at ok
    cases deltas_i : deltas[i]? with
    | none =>
      simp only [deltas_i] at ok
      contradiction
    | some delta =>
      simp only [deltas_i] at ok
      cases changed : (Delta.ofGwei? amount).bind (combine delta) with
      | none =>
        simp only [changed] at ok
        contradiction
      | some sum =>
        simp only [changed] at ok
        cases ok
        obtain ⟨exact_amount, is_amount, combined⟩ := Option.bind_eq_some_iff.mp changed
        rw [Delta.ofGwei?_eq_some] at is_amount
        have total := exact_sum combined
        have bound := (List.getElem?_eq_some_iff.mp deltas_i).1
        refine ⟨List.length_set, ?_⟩
        simp only [changeUnder, List.length_set, deltaAt_set deltas_i, Option.any_some]
        rw [sum_of_one_change (fun j => P j = true) (deltaAt deltas) bound, total, is_amount,
          add_sub_cancel_left]

namespace Vote

variable {vote vote' : Vote} {index : RootIndex} {deltas deltas' : List Delta}

/-- A vote that is counted for the block of its latest message. -/
def settled (vote : Vote) : Vote :=
  { vote with counted := vote.latest }

theorem counted_of_isSettled {old new : Gwei} (settled : vote.isSettled old new = true) :
    vote.counted = vote.latest := by
  simp only [isSettled, Root.isZero, Bool.or_eq_true, Bool.and_eq_true, beq_iff_eq] at settled
  rcases settled with ⟨zero, zero'⟩ | ⟨same, -⟩
  · rw [zero, zero']
  · exact same

theorem eq_or_settled {old new : Gwei}
    (ok : vote.settle index old new deltas = .ok (vote', deltas')) :
    vote' = vote ∨ vote' = vote.settled := by
  rw [settle] at ok
  split at ok
  · cases ok
    exact .inl rfl
  · obtain ⟨_, -, ok⟩ := except_bind_eq_ok.mp ok
    obtain ⟨_, -, ok⟩ := except_bind_eq_ok.mp ok
    cases ok
    exact .inr rfl

theorem settle_ok {old new : Gwei} (unset : index[Root.zero]? = none)
    (ok : vote.settle index old new deltas = .ok (vote', deltas')) (P : Nat → Bool) :
    vote' = vote.settled ∧ deltas'.length = deltas.length ∧
      changeUnder P deltas' + (if index[vote.counted]?.any P then (old.toNat : Int) else 0) =
        changeUnder P deltas + (if index[vote.latest]?.any P then (new.toNat : Int) else 0) := by
  rw [settle] at ok
  split at ok
  · rename_i settled
    cases ok
    have counted := counted_of_isSettled settled
    simp only [isSettled, Root.isZero, Bool.or_eq_true, Bool.and_eq_true, beq_iff_eq] at settled
    refine ⟨congrArg (fun root => { vote with counted := root }) counted, rfl, ?_⟩
    rcases settled with ⟨zero, zero'⟩ | ⟨same, rfl⟩
    · rw [zero, zero', unset]
      rfl
    · rw [same]
  · cases taken : shiftDelta Delta.sub? index vote.counted old deltas with
    | error cause =>
      simp only [taken, bind, Except.bind] at ok
      contradiction
    | ok between =>
      simp only [taken, bind, Except.bind] at ok
      cases added : shiftDelta Delta.add? index vote.latest new between with
      | error cause =>
        simp only [added] at ok
        contradiction
      | ok deltas'' =>
        simp only [added, pure, Except.pure, Except.ok.injEq, Prod.mk.injEq] at ok
        obtain ⟨rfl, rfl⟩ := ok
        have sub_sum {a b c : Delta} (h : a.sub? b = some c) :
            c.toInt = a.toInt + -1 * b.toInt := by
          rw [Delta.sub?, Delta.ofInt?_eq_some] at h
          omega
        have add_sum {a b c : Delta} (h : a.add? b = some c) :
            c.toInt = a.toInt + 1 * b.toInt := by
          rw [Delta.add?, Delta.ofInt?_eq_some] at h
          omega
        obtain ⟨length, less⟩ := shiftDelta_ok sub_sum taken P
        obtain ⟨length', more⟩ := shiftDelta_ok add_sum added P
        refine ⟨rfl, length'.trans length, ?_⟩
        rw [more, less]
        split <;> split <;> omega

theorem settleFrom_ok {old new : Balances} {votes : List Vote} {first : Nat}
    (unset : index[Root.zero]? = none)
    (ok : (settleFrom index old new first votes deltas).result = .ok deltas') (P : Nat → Bool) :
    (settleFrom index old new first votes deltas).state = votes.map settled ∧
      deltas'.length = deltas.length ∧
      changeUnder P deltas' +
          support (fun root => index[root]?.any P) old first (votes.map (·.counted)) =
        changeUnder P deltas +
          support (fun root => index[root]?.any P) new first (votes.map (·.latest)) := by
  induction votes generalizing first deltas with
  | nil =>
    cases ok
    exact ⟨rfl, rfl, rfl⟩
  | cons vote votes ih =>
    rw [settleFrom] at ok ⊢
    cases step : vote.settle index (old.of first) (new.of first) deltas with
    | error cause =>
      simp only [step] at ok
      contradiction
    | ok moved =>
      obtain ⟨vote', between⟩ := moved
      simp only [step, Outcome.result_lift, Outcome.mapError_id, Outcome.state_lift] at ok ⊢
      obtain ⟨rfl, length, change⟩ := settle_ok unset step P
      obtain ⟨state, length', change'⟩ := ih ok
      refine ⟨by rw [state, List.map_cons], length'.trans length, ?_⟩
      simp only [List.map_cons, support_cons]
      push_cast
      linarith

/-- Whatever is indexed, a vote that has been moved is counted for its latest block. -/
theorem counted_of_settleFrom {old new : Balances} {votes : List Vote} {first : Nat}
    (ok : (settleFrom index old new first votes deltas).result = .ok deltas') :
    ∀ vote ∈ (settleFrom index old new first votes deltas).state, vote.counted = vote.latest := by
  induction votes generalizing first deltas with
  | nil => nofun
  | cons next votes ih =>
    rw [settleFrom] at ok ⊢
    cases step : next.settle index (old.of first) (new.of first) deltas with
    | error cause =>
      simp only [step] at ok
      contradiction
    | ok moved =>
      obtain ⟨next', between⟩ := moved
      simp only [step, Outcome.result_lift, Outcome.mapError_id] at ok
      simp only [Outcome.state_lift, List.forall_mem_cons]
      refine ⟨?_, ih ok⟩
      by_cases settled : next.isSettled (old.of first) (new.of first) = true
      · rw [settle, if_pos settled] at step
        cases step
        exact counted_of_isSettled settled
      · rw [settle, if_neg settled] at step
        obtain ⟨_, -, step⟩ := except_bind_eq_ok.mp step
        obtain ⟨_, -, step⟩ := except_bind_eq_ok.mp step
        cases step
        rfl

/-- Votes that are counted for their latest blocks move nothing under the same balances. -/
theorem settleFrom_of_counted (balances : Balances) {votes : List Vote} {first : Nat}
    (counted : ∀ vote ∈ votes, vote.counted = vote.latest) :
    settleFrom index balances balances first votes deltas = .done votes deltas := by
  induction votes generalizing first with
  | nil => rfl
  | cons vote votes ih =>
    have settled : vote.isSettled (balances.of first) (balances.of first) = true := by
      simp [isSettled, counted vote List.mem_cons_self]
    simp only [settleFrom, settle, settled, if_true,
      ih fun other member => counted other (List.mem_cons_of_mem _ member)]
    rfl

end Vote

namespace VoteTable

variable {table table' : VoteTable} {index : RootIndex}

/-- Changes that bring all votes from the blocks they are counted for to their latest ones. -/
def Moves (table : VoteTable) (index : RootIndex) (old new : Balances) (deltas : List Delta) :
    Prop :=
  ∀ P : Nat → Bool, changeUnder P deltas +
      support (fun root => index[root]?.any P) old 0 (table.votes.map (·.counted)) =
    support (fun root => index[root]?.any P) new 0 (table.votes.map (·.latest))

/-- Votes that are settled are counted for the blocks of their latest messages. -/
theorem deltas_ok {old new : Balances} {deltas : List Delta} (unset : index[Root.zero]? = none)
    (ok : (table.deltas index old new).result = .ok deltas) :
    (table.deltas index old new).state.votes = table.votes.map Vote.settled ∧
      deltas.length = index.size ∧ table.Moves index old new deltas := by
  simp only [VoteTable.deltas, Outcome.result_lift, Outcome.mapError_id] at ok
  obtain ⟨state, length, -⟩ := Vote.settleFrom_ok unset ok fun _ => true
  refine ⟨state, length.trans List.length_replicate, fun P => ?_⟩
  obtain ⟨-, -, change⟩ := Vote.settleFrom_ok unset ok P
  rwa [changeUnder_zero, zero_add] at change

theorem counted_of_deltas {old new : Balances} {deltas : List Delta}
    (ok : (table.deltas index old new).result = .ok deltas) :
    ∀ vote ∈ (table.deltas index old new).state.votes, vote.counted = vote.latest := by
  rw [VoteTable.deltas, Outcome.result_lift, Outcome.mapError_id] at ok
  exact Vote.counted_of_settleFrom ok

theorem deltas_of_counted (index : RootIndex) (balances : Balances)
    (counted : ∀ vote ∈ table.votes, vote.counted = vote.latest) :
    table.deltas index balances balances = .done table (List.replicate index.size 0) := by
  rw [VoteTable.deltas, Vote.settleFrom_of_counted balances counted]
  rfl

/-- A vote of the table names a block, as the one it is counted for or as its latest. -/
def Mentions (table : VoteTable) (root : Root) : Prop :=
  ∃ vote ∈ table.votes, vote.counted = root ∨ vote.latest = root

/-- Every vote is settled or stays as it is. -/
theorem mem_settleFrom {old new : Balances} {votes : List Vote} {first : Nat} {deltas : List Delta}
    {vote : Vote} (member : vote ∈ (Vote.settleFrom index old new first votes deltas).state) :
    ∃ before ∈ votes, vote = before ∨ vote = before.settled := by
  induction votes generalizing first deltas with
  | nil => contradiction
  | cons next votes ih =>
    rw [Vote.settleFrom] at member
    cases step : next.settle index (old.of first) (new.of first) deltas with
    | error cause =>
      simp only [step] at member
      exact ⟨vote, member, .inl rfl⟩
    | ok moved =>
      obtain ⟨next', between⟩ := moved
      simp only [step, Outcome.state_lift] at member
      rcases List.mem_cons.mp member with rfl | member
      · exact ⟨next, List.mem_cons_self, Vote.eq_or_settled step⟩
      · obtain ⟨before, member, same⟩ := ih member
        exact ⟨before, List.mem_cons_of_mem _ member, same⟩

/-- Votes that are moved, all or some of them, name no other blocks than before. -/
theorem mentions_of_deltas {old new : Balances}
    (mentions : (table.deltas index old new).state.Mentions root) : table.Mentions root := by
  obtain ⟨vote, member, named⟩ := mentions
  obtain ⟨before, was_there, rfl | rfl⟩ := mem_settleFrom member
  · exact ⟨vote, was_there, named⟩
  · exact ⟨before, was_there, .inr (or_self_iff.mp named)⟩

theorem record_ok {validator : ValidatorIndex} {epoch : Epoch} {recorded : Bool}
    (ok : table.record validator root epoch = .ok (table', recorded)) :
    (recorded = false ∧ table' = table.grow validator) ∨
    ∃ vote, recorded = true ∧ (table.grow validator).votes[validator.toNat]? = some vote ∧
      table' =
        ⟨(table.grow validator).votes.set validator.toNat { vote with latest := root, epoch }⟩ := by
  rw [record] at ok
  split at ok
  · contradiction
  · have bound : validator.toNat < (table.grow validator).votes.length := by
      simp only [grow, List.length_append, List.length_replicate]
      omega
    have at_validator := List.getElem?_eq_getElem bound
    simp only [at_validator, Option.getD_some] at ok
    split at ok
    · cases ok
      exact .inr ⟨_, rfl, at_validator, rfl⟩
    · cases ok
      exact .inl ⟨rfl, rfl⟩

theorem mem_grow {validator : ValidatorIndex} {vote : Vote}
    (member : vote ∈ (table.grow validator).votes) : vote ∈ table.votes ∨ vote = .blank := by
  rw [grow, List.mem_append, List.mem_replicate] at member
  exact member.imp_right (·.2)

/-- Recording a message moves no vote from where it is counted. -/
theorem counted_of_record {validator : ValidatorIndex} {epoch : Epoch} {recorded : Bool}
    (ok : table.record validator root epoch = .ok (table', recorded)) :
    ∃ blanks, table'.votes.map (·.counted) =
      table.votes.map (·.counted) ++ List.replicate blanks .zero := by
  have grown : (table.grow validator).votes.map (·.counted) = table.votes.map (·.counted) ++
      List.replicate (validator.toNat + 1 - table.votes.length) .zero := by
    rw [grow, List.map_append, List.map_replicate]
    rfl
  rcases record_ok ok with ⟨-, rfl⟩ | ⟨vote, -, at_validator, rfl⟩
  · exact ⟨_, grown⟩
  · refine ⟨_, Eq.trans ?_ grown⟩
    exact map_set_of_eq (f := fun vote : Vote => vote.counted) at_validator rfl

theorem mentions_of_record {validator : ValidatorIndex} {epoch : Epoch} {recorded : Bool}
    {other : Root} (ok : table.record validator root epoch = .ok (table', recorded))
    (mentions : table'.Mentions other) : other = .zero ∨ other = root ∨ table.Mentions other := by
  have of_grown : (table.grow validator).Mentions other → other = .zero ∨ table.Mentions other := by
    rintro ⟨vote, member, named⟩
    rcases mem_grow member with member | rfl
    · exact .inr ⟨vote, member, named⟩
    · rcases named with rfl | rfl <;> exact .inl rfl
  rcases record_ok ok with ⟨-, rfl⟩ | ⟨vote, -, at_validator, rfl⟩
  · exact (of_grown mentions).imp_right .inr
  · obtain ⟨changed, member, named⟩ := mentions
    rcases List.mem_or_eq_of_mem_set member with member | rfl
    · exact (of_grown ⟨changed, member, named⟩).imp_right .inr
    · rcases named with counted | latest
      · exact (of_grown ⟨vote, List.mem_of_getElem? at_validator, .inl counted⟩).imp_right .inr
      · exact .inr (.inl latest.symm)

/-- A vote for which no message is recorded stays as it is. -/
theorem mem_of_not_recorded {validator : ValidatorIndex} {epoch : Epoch} {vote : Vote}
    (ok : table.record validator root epoch = .ok (table', false)) (member : vote ∈ table'.votes) :
    vote ∈ table.votes ∨ vote = .blank := by
  rcases record_ok ok with ⟨-, rfl⟩ | ⟨_, recorded, -⟩
  · exact mem_grow member
  · contradiction

end VoteTable

end LmdGhost
