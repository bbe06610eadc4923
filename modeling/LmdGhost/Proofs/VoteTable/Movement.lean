import LmdGhost.Proofs.BlockTree.Decoding
import LmdGhost.Proofs.VoteTable.Headroom
/-!
What moving the votes of a table comes to. If all old balances together fit a change, and all new
ones do, no vote fails on the way: every position gains the new balances of the votes whose latest
block stands there and loses the old balances of the votes that were counted there. From then on
every vote is counted for its latest block, and nothing is left to be moved.
-/

namespace LmdGhost

variable {index : RootIndex} {deltas : List Delta} {old new : Balances} {i : Nat}

/-- The balances of the validators, numbered from zero, whose blocks are indexed at a position. -/
def supportAt (index : RootIndex) (i : Nat) (balances : Balances) (blocks : List Root) : Nat :=
  support (fun root => index[root]? == some i) balances 0 blocks

/-- The change under one position is the change at the position. -/
theorem changeUnder_singleton (bound : i < deltas.length) :
    changeUnder (· == i) deltas = deltaAt deltas i := by
  simp only [changeUnder, beq_iff_eq, Finset.sum_ite_eq', Finset.mem_range, bound, if_true]

namespace VoteTable

/-- Changes that move votes bring to a position what is behind it now, less what was there. -/
theorem Moves.deltaAt_eq {table : VoteTable} (moves : table.Moves index old new deltas)
    (bound : i < deltas.length) :
    deltaAt deltas i = supportAt index i new (table.votes.map (·.latest)) -
      supportAt index i old (table.votes.map (·.counted)) := by
  have stands (root : Root) : index[root]?.any (· == i) = (index[root]? == some i) := by
    cases index[root]? <;> rfl
  have change := moves (· == i)
  simp only [changeUnder_singleton bound, stands] at change
  rw [supportAt, supportAt, ← change, add_sub_cancel_right]

/--
Votes are moved if the index is without the zero root and in range, and if both lists of balances
fit a change in total. The change at every position is exact, all votes are counted for their latest
blocks, which stay what they were, and moving the votes again changes nothing.
-/
theorem deltas_exact (table : VoteTable) (unset : index[Root.zero]? = none)
    (inside : index.Inside index.size) (old_fits : (old.total : Int) ≤ Delta.limit)
    (new_fits : (new.total : Int) ≤ Delta.limit) :
    ∃ deltas, (table.deltas index old new).result = .ok deltas ∧ deltas.length = index.size ∧
      (∀ i < index.size, ∃ delta, deltas[i]? = some delta ∧
        delta.toInt = supportAt index i new (table.votes.map (·.latest)) -
          supportAt index i old (table.votes.map (·.counted))) ∧
      (table.deltas index old new).state.votes = table.votes.map Vote.settled ∧
      (table.deltas index old new).state.deltas index new new =
        .done (table.deltas index old new).state (List.replicate index.size 0) := by
  obtain ⟨deltas, moved, -⟩ := table.deltas_spread old new inside old_fits new_fits
  obtain ⟨votes, length, moves⟩ := deltas_ok unset moved
  refine ⟨deltas, moved, length, fun i bound => ?_, votes,
    deltas_of_counted index new (counted_of_deltas moved)⟩
  rw [← length] at bound
  have at_i := List.getElem?_eq_getElem bound
  exact ⟨_, at_i, (deltaAt_of_getElem? at_i).symm.trans (moves.deltaAt_eq bound)⟩

def threeBlocks : RootIndex :=
  .ofRoots [.ofNat 1, .ofNat 2, .ofNat 3]

theorem threeBlocks_inside : threeBlocks.Inside threeBlocks.size := by
  have size : threeBlocks.size = 3 := by decide +kernel
  intro root i index
  have bound := (List.getElem?_eq_some_iff.mp (RootIndex.getElem?_of_ofRoots index)).1
  rwa [size]

/--
A vote that moves, a first vote, a vote for a block that is gone, a validator that has never voted,
one that enters the balances and one that leaves them.
-/
def movingVotes : VoteTable :=
  ⟨[⟨.ofNat 1, .ofNat 2, 4⟩, ⟨.zero, .ofNat 2, 0⟩, ⟨.ofNat 9, .ofNat 3, 2⟩, .blank,
    ⟨.ofNat 3, .ofNat 3, 1⟩, ⟨.ofNat 3, .ofNat 1, 3⟩]⟩

theorem movingVotes_exact :
    let old : Balances := [10, 20, 30, 40, 0, 60]
    let new : Balances := [11, 20, 32, 40, 50]
    let moved := movingVotes.deltas threeBlocks old new
    threeBlocks[Root.zero]? = none ∧ (old.total : Int) ≤ Delta.limit ∧
      (new.total : Int) ≤ Delta.limit ∧ moved.result = .ok [-10, 31, 22] ∧
      moved.state.votes = movingVotes.votes.map Vote.settled ∧
      (moved.state.deltas threeBlocks new new).result = .ok [0, 0, 0] := by
  intro old new moved
  have unset : threeBlocks[Root.zero]? = none := by decide +kernel
  have old_fits : (old.total : Int) ≤ Delta.limit := by decide +kernel
  have new_fits : (new.total : Int) ≤ Delta.limit := by decide +kernel
  obtain ⟨_, -, -, -, votes, again⟩ :=
    deltas_exact movingVotes unset threeBlocks_inside old_fits new_fits
  refine ⟨unset, old_fits, new_fits, by decide +kernel, votes, ?_⟩
  rw [again]
  decide +kernel

end VoteTable

end LmdGhost
