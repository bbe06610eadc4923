import LmdGhost.Proofs.BlockTree.InBounds
import LmdGhost.Proofs.Json
/-!
Trees that are read from outside. A tree that can be read has its links within bounds and every
parent before its child, so no walk along parents goes on for ever. Best links are not asked to lead
on, though. Where one leads back, pruning may sever it, which fails halfway and leaves parents of
later nodes where they were; as long as none is severed, links stay within bounds. A tree that was
built by its own operations reads back as it was written.
-/

namespace LmdGhost

namespace RootIndex

def enter (index : RootIndex) (pairs : List (Root × Nat)) : RootIndex :=
  pairs.foldl (fun index (root, position) => index.insert root position) index

variable {index : RootIndex} {pairs : List (Root × Nat)} {roots : List Root} {root : Root} {i : Nat}

theorem getElem?_insert_root (index : RootIndex) (root other : Root) (i : Nat) :
    (index.insert other i)[root]? = if other = root then some i else index[root]? := by
  simp only [Std.ExtTreeMap.getElem?_insert, Std.LawfulEqCmp.compare_eq_iff_eq]

theorem of_getElem?_enter (found : (index.enter pairs)[root]? = some i) :
    (root, i) ∈ pairs ∨ index[root]? = some i := by
  induction pairs generalizing index with
  | nil => exact .inr found
  | cons pair pairs ih =>
    rcases ih found with later | here
    · exact .inl (List.mem_cons_of_mem _ later)
    · rw [getElem?_insert_root] at here
      split at here
      · rename_i named
        cases here
        rw [← named]
        exact .inl List.mem_cons_self
      · exact .inr here

theorem isSome_getElem?_enter
    (listed : root ∈ pairs.map (·.1) ∨ index[root]?.isSome = true) :
    (index.enter pairs)[root]?.isSome = true := by
  induction pairs generalizing index with
  | nil => simpa [enter] using listed
  | cons pair pairs ih =>
    apply ih
    rw [getElem?_insert_root]
    by_cases named : pair.1 = root
    · exact .inr (by rw [if_pos named, Option.isSome_some])
    · rw [if_neg named]
      simpa [Ne.symm named] using listed

theorem getElem?_of_ofRoots (found : (ofRoots roots)[root]? = some i) : roots[i]? = some root := by
  rcases of_getElem?_enter found with listed | before
  · exact List.mem_zipIdx_iff_getElem?.mp listed
  · simp at before

/-- Where no root is listed twice, the positions found are those in the list. -/
theorem getElem?_ofRoots (distinct : roots.Nodup) :
    (ofRoots roots)[root]? = some i ↔ roots[i]? = some root := by
  refine ⟨getElem?_of_ofRoots, fun listed => ?_⟩
  have known : (ofRoots roots)[root]?.isSome = true := by
    refine isSome_getElem?_enter (.inl ?_)
    rw [List.zipIdx_map_fst]
    exact List.mem_of_getElem? listed
  obtain ⟨j, found⟩ := Option.isSome_iff_exists.mp known
  obtain ⟨bound, -⟩ := List.getElem?_eq_some_iff.mp listed
  have same := (List.getElem?_inj bound distinct).mp
    (listed.trans (getElem?_of_ofRoots found).symm)
  rw [found, same]

end RootIndex

namespace Node

theorem linkFault?_eq_none {count position : Nat} {node : Node} :
    node.linkFault? count position = none ↔
      node.LinksBelow count ∧ ∀ p, node.parentIndex = some p → p < position := by
  have within : ([node.parentIndex, node.bestChild, node.bestDescendant].filterMap id).find?
      (count ≤ ·) = none ↔ node.LinksBelow count := by
    simp only [List.find?_eq_none, List.mem_filterMap, id_eq, exists_eq_right, List.mem_cons,
      List.not_mem_nil, or_false, decide_eq_true_eq, Nat.not_le]
    constructor
    · intro below
      exact ⟨fun p set => below p (.inl set.symm), fun c set => below c (.inr (.inl set.symm)),
        fun d set => below d (.inr (.inr set.symm))⟩
    · rintro ⟨parent, child, descendant⟩ link (set | set | set)
      · exact parent link set.symm
      · exact child link set.symm
      · exact descendant link set.symm
  rw [← within, linkFault?]
  split
  · rename_i fault
    simp only [fault, reduceCtorEq, false_and]
  · rename_i faultless
    simp only [faultless, true_and]
    cases node.parentIndex <;> simp

end Node

namespace BlockTree

variable {tree init : BlockTree} {json : Json}

theorem linkFault?_eq_none : tree.linkFault? = none ↔
    ∀ {i : Nat} {node : Node}, tree.nodes[i]? = some node → node.LinksBelow tree.nodes.length ∧
      ∀ p, node.parentIndex = some p → p < i := by
  rw [linkFault?, List.findSome?_eq_none_iff]
  constructor
  · intro faultless i node at_i
    exact Node.linkFault?_eq_none.mp
      (faultless (node, i) (List.mem_zipIdx_iff_getElem?.mpr at_i))
  · rintro faultless ⟨node, i⟩ member
    exact Node.linkFault?_eq_none.mpr (faultless (List.mem_zipIdx_iff_getElem?.mp member))

theorem index_of_ofFields? (read : ofFields? json = some tree) :
    tree.index = .ofRoots (tree.nodes.map (·.root)) := by
  simp only [ofFields?, Option.bind_eq_bind, Option.bind_eq_some_iff] at read
  obtain ⟨_, _, nodes, _, _, _, _, _, _, _, _, _, made⟩ := read
  cases made
  rfl

theorem bounded_of_ofJson (read : ofJson json = .ok tree) : tree.Bounded := by
  rw [ofJson] at read
  split at read
  · contradiction
  · rename_i made fields
    split at read
    · contradiction
    · rename_i faultless
      cases read
      rw [linkFault?_eq_none] at faultless
      refine ⟨?_, ?_, ?_⟩
      · intro root i index
        rw [index_of_ofFields? fields] at index
        have listed := RootIndex.getElem?_of_ofRoots index
        rwa [List.getElem?_map, Option.map_eq_some_iff] at listed
      · intro d p link
        obtain ⟨node, at_d, linked⟩ := exists_of_parents link
        exact (faultless at_d).2 p linked
      · intro node link member links
        obtain ⟨i, at_i⟩ := List.mem_iff_getElem?.mp member
        obtain ⟨⟨-, child, descendant⟩, -⟩ := faultless at_i
        exact links.elim (child link) (descendant link)

/-- A tree without faulty links reads back as it was written. -/
theorem ofJson_toJson (index : tree.index = .ofRoots (tree.nodes.map (·.root)))
    (size : tree.nodes.length ≤ UInt64.size) (faultless : tree.linkFault? = none) :
    ofJson tree.toJson = .ok tree := by
  have nodes : (Json.list Node.toJson tree.nodes).list? Node.ofJson? = some tree.nodes := by
    refine Json.list?_list fun node member => Node.ofJson?_toJson ?_
    obtain ⟨i, at_i⟩ := List.mem_iff_getElem?.mp member
    exact (linkFault?_eq_none.mp faultless at_i).1.mono size
  have fields : ofFields? tree.toJson = some tree := by
    simp -implicitDefEqProofs [ofFields?, toJson, Json.fields?, Json.Fields.required,
      Json.Fields.optional, Json.Fields.lookup_of_ne, nodes, ← index]
  rw [ofJson, fields]
  dsimp only
  rw [faultless]

namespace WellFormed

/-- The index of a well-formed tree is the one that reading builds. -/
theorem index_eq_ofRoots (wf : tree.WellFormed) :
    tree.index = .ofRoots (tree.nodes.map (·.root)) := by
  refine Std.ExtTreeMap.ext_getElem? fun root => Option.ext fun i => ?_
  rw [wf.indexed, RootIndex.getElem?_ofRoots wf.nodup_roots, List.getElem?_map,
    Option.map_eq_some_iff]

theorem linkFault? (wf : tree.WellFormed) : tree.linkFault? = none := by
  refine linkFault?_eq_none.mpr fun {i node} at_i => ⟨⟨?_, ?_, ?_⟩, ?_⟩
  · intro p link
    obtain ⟨before, -⟩ := wf.parent at_i link
    exact Nat.lt_trans before (List.getElem?_eq_some_iff.mp at_i).1
  · exact fun c set => (wf.lt_of_linksTo at_i (.inl set)).2
  · exact fun d set => (wf.lt_of_linksTo at_i (.inr set)).2
  · exact fun p link => (wf.parent at_i link).1

/-- A tree built by its own operations reads back, with the index as it was. -/
theorem ofJson_toJson (wf : tree.WellFormed) (size : tree.nodes.length ≤ UInt64.size) :
    ofJson tree.toJson = .ok tree :=
  BlockTree.ofJson_toJson wf.index_eq_ofRoots size wf.linkFault?

end WellFormed

/-- A walk along parents comes to a node without one, within as many steps as there are nodes. -/
theorem getLast?_chainFrom {nodes : List Node} (first : ParentsFirst (parents nodes))
    {steps d : Nat} (enough : d < steps) (bound : d < nodes.length) :
    ∃ last, (chainFrom nodes steps d).getLast? = some last ∧ last.parentIndex = none := by
  induction steps generalizing d with
  | zero => omega
  | succ steps ih =>
    have at_d := List.getElem?_eq_getElem bound
    rw [chainFrom_succ nodes steps at_d]
    cases link : nodes[d].parentIndex with
    | none => exact ⟨nodes[d], rfl, link⟩
    | some p =>
      have before := first (parents_of_getElem? at_d link)
      obtain ⟨last, found, top⟩ := ih (d := p) (by omega) (by omega)
      exact ⟨last, by rw [List.getLast?_cons, found, Option.getD_some], top⟩

/--
In every tree that calls lead to from one that was read, as long as none of them severs a best link,
parents stand before their children, walks along parents end, and nothing but severing a best link
makes a call or a query look for a node where there is none.
-/
theorem decoded_in_bounds {history : List (Event BlockTree Call)} (read : ofJson json = .ok init)
    (run : Run BlockTree.after (fun _ tree call => ¬ tree.Breaks call) init history tree) :
    (∀ {i p : Nat} {node : Node}, tree.nodes[i]? = some node → node.parentIndex = some p → p < i) ∧
      (∀ root, tree.contains root = true →
        ∃ last, (tree.chain root).getLast? = some last ∧ last.parentIndex = none) ∧
      (∀ call, (∃ position, tree.cause? call = some (.indexOutOfBounds position)) ↔
        tree.Breaks call) ∧
      ∀ justified position, tree.findHead justified ≠ .error (.indexOutOfBounds position) := by
  have bounded : tree.Bounded :=
    Run.invariant (P := fun _ tree => tree.Bounded) (bounded_of_ofJson read)
      (fun bounded whole => bounded.after whole) run
  refine ⟨fun at_i link => (bounded.exists_parent at_i link).1, fun root known => ?_,
    fun call => bounded.cause?_iff, bounded.inBounds_findHead⟩
  obtain ⟨i, index⟩ := contains_iff_index.mp known
  rw [chain, index]
  exact getLast?_chainFrom bounded.first (bounded.index_lt index) (bounded.index_lt index)

/-- Three blocks on one chain, the second of which has its parent for its best child. -/
def misled : BlockTree where
  pruneThreshold := 0
  justifiedEpoch := 1
  finalizedEpoch := 1
  boost := none
  nodes := [
    { plainBlock 1 none with },
    { plainBlock 2 (some 1) with
      parentIndex := some 0, bestChild := some 0, bestDescendant := some 0 },
    { plainBlock 3 (some 2) with parentIndex := some 1 }]
  index := .ofRoots [.ofNat 1, .ofNat 2, .ofNat 3]

theorem misled_read : ofJson misled.toJson = .ok misled :=
  ofJson_toJson rfl (by decide) (by decide +kernel)

/-- Pruning severs the link that leads back and leaves the last block as its own parent. -/
theorem misled_pruned_halfway :
    ∃ init, ofJson misled.toJson = .ok init ∧
      init.cause? (.prune (.ofNat 2)) = some (.indexOutOfBounds 0) ∧
      parents (init.after (.prune (.ofNat 2))).nodes = [none, some 1] :=
  ⟨misled, misled_read, by decide +kernel⟩

/-- New scores before pruning replace the link that leads back, so that none is severed. -/
theorem misled_rescored_in_bounds :
    ∃ history tree,
      Run BlockTree.after (fun _ tree call => ¬ tree.Breaks call) misled history tree ∧
      tree.nodes.map (·.root) = [.ofNat 2, .ofNat 3] ∧
      (∀ {i p : Nat} {node : Node}, tree.nodes[i]? = some node →
        node.parentIndex = some p → p < i) ∧
      ∀ justified position, tree.findHead justified ≠ .error (.indexOutOfBounds position) := by
  have bounded := bounded_of_ofJson misled_read
  have scores_whole : ¬ misled.Breaks (.applyScores ⟨[0, 0, 0], none, 1, 1⟩) := by
    rintro ⟨_, _, other, -⟩
    contradiction
  have prune_whole : ¬ (misled.after (.applyScores ⟨[0, 0, 0], none, 1, 1⟩)).Breaks
      (.prune (.ofNat 2)) := by
    rw [← (bounded.after scores_whole).cause?_iff]
    have passed : (misled.after (.applyScores ⟨[0, 0, 0], none, 1, 1⟩)).cause?
        (.prune (.ofNat 2)) = none := by decide +kernel
    simp [passed]
  have outset : Run BlockTree.after (fun _ tree call => ¬ tree.Breaks call) misled [] misled :=
    .start
  have run := (outset.call _ scores_whole).call _ prune_whole
  obtain ⟨first, -, -, found⟩ := decoded_in_bounds misled_read run
  exact ⟨_, _, run, by decide +kernel, first, found⟩

end BlockTree

end LmdGhost
