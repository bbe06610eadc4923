import LmdGhost.Proofs.BlockTree.Calls
import LmdGhost.Proofs.BlockTree.Guidance
/-!
Runs in which viability only grows: a block that was viable under some scores is viable under all
later ones. Best links lead to nodes that were viable under earlier scores, so in such a run no
child that was best before has lost its head, and the head found after new scores is the head of the
rule.
-/

namespace LmdGhost.BlockTree

/-- The call applied new scores, under which the block of a root is viable. -/
def MadeViable (event : Event BlockTree Call) (root : Root) : Prop :=
  ∃ change, event.call = .applyScores change ∧
    (event.before.applyScores change).result = .ok () ∧
    ((event.before.applyScores change).state.node? root).any
      (event.before.applyScores change).state.isViable = true

/-- New scores are allowed if what was viable under earlier ones still is. -/
def Growing (history : List (Event BlockTree Call)) (tree : BlockTree) (call : Call) : Prop :=
  ∀ change, call = .applyScores change → (tree.applyScores change).result = .ok () →
    ∀ event ∈ history, ∀ root, MadeViable event root →
      ∀ node, (tree.applyScores change).state.node? root = some node →
        (tree.applyScores change).state.isViable node = true

/-- New scores were applied, and nothing but pruning has come after them. -/
inductive Fresh : List (Event BlockTree Call) → Prop where
  | applied {tree : BlockTree} {change : ScoreChange} {history : List (Event BlockTree Call)} :
      (tree.applyScores change).result = .ok () → Fresh (⟨tree, .applyScores change⟩ :: history)
  | pruned {tree : BlockTree} {finalized : Root} {history : List (Event BlockTree Call)} :
      Fresh history → Fresh (⟨tree, .prune finalized⟩ :: history)

def LeadsTo (tree : BlockTree) (seen : Root → Prop) : Prop :=
  ∀ ⦃i d : Nat⦄ ⦃node leaf : Node⦄, tree.nodes[i]? = some node → node.bestDescendant = some d →
    tree.nodes[d]? = some leaf → seen leaf.root

variable {tree tree' : BlockTree} {change : ScoreChange} {history : List (Event BlockTree Call)}
  {seen seen' : Root → Prop} {call : Call} {root : Root}

namespace LeadsTo

theorem mono (leads : tree.LeadsTo seen) (more : ∀ {root}, seen root → seen' root) :
    tree.LeadsTo seen' :=
  fun _ _ _ _ at_i link at_d => more (leads at_i link at_d)

theorem of_places (leads : tree.LeadsTo seen)
    (nodes : tree'.nodes.map Node.place = tree.nodes.map Node.place) : tree'.LeadsTo seen := by
  intro i d node leaf at_i link at_d
  obtain ⟨node', at_i', place⟩ := getElem?_of_map_eq nodes at_i
  obtain ⟨leaf', at_d', place'⟩ := getElem?_of_map_eq nodes at_d
  have links : node'.bestDescendant = node.bestDescendant := congrArg (·.2.2.2.2) place
  have roots : leaf'.root = leaf.root := congrArg (·.1) place'
  rw [← roots]
  exact leads at_i' (links.trans link) at_d'

theorem insert (leads : tree.LeadsTo seen) (wf : tree.WellFormed) (block : Block) :
    (tree.insert block).LeadsTo seen := by
  cases known : tree.contains block.root with
  | true => rwa [insert_of_contains known]
  | false =>
    intro i d node leaf at_i link at_d
    rw [nodes_insert_of_new known] at at_i at_d
    rcases getElem?_concat at_i with at_i | ⟨-, rfl⟩
    · have links := wf.best at_i
      rw [link] at links
      obtain ⟨leaf', at_d'⟩ := (links.below wf.first).exists_node
      rw [List.getElem?_append_left (List.getElem?_eq_some_iff.mp at_d').1] at at_d
      exact leads at_i link at_d
    · contradiction

theorem dropFirst (leads : tree.LeadsTo seen) (wf : tree.WellFormed) (count : Nat) :
    (tree.dropFirst count).LeadsTo seen := by
  intro i d node' leaf' at_i link at_d
  rw [getElem?_dropFirst] at at_i at_d
  obtain ⟨node, old_i, rfl⟩ := Option.map_eq_some_iff.mp at_i
  obtain ⟨leaf, old_d, rfl⟩ := Option.map_eq_some_iff.mp at_d
  obtain ⟨e, old_link, rfl⟩ := Option.map_eq_some_iff.mp link
  have links := wf.best old_i
  rw [old_link] at links
  have later := (links.below wf.first).le wf.first
  rw [Nat.sub_add_cancel (by omega)] at old_d
  have seen_leaf : seen leaf.root := leads old_i old_link old_d
  exact seen_leaf

/-- Links of the rule lead to viable nodes. -/
theorem of_guided (wf : tree.WellFormed) (guided : tree.Guided)
    (viable : ∀ {i : Nat} {node : Node}, tree.nodes[i]? = some node →
      tree.isViable node = true → seen node.root) :
    tree.LeadsTo seen := by
  intro i d node leaf at_i link at_d
  have settled := guided at_i
  have at_leaf := WellFormed.leafAt_eq at_i
  rw [link, Option.getD_some] at at_leaf
  rw [link] at settled
  generalize node.bestChild = best, found : some d = descendant at settled
  cases settled with
  | favourite childOf carries _ =>
    have sound := guided.sound wf i (carries.up (.of_parent wf.first childOf))
    rw [at_leaf, viableAt_eq at_d] at sound
    exact viable at_d sound
  | leaf => contradiction
  | stranded _ displaced _ => exact absurd displaced not_displaced_none

end LeadsTo

structure Followed (history : List (Event BlockTree Call)) (tree : BlockTree) : Prop where
  wellFormed : tree.WellFormed
  leads : tree.LeadsTo fun root => ∃ event ∈ history, MadeViable event root
  guided : Fresh history → tree.Guided

namespace Followed

theorem leads_cons (followed : Followed history tree) (call : Call) :
    tree.LeadsTo fun root => ∃ event ∈ ⟨tree, call⟩ :: history, MadeViable event root :=
  followed.leads.mono fun ⟨event, member, made⟩ => ⟨event, List.mem_cons_of_mem _ member, made⟩

theorem applyScores (followed : Followed history tree)
    (growing : Growing history tree (.applyScores change)) :
    Followed (⟨tree, .applyScores change⟩ :: history) (tree.after (.applyScores change)) := by
  have wf := followed.wellFormed
  have leads := followed.leads_cons (.applyScores change)
  have fresh_ok : Fresh (⟨tree, .applyScores change⟩ :: history) →
      (tree.applyScores change).result = .ok () := by
    rintro ⟨ok⟩
    exact ok
  rw [after]
  rcases wf.bounded.applyScores_cases change with
    ⟨-, failed⟩ | ⟨-, cause, -, failed, state⟩ | ⟨-, -, ok, state⟩
  · refine ⟨wf.applyScores change, by rwa [failed], fun fresh => ?_⟩
    have ok := fresh_ok fresh
    rw [failed] at ok
    contradiction
  · refine ⟨wf.applyScores change, ?_, fun fresh => ?_⟩
    · rw [state]
      exact leads.of_places (places_of_weightless (reweighed_weightless tree change))
    · have ok := fresh_ok fresh
      rw [failed] at ok
      contradiction
  · have grown := growing change rfl ok
    rw [state] at grown ⊢
    have wf' := wf.rescored change
    have guided : (tree.rescored change).Guided := by
      refine wf.guided_rescored change fun {i d node} at_i link => ?_
      have links := wf.best at_i
      rw [link] at links
      obtain ⟨leaf, at_d⟩ := (links.below wf.first).exists_node
      obtain ⟨event, member, made⟩ := followed.leads at_i link at_d
      have index : (tree.rescored change).index[leaf.root]? = some d := by
        rw [index_rescored wf, wf.index_root at_d]
      obtain ⟨leaf', at_d', named⟩ := wf'.indexed.mp index
      rw [viableAt_eq at_d']
      exact grown event member leaf.root made leaf' (wf'.node?_eq_some.mpr ⟨d, at_d', named⟩)
    refine ⟨wf', .of_guided wf' guided fun at_i viable => ?_, fun _ => guided⟩
    refine ⟨_, List.mem_cons_self, change, rfl, ok, ?_⟩
    rw [state, wf'.node?_root at_i, Option.any_some, viable]

theorem prune (followed : Followed history tree) (finalized : Root) :
    Followed (⟨tree, .prune finalized⟩ :: history) (tree.after (.prune finalized)) := by
  have wf := followed.wellFormed
  have leads := followed.leads_cons (.prune finalized)
  have guided : Fresh (⟨tree, .prune finalized⟩ :: history) → tree.Guided := by
    rintro (_ | fresh)
    exact followed.guided fresh
  refine ⟨wf.after _, ?_, ?_⟩ <;> rw [after]
  all_goals obtain ⟨same, -⟩ | ⟨count, -, dropped, -⟩ := wf.prune_cases finalized
  · rwa [same]
  · rw [dropped]
    exact leads.dropFirst wf count
  · rwa [same]
  · rw [dropped]
    exact fun fresh => (guided fresh).dropFirst wf count

theorem other (followed : Followed history tree) (call : Call)
    (leads : (tree.after call).LeadsTo fun root =>
      ∃ event ∈ ⟨tree, call⟩ :: history, MadeViable event root)
    (stale : ¬Fresh (⟨tree, call⟩ :: history)) :
    Followed (⟨tree, call⟩ :: history) (tree.after call) :=
  ⟨followed.wellFormed.after call, leads, fun fresh => absurd fresh stale⟩

theorem after (followed : Followed history tree) (growing : Growing history tree call) :
    Followed (⟨tree, call⟩ :: history) (tree.after call) := by
  have leads := followed.leads_cons call
  cases call with
  | applyScores change => exact followed.applyScores growing
  | prune finalized => exact followed.prune finalized
  | insert block =>
    exact followed.other _ (leads.insert followed.wellFormed block) fun fresh => by cases fresh
  | setPruneThreshold pruneThreshold =>
    exact followed.other _ (leads.of_places rfl) fun fresh => by cases fresh
  | confirm root =>
    obtain ⟨nodes, state, same⟩ := confirm_sameButStatuses tree root
    refine followed.other _ (leads.of_places ?_) fun fresh => by cases fresh
    rw [BlockTree.after, state]
    exact places_of_unjudged same
  | reject root =>
    obtain ⟨nodes, state, same⟩ := reject_sameButStatuses tree root
    refine followed.other _ (leads.of_places ?_) fun fresh => by cases fresh
    rw [BlockTree.after, state]
    exact places_of_unjudged same

theorem of_run {pruneThreshold : UInt64} {justifiedEpoch finalizedEpoch : Epoch}
    (run : Run BlockTree.after Growing (empty pruneThreshold justifiedEpoch finalizedEpoch)
      history tree) : Followed history tree := by
  refine Run.invariant ⟨empty_wellFormed _ _ _, ?_, nofun⟩ (fun followed => followed.after) run
  intro i d node leaf at_i
  contradiction

end Followed

/--
While viability only grows, new scores lead to the head of the rule, also after pruning: from every
known block there is one descent, and the head found is where it stops, or an error names that block
if it is not viable.
-/
theorem findHead_eq_of_growing {pruneThreshold : UInt64} {justifiedEpoch finalizedEpoch : Epoch}
    (run : Run after Growing (empty pruneThreshold justifiedEpoch finalizedEpoch) history tree)
    (fresh : Fresh history) (known : tree.contains root = true) :
    ∃ head, Descent tree root head ∧ (∀ other, Descent tree root other → other = head) ∧
      tree.findHead root = tree.headOrError head := by
  have followed := Followed.of_run run
  exact (followed.guided fresh).findHead_eq followed.wellFormed known

theorem growing_of_all_viable {change : ScoreChange}
    (viable : ∀ node ∈ (tree.applyScores change).state.nodes,
      (tree.applyScores change).state.isViable node = true) :
    Growing history tree (.applyScores change) := by
  rintro _ ⟨⟩ _ _ _ _ _ node found
  obtain ⟨i, -, at_i⟩ := Option.bind_eq_some_iff.mp found
  exact viable node (List.mem_of_getElem? at_i)

/-- A child with a heavier child of its own comes before its sibling, and the top is pruned. -/
theorem overtaken_head_found :
    ∃ history tree, Run after Growing (empty 0 1 1) history tree ∧ Fresh history ∧
      tree.contains (.ofNat 3) = true ∧
      ∃ head, Descent tree (.ofNat 3) head ∧
        (∀ other, Descent tree (.ofNat 3) other → other = head) ∧
        tree.findHead (.ofNat 3) = tree.headOrError head := by
  have imported : Run after Growing (empty 0 1 1) _ _ :=
    ((Run.start.call (.insert (plainBlock 1 none)) nofun).call
      (.insert (plainBlock 2 (some 1))) nofun).call (.insert (plainBlock 3 (some 1))) nofun
  have scored := imported.call (.applyScores ⟨[0, 10, 0], none, 1, 1⟩)
    (growing_of_all_viable (by decide +kernel))
  have extended := scored.call (.insert (plainBlock 4 (some 3))) nofun
  have rescored := extended.call (.applyScores ⟨[0, 0, 0, 20], none, 1, 1⟩)
    (growing_of_all_viable (by decide +kernel))
  have pruned := rescored.call (.prune (.ofNat 2)) nofun
  refine ⟨_, _, pruned, .pruned (.applied ?_), ?_,
    findHead_eq_of_growing pruned (.pruned (.applied ?_)) ?_⟩ <;> decide +kernel

end LmdGhost.BlockTree
