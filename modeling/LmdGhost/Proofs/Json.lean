import LmdGhost.Attestation
import LmdGhost.BlockTree.Json
import LmdGhost.VoteTable.Basic
/-!
What is written as JSON reads back. Arrays and values that may be missing read back where their
parts do; a missing value is written as null, so no other value may be. Positions are read as words
and read back as far as words go.
-/

namespace LmdGhost

namespace Json

variable {α : Type} {read : Json → Option α} {write : α → Json}

/-- A field that comes first under another key is passed over. -/
theorem Fields.lookup_of_ne {key other : String} (apart : key ≠ other) (json : Json)
    (fields : Fields) : List.lookup key ((other, json) :: fields) = List.lookup key fields := by
  rw [List.lookup_cons, beq_eq_false_iff_ne.mpr apart]

/--
Reading goes on from what was read. As a rule tried on the way down (`↓`) it keeps `simp` out of the
reads that are still to come, which it would otherwise visit twice for each read before them.
-/
theorem bind_of_read {α β : Type} {first : Option α} {a : α} {rest : α → Option β}
    (reads : first = some a) : first >>= rest = rest a := by
  rw [reads, Option.bind_eq_bind, Option.bind_some]

theorem list?_list {items : List α} (back : ∀ item ∈ items, read (write item) = some item) :
    (list write items).list? read = some items := by
  rw [list, list?]
  induction items with
  | nil => rfl
  | cons item items ih =>
    have rest := ih fun other member => back other (List.mem_cons_of_mem _ member)
    rw [List.map_cons, List.mapM_cons, back item List.mem_cons_self, rest]
    rfl

theorem option?_option {value : Option α} (present : ∀ a, write a ≠ .null)
    (back : ∀ a, value = some a → read (write a) = some a) :
    (option write value).option? read = some value := by
  cases value with
  | none => rfl
  | some a =>
    have reads := back a rfl
    rw [option]
    cases written : write a with
    | null => exact absurd written (present a)
    | bool | integer | fraction | string | array | object =>
      rw [written] at reads
      simp only [option?, reads, Option.map_some]

@[simp]
theorem words_back (words : List UInt64) : (list word words).list? word? = some words :=
  list?_list fun w _ => word?_word w

theorem index?_integer {i : Nat} (fits : i < UInt64.size) : (integer i).index? = some i := by
  have exact : (UInt64.ofNat i).toNat = i := UInt64.toNat_ofNat_of_lt' fits
  have reads : Word.ofInt? i = some (UInt64.ofNat i) :=
    Word.ofInt?_eq_some.mpr (congrArg Nat.cast exact)
  rw [index?, word?, reads, Option.map_some, exact]

theorem position_back {link : Option Nat} (fits : ∀ i, link = some i → i < UInt64.size) :
    (option (integer ·) (link.bind fun i => some (i : Int))).option? index? = some link := by
  cases link with
  | none => rfl
  | some i =>
    change (integer i).index?.map some = some (some i)
    rw [index?_integer (fits i rfl), Option.map_some]

end Json

@[simp]
theorem Root.ofJson?_toJson (root : Root) : ofJson? root.toJson = some root := by
  rw [ofJson?, toJson, Json.string?, Option.bind_some, ofHex?_toHex]

@[simp]
theorem Root.option_back (root : Option Root) :
    (Json.option Root.toJson root).option? ofJson? = some root :=
  Json.option?_option nofun fun root _ => root.ofJson?_toJson

@[simp]
theorem PayloadStatus.ofJson?_toJson (status : PayloadStatus) :
    ofJson? status.toJson = some status := by
  rw [toJson, ofJson?, ofName?_name]

/-! Records read back field by field. Their proofs keep every step of `simp` as an equation: steps
by definition would leave it to the kernel to run the readers of words. -/

@[simp]
theorem Checkpoint.ofJson?_toJson (checkpoint : Checkpoint) :
    ofJson? checkpoint.toJson = some checkpoint := by
  simp -implicitDefEqProofs [ofJson?, toJson, Json.fieldsWithin?, Json.fields?,
    Json.Fields.within, Option.filter_some, Json.Fields.required, Json.Fields.lookup_of_ne]

@[simp]
theorem Boost.ofJson?_toJson (boost : Boost) : ofJson? boost.toJson = some boost := by
  simp -implicitDefEqProofs [ofJson?, toJson, Json.fields?, Json.Fields.required,
    Json.Fields.lookup_of_ne]

@[simp]
theorem Boost.option_back (boost : Option Boost) :
    (Json.option Boost.toJson boost).option? ofJson? = some boost :=
  Json.option?_option nofun fun boost _ => boost.ofJson?_toJson

@[simp]
theorem Vote.ofJson?_toJson (vote : Vote) : ofJson? vote.toJson = some vote := by
  simp -implicitDefEqProofs [ofJson?, toJson, Json.fields?, Json.Fields.required,
    Json.Fields.lookup_of_ne]

@[simp]
theorem VoteTable.ofJson?_toJson (table : VoteTable) : ofJson? table.toJson = some table := by
  rw [ofJson?, toJson, Json.list?_list fun vote _ => vote.ofJson?_toJson, Option.map_some]

@[simp]
theorem QueuedAttestation.ofJson?_toJson (attestation : QueuedAttestation) :
    ofJson? attestation.toJson = some attestation := by
  simp -implicitDefEqProofs [ofJson?, toJson, Json.fieldsWithin?, Json.fields?,
    Json.Fields.within, Option.filter_some, Json.Fields.required, Json.Fields.lookup_of_ne]

@[simp]
theorem QueuedAttestation.queue_back (queue : List QueuedAttestation) :
    (Json.list toJson queue).list? ofJson? = some queue :=
  Json.list?_list fun attestation _ => attestation.ofJson?_toJson

namespace Node

def LinksBelow (bound : Nat) (node : Node) : Prop :=
  (∀ p, node.parentIndex = some p → p < bound) ∧ (∀ c, node.bestChild = some c → c < bound) ∧
    ∀ d, node.bestDescendant = some d → d < bound

theorem LinksBelow.mono {bound bound' : Nat} {node : Node} (below : node.LinksBelow bound)
    (le : bound ≤ bound') : node.LinksBelow bound' :=
  ⟨fun p set => Nat.lt_of_lt_of_le (below.1 p set) le,
    fun c set => Nat.lt_of_lt_of_le (below.2.1 c set) le,
    fun d set => Nat.lt_of_lt_of_le (below.2.2 d set) le⟩

theorem ofJson?_toJson {node : Node} (fits : node.LinksBelow UInt64.size) :
    ofJson? node.toJson = some node := by
  obtain ⟨parent, child, descendant⟩ := fits
  -- The list of the fields is given a name, so that the reader is not opened with the whole list
  -- in the place of every lookup.
  obtain ⟨fields, written, slot, root, parentRoot, parentIndex, stateRoot, target, justified,
      finalized, weight, bestChild, bestDescendant, status, payload⟩ :
      ∃ fields, node.toJson.fields? = some fields ∧
        fields.required "slot" Json.word? = some node.slot ∧
        fields.required "root" Root.ofJson? = some node.root ∧
        fields.optional "parent_root" Root.ofJson? = some node.parent ∧
        fields.optional "parent" Json.index? = some node.parentIndex ∧
        fields.required "state_root" Root.ofJson? = some node.stateRoot ∧
        fields.required "target_root" Root.ofJson? = some node.target ∧
        fields.required "justified_checkpoint" Checkpoint.ofJson? = some node.justified ∧
        fields.required "finalized_checkpoint" Checkpoint.ofJson? = some node.finalized ∧
        fields.required "weight" Json.word? = some node.weight ∧
        fields.optional "best_child" Json.index? = some node.bestChild ∧
        fields.optional "best_descendant" Json.index? = some node.bestDescendant ∧
        fields.required "execution_status" PayloadStatus.ofJson? = some node.status ∧
        fields.optional "execution_payload_block_hash" Root.ofJson? = some node.payload := by
    refine ⟨_, rfl, ?_⟩
    simp -implicitDefEqProofs [Json.Fields.required, Json.Fields.optional,
      Json.Fields.lookup_of_ne, Json.position_back parent, Json.position_back child,
      Json.position_back descendant]
  simp only [ofJson?, ↓ Json.bind_of_read written, ↓ Json.bind_of_read slot,
    ↓ Json.bind_of_read root, ↓ Json.bind_of_read parentRoot, ↓ Json.bind_of_read parentIndex,
    ↓ Json.bind_of_read stateRoot, ↓ Json.bind_of_read target, ↓ Json.bind_of_read justified,
    ↓ Json.bind_of_read finalized, ↓ Json.bind_of_read weight, ↓ Json.bind_of_read bestChild,
    ↓ Json.bind_of_read bestDescendant, ↓ Json.bind_of_read status, ↓ Json.bind_of_read payload,
    Option.pure_def]

end Node

end LmdGhost
