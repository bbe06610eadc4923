import LmdGhost.ChainConfig.Json
import LmdGhost.Proofs.Json
/-!
A configuration reads back from its JSON form, and from all forms in which some of its numbers are
spelled otherwise: natively, as far as they fit a word, or with their decimal digits, after any
number of zeros. What is read rests on how the value under each key reads, so values can be replaced
one after the other.
-/

namespace LmdGhost

namespace Json

def Fields.replaceValue (fields : Fields) (key : String) (value : Json) : Fields :=
  fields.map fun field => (field.1, if field.1 = key then value else field.2)

def replaceValue (json : Json) (key : String) (value : Json) : Json :=
  match json with
  | .object fields => .object (Fields.replaceValue fields key value)
  | other => other

def replaceValues (json : Json) (values : Fields) : Json :=
  values.foldl (fun json field => json.replaceValue field.1 field.2) json

/-- How a number may be spelled: natively if it fits a word, or with its decimal digits. -/
inductive Numeral (n : Nat) : Json → Prop where
  | native : n < UInt64.size → Numeral n (.integer n)
  | decimal (zeros : Nat) :
    Numeral n (.string (String.ofList (List.replicate zeros '0' ++ Nat.toDigits 10 n)))

namespace Fields

variable {α : Type} {fields : Fields} {key name : String} {value : Json} {default a : α}
  {read : Json → Option α}

theorem lookup_replaceValue (fields : Fields) (key name : String) (value : Json) :
    List.lookup name (fields.replaceValue key value) =
      (List.lookup name fields).map fun old => if name = key then value else old := by
  induction fields with
  | nil => rfl
  | cons field fields ih =>
    rw [replaceValue] at ih
    rw [replaceValue, List.map_cons, List.lookup_cons, List.lookup_cons]
    cases here : name == field.1 with
    | true => simp [eq_of_beq here]
    | false => exact ih

/-- A value that reads like the one it replaces leaves every reading as it is. -/
theorem orDefault_replaceValue (reads : fields.orDefault name default read = some a)
    (alike : name = key → read value = some a) :
    (fields.replaceValue key value).orDefault name default read = some a := by
  rw [orDefault] at reads ⊢
  rw [lookup_replaceValue]
  cases found : List.lookup name fields with
  | none =>
    rw [found] at reads
    exact reads
  | some old =>
    rw [found] at reads
    by_cases replaced : name = key
    · simpa [replaced] using alike replaced
    · simpa [replaced] using reads

end Fields

end Json

namespace Decimal

theorem read?_zeros (zeros n : Nat) :
    read? (List.replicate zeros '0' ++ Nat.toDigits 10 n) = some n := by
  induction zeros with
  | zero => exact read?_toDigits n
  | succ zeros ih =>
    rw [← ih, List.replicate_succ, List.cons_append]
    simp [read?, Nat.ofDigitChars_cons]

/-- What starts with a digit has no sign in front. -/
theorem word?_of_read {text : String} {w : UInt64} (nonempty : text.toList ≠ [])
    (reads : read? text.toList = some w.toNat) : word? text = some w := by
  have fits : Word.ofInt? w.toNat = some w := Word.ofInt?_eq_some.mpr rfl
  cases digits : text.toList with
  | nil => exact absurd digits nonempty
  | cons c rest =>
    have unsigned : c ≠ '+' := by
      rintro rfl
      simp [digits, read?] at reads
    rw [digits] at reads
    simp -implicitDefEqProofs [word?, digits, unsigned, reads, fits]

end Decimal

theorem Preset.ofJson?_toJson (preset : Preset) : ofJson? preset.toJson = some preset := by
  rw [ofJson?, toJson, Json.string?, Option.bind_some, ofName?_name]

namespace ChainConfig

open Json (Numeral)

variable {config : ChainConfig} {json value : Json} {fields : Json.Fields} {key : String} {n : Nat}

theorem word?_of_numeral {w : UInt64} (numeral : Numeral w.toNat value) : word? value = some w := by
  cases numeral with
  | native => exact Json.word?_word w
  | decimal zeros =>
    refine Decimal.word?_of_read ?_ ?_
    · simp [Nat.toDigits_ne_nil]
    · rw [String.toList_ofList, Decimal.read?_zeros]

theorem difficulty?_of_numeral {difficulty : Difficulty}
    (numeral : Numeral difficulty.toNat value) : difficulty? value = some difficulty := by
  cases numeral with
  | native fits =>
    have exact := UInt64.toNat_ofNat_of_lt' fits
    have reads : (Json.integer difficulty.toNat).word? = some (UInt64.ofNat difficulty.toNat) :=
      Word.ofInt?_eq_some.mpr (congrArg Nat.cast exact)
    have back : Difficulty.ofNat difficulty.toNat = difficulty := by
      simp [Difficulty.ofNat, Difficulty.toNat]
    rw [difficulty?, reads, Option.map_some, exact, back]
    intro text same
    cases same
  | decimal zeros =>
    rw [difficulty?, Difficulty.ofDecimal?, String.toList_ofList, Decimal.read?_zeros,
      Option.bind_some, Difficulty.ofNat?_toNat]

/-- What is read from the fields under each of the keys, or stands in for what is not there. -/
structure ReadFrom (config : ChainConfig) (fields : Json.Fields) : Prop where
  name : fields.orDefault "CONFIG_NAME" unnamed.name Json.string? = some config.name
  preset : fields.orDefault "PRESET_BASE" unnamed.preset Preset.ofJson? = some config.preset
  secondsPerSlot : fields.orDefault "SECONDS_PER_SLOT" unnamed.secondsPerSlot word? =
    some config.secondsPerSlot
  boostPercent : fields.orDefault "PROPOSER_SCORE_BOOST" unnamed.boostPercent word? =
    some config.boostPercent
  safeSlots : fields.orDefault "SAFE_SLOTS_TO_UPDATE_JUSTIFIED" unnamed.safeSlots word? =
    some config.safeSlots
  terminalDifficulty : fields.orDefault "TERMINAL_TOTAL_DIFFICULTY" unnamed.terminalDifficulty
    difficulty? = some config.terminalDifficulty
  terminalHash : fields.orDefault "TERMINAL_BLOCK_HASH" unnamed.terminalHash Root.ofJson? =
    some config.terminalHash
  terminalHashEpoch : fields.orDefault "TERMINAL_BLOCK_HASH_ACTIVATION_EPOCH"
    unnamed.terminalHashEpoch word? = some config.terminalHashEpoch

theorem ofJson?_eq_some :
    ofJson? json = some config ↔ ∃ fields, json.fields? = some fields ∧ config.ReadFrom fields := by
  constructor
  · intro reads
    simp only [ofJson?, Option.bind_eq_bind, Option.bind_eq_some_iff] at reads
    obtain ⟨fields, isObject, name, named, preset, based, secondsPerSlot, timed, boostPercent,
      boosted, safeSlots, safe, terminalDifficulty, hard, terminalHash, hashed, terminalHashEpoch,
      activated, whole⟩ := reads
    split at whole
    · cases whole
      exact ⟨fields, isObject, named, based, timed, boosted, safe, hard, hashed, activated⟩
    · contradiction
  · rintro ⟨fields, isObject, reads⟩
    rw [ofJson?, Json.bind_of_read isObject, Json.bind_of_read reads.name,
      Json.bind_of_read reads.preset, Json.bind_of_read reads.secondsPerSlot,
      Json.bind_of_read reads.boostPercent, Json.bind_of_read reads.safeSlots,
      Json.bind_of_read reads.terminalDifficulty, Json.bind_of_read reads.terminalHash,
      Json.bind_of_read reads.terminalHashEpoch, dif_pos config.secondsPerSlot_ne_zero]

def number? (config : ChainConfig) : String → Option Nat
  | "SECONDS_PER_SLOT" => some config.secondsPerSlot.toNat
  | "PROPOSER_SCORE_BOOST" => some config.boostPercent.toNat
  | "SAFE_SLOTS_TO_UPDATE_JUSTIFIED" => some config.safeSlots.toNat
  | "TERMINAL_TOTAL_DIFFICULTY" => some config.terminalDifficulty.toNat
  | "TERMINAL_BLOCK_HASH_ACTIVATION_EPOCH" => some config.terminalHashEpoch.toNat
  | _ => none

/-- A value spells the number that a key stands for. -/
def Spells (config : ChainConfig) (key : String) (value : Json) : Prop :=
  ∃ n, config.number? key = some n ∧ Numeral n value

theorem Spells.numeral (spells : config.Spells key value) (stands : config.number? key = some n) :
    Numeral n value := by
  obtain ⟨m, stands', numeral⟩ := spells
  cases stands.symm.trans stands'
  exact numeral

theorem Spells.number?_ne_none (spells : config.Spells key value) : config.number? key ≠ none := by
  obtain ⟨n, stands, -⟩ := spells
  rw [stands]
  exact Option.some_ne_none n

theorem ofJson?_toJson (config : ChainConfig) : ofJson? config.toJson = some config := by
  have word (w : UInt64) : word? (.word w) = some w := word?_of_numeral (.native w.toNat_lt_size)
  have difficulty (d : Difficulty) : difficulty? (.string d.toDecimal) = some d :=
    d.ofDecimal?_toDecimal
  refine ofJson?_eq_some.mpr ⟨_, rfl, ?_⟩
  constructor <;> simp -implicitDefEqProofs [Json.Fields.orDefault, Json.Fields.lookup_of_ne,
    Json.string?, Preset.ofJson?_toJson, word, difficulty]

/-- Another spelling of one of the numbers leaves everything as it is. -/
theorem ReadFrom.replaceValue (reads : config.ReadFrom fields)
    (spells : config.Spells key value) : config.ReadFrom (fields.replaceValue key value) where
  name := Json.Fields.orDefault_replaceValue reads.name
    fun same => absurd (same ▸ rfl) spells.number?_ne_none
  preset := Json.Fields.orDefault_replaceValue reads.preset
    fun same => absurd (same ▸ rfl) spells.number?_ne_none
  secondsPerSlot := Json.Fields.orDefault_replaceValue reads.secondsPerSlot
    fun same => word?_of_numeral (spells.numeral (same ▸ rfl))
  boostPercent := Json.Fields.orDefault_replaceValue reads.boostPercent
    fun same => word?_of_numeral (spells.numeral (same ▸ rfl))
  safeSlots := Json.Fields.orDefault_replaceValue reads.safeSlots
    fun same => word?_of_numeral (spells.numeral (same ▸ rfl))
  terminalDifficulty := Json.Fields.orDefault_replaceValue reads.terminalDifficulty
    fun same => difficulty?_of_numeral (spells.numeral (same ▸ rfl))
  terminalHash := Json.Fields.orDefault_replaceValue reads.terminalHash
    fun same => absurd (same ▸ rfl) spells.number?_ne_none
  terminalHashEpoch := Json.Fields.orDefault_replaceValue reads.terminalHashEpoch
    fun same => word?_of_numeral (spells.numeral (same ▸ rfl))

theorem ofJson?_replaceValue (reads : ofJson? json = some config)
    (spells : config.Spells key value) : ofJson? (json.replaceValue key value) = some config := by
  obtain ⟨fields, isObject, readFrom⟩ := ofJson?_eq_some.mp reads
  cases json with
  | object fields' =>
    cases isObject
    exact ofJson?_eq_some.mpr ⟨_, rfl, readFrom.replaceValue spells⟩
  | null | bool | integer | fraction | string | array => contradiction

theorem ofJson?_replaceValues (values : Json.Fields) (reads : ofJson? json = some config)
    (spells : ∀ field ∈ values, config.Spells field.1 field.2) :
    ofJson? (json.replaceValues values) = some config := by
  induction values generalizing json with
  | nil => exact reads
  | cons field values ih =>
    exact ih (ofJson?_replaceValue reads (spells field List.mem_cons_self))
      fun other member => spells other (List.mem_cons_of_mem field member)

/--
Every configuration reads back from its JSON form, also after numbers in that form have been
replaced, any of them and any number of times, by other spellings of themselves: words natively or
in decimal, the terminal difficulty in decimal or, where it fits a word, natively.
-/
theorem reads_back_however_spelled (config : ChainConfig) :
    ofJson? config.toJson = some config ∧
      ∀ values : Json.Fields, (∀ field ∈ values, config.Spells field.1 field.2) →
        ofJson? (config.toJson.replaceValues values) = some config :=
  ⟨config.ofJson?_toJson, fun values => ofJson?_replaceValues values config.ofJson?_toJson⟩

/-- A configuration whose name is not a valid one and whose terminal difficulty fits a word. -/
def shortChain : ChainConfig :=
  { mainnet with name := "Short Chain", terminalDifficulty := .ofNat 100 }

def shortChainValues : Json.Fields :=
  [("SECONDS_PER_SLOT", .string "0012"), ("PROPOSER_SCORE_BOOST", .string "40"),
    ("SAFE_SLOTS_TO_UPDATE_JUSTIFIED", .string "08"), ("TERMINAL_TOTAL_DIFFICULTY", .integer 100),
    ("TERMINAL_BLOCK_HASH_ACTIVATION_EPOCH", .string "18446744073709551615")]

theorem shortChain_reads_back :
    (∀ field ∈ shortChainValues, shortChain.Spells field.1 field.2) ∧
      shortChain.toJson.replaceValues shortChainValues = .object [
        ("CONFIG_NAME", .string "Short Chain"), ("PRESET_BASE", .string "mainnet"),
        ("SECONDS_PER_SLOT", .string "0012"), ("PROPOSER_SCORE_BOOST", .string "40"),
        ("SAFE_SLOTS_TO_UPDATE_JUSTIFIED", .string "08"),
        ("TERMINAL_TOTAL_DIFFICULTY", .integer 100),
        ("TERMINAL_BLOCK_HASH", Root.zero.toJson),
        ("TERMINAL_BLOCK_HASH_ACTIVATION_EPOCH", .string "18446744073709551615")] ∧
      ofJson? (shortChain.toJson.replaceValues shortChainValues) = some shortChain := by
  have spells : ∀ field ∈ shortChainValues, shortChain.Spells field.1 field.2 := by
    simp only [shortChainValues, List.forall_mem_cons]
    exact ⟨⟨12, rfl, .decimal 2⟩, ⟨40, rfl, .decimal 0⟩, ⟨8, rfl, .decimal 1⟩,
      ⟨100, rfl, .native (by decide)⟩, ⟨18446744073709551615, rfl, .decimal 0⟩,
      List.forall_mem_nil _⟩
  exact ⟨spells, rfl, (reads_back_however_spelled shortChain).2 _ spells⟩

end ChainConfig

end LmdGhost
