import LmdGhost.Word
/-!
JSON values and the readers that records are decoded with. A reader answers nothing where a value
does not have the form it asks for. Numbers that are not written as integers keep their text, since
no reader accepts them.
-/

namespace LmdGhost

inductive Json where
  | null
  | bool (value : Bool)
  | integer (value : Int)
  | fraction (numeral : String)
  | string (value : String)
  | array (items : List Json)
  | object (fields : List (String × Json))
deriving Inhabited

namespace Json

/-- The fields of an object in the order in which they are listed. -/
abbrev Fields := List (String × Json)

def word (w : UInt64) : Json :=
  .integer w.toNat

/-- An integer in the range of a word. -/
def word? : Json → Option UInt64
  | .integer n => Word.ofInt? n
  | _ => none

/-- A position in a list, kept within the range of a word. -/
def index? (json : Json) : Option Nat :=
  json.word?.map UInt64.toNat

def string? : Json → Option String
  | .string s => some s
  | _ => none

def list (write : α → Json) (items : List α) : Json :=
  .array (items.map write)

/-- An array all of whose items can be read. -/
def list? (read : Json → Option α) : Json → Option (List α)
  | .array items => items.mapM read
  | _ => none

def option (write : α → Json) : Option α → Json
  | none => .null
  | some a => write a

/-- A value that may be null. -/
def option? (read : Json → Option α) : Json → Option (Option α)
  | .null => some none
  | json => (read json).map some

namespace Fields

/-- A field that must be present. -/
def required (fields : Fields) (key : String) (read : Json → Option α) : Option α :=
  (fields.lookup key).bind read

/-- A field that may be absent or null. -/
def optional (fields : Fields) (key : String) (read : Json → Option α) : Option (Option α) :=
  match fields.lookup key with
  | none => some none
  | some json => json.option? read

/-- A field that stands for a default where it is absent. -/
def orDefault (fields : Fields) (key : String) (default : α) (read : Json → Option α) : Option α :=
  match fields.lookup key with
  | none => some default
  | some json => read json

/-- Whether every listed field is one of the keys. -/
def within (fields : Fields) (keys : List String) : Bool :=
  fields.all fun field => keys.contains field.1

end Fields

/-- The fields of an object. -/
def fields? : Json → Option Fields
  | .object fields => some fields
  | _ => none

/-- The fields of an object that lists no others than the keys. -/
def fieldsWithin? (keys : List String) (json : Json) : Option Fields :=
  json.fields?.filter (·.within keys)

@[simp]
theorem word?_word (w : UInt64) : (word w).word? = some w :=
  Word.ofInt?_eq_some.2 rfl

end Json

end LmdGhost
