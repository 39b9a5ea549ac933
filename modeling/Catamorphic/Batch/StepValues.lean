import Mathlib.Data.Rat.Defs
import Catamorphic.Db.StorableText

/-!
# The values of a step

A step returns any value of the language. What is kept of it is JSON: `toProtocolJson`
makes a copy of the value on its way out of the worker, the copy is written to a `jsonb`
column, and a later run is handed what the column gives back.
-/

namespace Catamorphic.Batch

inductive Number
  | finite (value : Rat)
  | negativeZero
  | nan
  | infinity (negative : Bool)
  deriving DecidableEq

/-- A value of the language. An object of a class has the class's name. -/
inductive Value
  | undefined
  | null
  | bool (value : Bool)
  | number (value : Number)
  | bigint (value : Int)
  | string (value : Text)
  | error (name message : Text) (stack : Option Text)
  /-- a function or a symbol, as `String` writes it -/
  | other (shown : Text)
  /-- a reference to an object that it lies in -/
  | enclosing
  | array (entries : List Value)
  | object (class? : Option String) (fields : List (Text × Value))

inductive Json
  | null
  | bool (value : Bool)
  | number (value : Rat)
  | string (value : Text)
  | array (entries : List Json)
  | object (fields : List (Text × Json))

/-- A number, where it can be written as one. -/
def Number.toJson : Number → Json
  | .finite value => .number value
  | .negativeZero => .number 0
  | .nan => .string (Text.ofString "NaN")
  | .infinity false => .string (Text.ofString "Infinity")
  | .infinity true => .string (Text.ofString "-Infinity")

def optionalText : Option Text → Json
  | none => .null
  | some text => .string text

mutual

def toProtocolJson : Value → Json
  | .undefined => .null
  | .null => .null
  | .bool value => .bool value
  | .number value => value.toJson
  | .bigint value => .string (Text.ofString (toString value))
  | .string value => .string value
  | .error name message stack =>
    .object [(Text.ofString "name", .string name), (Text.ofString "message", .string message),
      (Text.ofString "stack", optionalText stack)]
  | .other shown => .string shown
  | .enclosing => .string (Text.ofString "[Circular]")
  | .array entries => .array (entriesJson entries)
  | .object _ fields => .object (fieldsJson fields)

def entriesJson : List Value → List Json
  | [] => []
  | entry :: entries => toProtocolJson entry :: entriesJson entries

/-- The fields that are not undefined. -/
def fieldsJson : List (Text × Value) → List (Text × Json)
  | [] => []
  | (_, .undefined) :: fields => fieldsJson fields
  | (key, value) :: fields => (key, toProtocolJson value) :: fieldsJson fields

end

mutual

/-- The value that a JSON text is read as. -/
def Json.toValue : Json → Value
  | .null => .null
  | .bool value => .bool value
  | .number value => .number (.finite value)
  | .string value => .string value
  | .array entries => .array (entriesValue entries)
  | .object fields => .object none (fieldsValue fields)

def entriesValue : List Json → List Value
  | [] => []
  | entry :: entries => entry.toValue :: entriesValue entries

def fieldsValue : List (Text × Json) → List (Text × Value)
  | [] => []
  | (key, value) :: fields => (key, value.toValue) :: fieldsValue fields

end

mutual

/-- `jsonbText`: the text of a JSON value that the column accepts, as the value it is of. -/
def jsonbText : Json → Json
  | .null => .null
  | .bool value => .bool value
  | .number value => .number value
  | .string value => .string (storableText value)
  | .array entries => .array (entriesText entries)
  | .object fields => .object (fieldsText fields)

def entriesText : List Json → List Json
  | [] => []
  | entry :: entries => jsonbText entry :: entriesText entries

def fieldsText : List (Text × Json) → List (Text × Json)
  | [] => []
  | (key, value) :: fields => (storableText key, jsonbText value) :: fieldsText fields

end

/-! ## What is kept -/

mutual

/-- A value that is JSON is written as it is. -/
theorem toProtocolJson_toValue : ∀ value : Json, toProtocolJson value.toValue = value
  | .null | .bool _ | .number _ | .string _ => by
    simp [Json.toValue, toProtocolJson, Number.toJson]
  | .array entries => by rw [Json.toValue, toProtocolJson, entriesJson_entriesValue entries]
  | .object fields => by rw [Json.toValue, toProtocolJson, fieldsJson_fieldsValue fields]

theorem entriesJson_entriesValue : ∀ entries : List Json,
    entriesJson (entriesValue entries) = entries
  | [] => rfl
  | entry :: entries => by
    rw [entriesValue, entriesJson, toProtocolJson_toValue entry, entriesJson_entriesValue entries]

theorem fieldsJson_fieldsValue : ∀ fields : List (Text × Json),
    fieldsJson (fieldsValue fields) = fields
  | [] => rfl
  | (key, value) :: fields => by
    have hdefined : value.toValue ≠ .undefined := by cases value <;> simp [Json.toValue]
    rw [fieldsValue, fieldsJson, toProtocolJson_toValue value, fieldsJson_fieldsValue fields]
    exact hdefined

end

mutual

/-- The text that the column accepts is accepted as it is. -/
theorem jsonbText_jsonbText : ∀ value : Json, jsonbText (jsonbText value) = jsonbText value
  | .null | .bool _ | .number _ => rfl
  | .string text => by rw [jsonbText, jsonbText, storableText_storableText]
  | .array entries => by rw [jsonbText, jsonbText, entriesText_entriesText entries]
  | .object fields => by rw [jsonbText, jsonbText, fieldsText_fieldsText fields]

theorem entriesText_entriesText : ∀ entries : List Json,
    entriesText (entriesText entries) = entriesText entries
  | [] => rfl
  | entry :: entries => by
    rw [entriesText, entriesText, jsonbText_jsonbText entry, entriesText_entriesText entries]

theorem fieldsText_fieldsText : ∀ fields : List (Text × Json),
    fieldsText (fieldsText fields) = fieldsText fields
  | [] => rfl
  | (key, value) :: fields => by
    rw [fieldsText, fieldsText, storableText_storableText, jsonbText_jsonbText value,
      fieldsText_fieldsText fields]

end

end Catamorphic.Batch
