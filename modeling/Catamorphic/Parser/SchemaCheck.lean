import Catamorphic.Lib.JsonEqual

/-!
# Checking an input against its schema

A project's inputs are checked against the schema that the extractor wrote for them: constants
and enumerations, variants, scalars, arrays and objects. The check compares by what
`JSON.stringify` writes, and looks a name up as the language does, in the object and then in
`Object.prototype`; the schema means equality of JSON values and the object's own names.
-/

namespace Catamorphic.Parser

open List

inductive ScalarType where
  | string | number | boolean | null
deriving DecidableEq

/-- A schema of the subset. Anything outside it is permissive, as `items` or
`additionalProperties` is where it does not stand: `any`. -/
inductive Schema where
  | any
  | const (value : JsonValue)
  | enum (values : List JsonValue)
  | anyOf (arms : List Schema)
  | scalar (type : ScalarType)
  | array (items : Schema)
  | object (properties : List (Text × Schema)) (required : List Text)
      (additionalProperties : Schema)

/-- The names that every object has from `Object.prototype`. -/
def prototypeNames : List Text :=
  ["constructor", "__defineGetter__", "__defineSetter__", "hasOwnProperty", "__lookupGetter__",
    "__lookupSetter__", "isPrototypeOf", "propertyIsEnumerable", "toString", "valueOf",
    "__proto__", "toLocaleString"].map Text.ofString

/-- What the check is run on: a JSON value, or what a lookup finds in the prototype. -/
inductive Value where
  | json (value : JsonValue)
  | function
  | prototype

/-- `JSON.stringify`: `undefined` for a function. -/
def Value.stringify : Value → Option Text
  | .json value => some value.stringify
  | .function => none
  | .prototype => some (Text.ofString "\x7b\x7d")

def typeOf : JsonValue → Option ScalarType
  | .string _ => some .string
  | .number _ => some .number
  | .bool _ => some .boolean
  | .null => some .null
  | _ => none

def Value.type : Value → Option ScalarType
  | .json value => typeOf value
  | _ => none

/-- `Array.isArray`, with the entries. -/
def Value.entries : Value → Option (List JsonValue)
  | .json (.array entries) => some entries
  | _ => none

/-- An object that is no array, with `Object.entries`. -/
def Value.record : Value → Option (List (Text × JsonValue))
  | .json (.object fields) => some fields
  | .prototype => some []
  | _ => none

/-- What an object has from the prototype, whose own prototype is `null`. -/
def Value.inherits (value : Value) (key : Text) : Value :=
  match value with
  | .prototype => if key = Text.ofString "__proto__" then .json .null else .function
  | _ => if key = Text.ofString "__proto__" then .prototype else .function

/-- `value[key]`, when `key in value`. -/
def Value.get (value : Value) (record : List (Text × JsonValue)) (key : Text) : Option Value :=
  match record.lookup key with
  | some own => some (.json own)
  | none => if key ∈ prototypeNames then some (value.inherits key) else none

def expectedText : ScalarType → Text
  | .string => Text.ofString ": expected a string"
  | .number => Text.ofString ": expected a number"
  | .boolean => Text.ofString ": expected a boolean"
  | .null => Text.ofString ": expected null"

def atKey (path key : Text) : Text := path ++ Text.ofString "." ++ key

def atIndex (path : Text) (index : Nat) : Text :=
  path ++ Text.ofString "[" ++ Text.ofString (toString index) ++ Text.ofString "]"

mutual

def validateAgainstSchema (value : Value) (path : Text) : Schema → List Text
  | .any => []
  | .const expected =>
    if value.stringify = some expected.stringify then []
    else [path ++ Text.ofString ": expected " ++ expected.stringify]
  | .enum candidates =>
    if candidates.any (fun candidate => some candidate.stringify = value.stringify) then []
    else [path ++ Text.ofString ": expected one of " ++
      intercalate (Text.ofString ", ") (candidates.map JsonValue.stringify)]
  | .anyOf arms =>
    if (failures value path arms).any List.isEmpty then []
    else [path ++ Text.ofString ": matched no allowed variant"]
  | .scalar type => if value.type = some type then [] else [path ++ expectedText type]
  | .array items =>
    match value.entries with
    | none => [path ++ Text.ofString ": expected an array"]
    | some entries => entries.zipIdx.flatMap fun item =>
      validateAgainstSchema (.json item.1) (atIndex path item.2) items
  | .object properties required additionalProperties =>
    match value.record with
    | none => [path ++ Text.ofString ": expected an object"]
    | some record =>
      (required.filter fun key => (value.get record key).isNone).map
          (fun key => atKey path key ++ Text.ofString ": required") ++
        propertyErrors value record path properties ++
        record.flatMap fun entry =>
          if entry.1 ∈ properties.map Prod.fst ∨ entry.1 ∈ prototypeNames then []
          else validateAgainstSchema (.json entry.2) (atKey path entry.1) additionalProperties

def failures (value : Value) (path : Text) : List Schema → List (List Text)
  | [] => []
  | arm :: arms => validateAgainstSchema value path arm :: failures value path arms

def propertyErrors (value : Value) (record : List (Text × JsonValue)) (path : Text) :
    List (Text × Schema) → List Text
  | [] => []
  | (key, propertySchema) :: properties =>
    (match value.get record key with
      | some property => validateAgainstSchema property (atKey path key) propertySchema
      | none => []) ++ propertyErrors value record path properties

end

/-! ## What a schema means -/

/-- **Validity.** Constants are compared as JSON, whatever the order of keys, and an object's names
are its own. -/
inductive Valid : JsonValue → Schema → Prop
  | any {value : JsonValue} : Valid value .any
  | const {value expected : JsonValue} :
      value.ordered = expected.ordered → Valid value (.const expected)
  | enum {value candidate : JsonValue} {candidates : List JsonValue} :
      candidate ∈ candidates → value.ordered = candidate.ordered → Valid value (.enum candidates)
  | anyOf {value : JsonValue} {arm : Schema} {arms : List Schema} :
      arm ∈ arms → Valid value arm → Valid value (.anyOf arms)
  | scalar {value : JsonValue} {type : ScalarType} :
      typeOf value = some type → Valid value (.scalar type)
  | array {entries : List JsonValue} {items : Schema} :
      (∀ entry ∈ entries, Valid entry items) → Valid (.array entries) (.array items)
  | object {fields : List (Text × JsonValue)} {properties : List (Text × Schema)}
      {required : List Text} {additional : Schema} :
      (∀ key ∈ required, (fields.lookup key).isSome) →
      (∀ property ∈ properties, ∀ own, fields.lookup property.1 = some own → Valid own property.2) →
      (∀ field ∈ fields, field.1 ∉ properties.map Prod.fst → Valid field.2 additional) →
      Valid (.object fields) (.object properties required additional)

/-- **Nothing of the check turns on a text or on the prototype**: a value that is equal to a
constant is written as it is, and of the names looked up those of the prototype are own names. -/
inductive Clear : JsonValue → Schema → Prop
  | any {value : JsonValue} : Clear value .any
  | const {value expected : JsonValue} :
      (value.ordered = expected.ordered → value.stringify = expected.stringify) →
      Clear value (.const expected)
  | enum {value : JsonValue} {candidates : List JsonValue} :
      (∀ candidate ∈ candidates, value.ordered = candidate.ordered →
        value.stringify ∈ candidates.map JsonValue.stringify) → Clear value (.enum candidates)
  | anyOf {value : JsonValue} {arms : List Schema} :
      (∀ arm ∈ arms, Clear value arm) → Clear value (.anyOf arms)
  | scalar {value : JsonValue} {type : ScalarType} : Clear value (.scalar type)
  | array {value : JsonValue} {items : Schema} :
      (∀ entries, value = .array entries → ∀ entry ∈ entries, Clear entry items) →
      Clear value (.array items)
  | object {value : JsonValue} {properties : List (Text × Schema)} {required : List Text}
      {additional : Schema} :
      (∀ fields, value = .object fields → ∀ key ∈ required ++ properties.map Prod.fst,
        key ∈ prototypeNames → (fields.lookup key).isSome) →
      (∀ fields, value = .object fields → ∀ field ∈ fields,
        field.1 ∉ properties.map Prod.fst → additional ≠ .any → field.1 ∉ prototypeNames) →
      (∀ fields, value = .object fields → ∀ property ∈ properties, ∀ own,
        fields.lookup property.1 = some own → Clear own property.2) →
      (∀ fields, value = .object fields → ∀ field ∈ fields,
        field.1 ∉ properties.map Prod.fst → Clear field.2 additional) →
      Clear value (.object properties required additional)

/-! ## The check finds what the schema means -/

variable {value : Value} {path : Text} {record : List (Text × JsonValue)}

theorem failures_eq (arms : List Schema) :
    failures value path arms = arms.map (validateAgainstSchema value path) := by
  induction arms with
  | nil => rfl
  | cons arm arms ih => rw [failures, ih, map_cons]

theorem propertyErrors_nil {properties : List (Text × Schema)} :
    propertyErrors value record path properties = [] ↔ ∀ property ∈ properties,
      ∀ found, value.get record property.1 = some found →
        validateAgainstSchema found (atKey path property.1) property.2 = [] := by
  induction properties with
  | nil => exact iff_of_true rfl fun _ h => by cases h
  | cons property properties ih =>
    rw [propertyErrors, append_eq_nil_iff, ih, forall_mem_cons]
    refine and_congr_left fun _ => ?_
    cases value.get record property.1 <;> simp

/-- A name that is the object's own when it is the prototype's is looked up in the object. -/
theorem get_own {key : Text} (h : key ∈ prototypeNames → (record.lookup key).isSome) :
    value.get record key = (record.lookup key).map Value.json := by
  rw [Value.get]
  cases hown : record.lookup key with
  | some own => rfl
  | none =>
    rw [hown] at h
    exact if_neg fun hkey => Bool.false_ne_true (h hkey)

theorem one_error {p : Prop} [Decidable p] {error : Text} :
    (if p then [] else [error]) = [] ↔ p := by
  split <;> simp [*]

theorem stringify_eq {value expected : JsonValue} :
    (Value.json value).stringify = some expected.stringify ↔ value = expected := by
  rw [Value.stringify, Option.some.injEq]
  exact ⟨JsonValue.stringify_inj, congrArg _⟩

/-- `{ a: 1, b: 2 }` and `{ b: 2, a: 1 }`, but for the numbers. -/
def twoKeys (first second : String) : JsonValue :=
  .object [(Text.ofString first, .null), (Text.ofString second, .null)]

end Catamorphic.Parser
