import Catamorphic.Lib.JsonEqual
import Catamorphic.Lib.Maps

/-!
# A session's metadata

What a session is said to be about: a few keys, each with a JSON value. A writer hands over whatever
its program has, so a value is checked for being plain JSON before anything is kept of it; the
bounds are on the keys, on each value and on the whole, written as JSON.
-/

namespace Catamorphic.Sessions.Metadata

open Maps Text

namespace SESSION_METADATA_LIMITS

/-- Keys one session holds. -/
def keys : Nat := 32

/-- Characters in a key. -/
def keyLength : Nat := 64

/-- UTF-8 bytes of one value, written as JSON. -/
def valueBytes : Nat := 16384

/-- UTF-8 bytes of all of a session's metadata, written as JSON. -/
def totalBytes : Nat := 65536

/-- Arrays and objects nested inside one value. -/
def depth : Nat := 16

end SESSION_METADATA_LIMITS

abbrev SessionMetadata := List (Text × JsonValue)

structure SessionMetadataError where
  message : Text
  deriving DecidableEq

/-- What a writer hands over. -/
inductive Given
  | null
  | bool (value : Bool)
  | number (value : JsonNumber)
  /-- No finite number. -/
  | nonFinite
  | string (value : Text)
  | array (entries : List Given)
  /-- An object, and whether it is a plain one by its prototype. -/
  | object (plain : Bool) (fields : List (Text × Given))
  /-- A function, a symbol, a bigint or `undefined`. -/
  | other

namespace Given

/-- Induction with a hypothesis for each entry and for each field's value. -/
@[elab_as_elim, induction_eliminator]
theorem ind {motive : Given → Prop} (null : motive .null) (bool : ∀ value, motive (.bool value))
    (number : ∀ value, motive (.number value)) (nonFinite : motive .nonFinite)
    (string : ∀ value, motive (.string value))
    (array : ∀ entries, (∀ entry ∈ entries, motive entry) → motive (.array entries))
    (object : ∀ plain fields, (∀ field ∈ fields, motive field.2) → motive (.object plain fields))
    (other : motive .other) : ∀ value, motive value := by
  intro value
  refine @Given.rec motive (fun entries => ∀ entry ∈ entries, motive entry)
    (fun fields => ∀ field ∈ fields, motive field.2) (fun field => motive field.2)
    null bool number nonFinite string array object other ?_ ?_ ?_ ?_ ?_ value
  · exact nofun
  · intro entry entries hentry hentries
    exact List.forall_mem_cons.mpr ⟨hentry, hentries⟩
  · exact nofun
  · intro field fields hfield hfields
    exact List.forall_mem_cons.mpr ⟨hfield, hfields⟩
  · intro key value hvalue
    exact hvalue

def isNull : Given → Bool
  | .null => true
  | _ => false

mutual

/-- A JSON value, handed over. -/
def of : JsonValue → Given
  | .null => .null
  | .bool value => .bool value
  | .number value => .number value
  | .string value => .string value
  | .array entries => .array (ofEntries entries)
  | .object fields => .object true (ofFields fields)

def ofEntries : List JsonValue → List Given
  | [] => []
  | entry :: entries => of entry :: ofEntries entries

def ofFields : List (Text × JsonValue) → List (Text × Given)
  | [] => []
  | (key, value) :: fields => (key, of value) :: ofFields fields

end

/-- A field, handed over. -/
def ofField (field : Text × JsonValue) : Text × Given := (field.1, of field.2)

theorem ofEntries_eq (entries : List JsonValue) : ofEntries entries = entries.map of := by
  induction entries with
  | nil => rfl
  | cons entry entries ih => rw [ofEntries, ih, List.map_cons]

theorem ofFields_eq (fields : List (Text × JsonValue)) : ofFields fields = fields.map ofField := by
  induction fields with
  | nil => rfl
  | cons field fields ih =>
    rw [ofFields, ih, List.map_cons]
    rfl

end Given

/-! ## Keys -/

/-- `[a-z]` -/
def isLower (unit : UInt16) : Bool := 0x61 ≤ unit && unit ≤ 0x7A

/-- `[a-z0-9]` -/
def isWord (unit : UInt16) : Bool := isLower unit || (0x30 ≤ unit && unit ≤ 0x39)

/-- `[_.-]` -/
def isJoin (unit : UInt16) : Bool := unit = 0x5F || unit = 0x2E || unit = 0x2D

/-- What may follow in a key, whether right after a join or not. -/
def restOfKey : Bool → Text → Bool
  | joined, [] => !joined
  | joined, unit :: rest =>
    if isWord unit then restOfKey false rest else !joined && isJoin unit && restOfKey true rest

/-- `SESSION_METADATA_KEY_PATTERN.test(key)` -/
def matchesKeyPattern : Text → Bool
  | [] => false
  | unit :: rest => isLower unit && restOfKey false rest

def checkKey (key : Text) : Except SessionMetadataError Unit :=
  if SESSION_METADATA_LIMITS.keyLength < key.length || !matchesKeyPattern key then
    .error ⟨ofString "\"" ++ key.take 80 ++ ofString
      s!"\" is not a metadata key: use lowercase words of letters and digits joined by _, - or ., at most {SESSION_METADATA_LIMITS.keyLength} characters, starting with a letter."⟩
  else .ok ()

/-! ## Values -/

section

variable (key : Text)

mutual

/-- Plain JSON only: what the value is as such. -/
def checkValue : Nat → Given → Except SessionMetadataError JsonValue
  | _, .null => .ok .null
  | _, .string value => .ok (.string value)
  | _, .bool value => .ok (.bool value)
  | _, .number value => .ok (.number value)
  | _, .nonFinite =>
    .error ⟨ofString "The value of " ++ key ++ ofString " holds a non-number."⟩
  | _, .other => .error ⟨ofString "The value of " ++ key ++ ofString " is not JSON."⟩
  | depth, .array entries =>
    if SESSION_METADATA_LIMITS.depth ≤ depth then
      .error ⟨ofString "The value of " ++ key ++ ofString
        s!" nests deeper than {SESSION_METADATA_LIMITS.depth} levels."⟩
    else (checkEntries (depth + 1) entries).map .array
  | depth, .object plain fields =>
    if SESSION_METADATA_LIMITS.depth ≤ depth then
      .error ⟨ofString "The value of " ++ key ++ ofString
        s!" nests deeper than {SESSION_METADATA_LIMITS.depth} levels."⟩
    else if plain then (checkFields (depth + 1) fields).map .object
    else .error ⟨ofString "The value of " ++ key ++ ofString " is not JSON."⟩

def checkEntries : Nat → List Given → Except SessionMetadataError (List JsonValue)
  | _, [] => .ok []
  | depth, entry :: entries => do
    let value ← checkValue depth entry
    let values ← checkEntries depth entries
    return value :: values

def checkFields : Nat → List (Text × Given) → Except SessionMetadataError (List (Text × JsonValue))
  | _, [] => .ok []
  | depth, (name, field) :: fields => do
    let value ← checkValue depth field
    let values ← checkFields depth fields
    return (name, value) :: values

end

end

def jsonBytes (value : JsonValue) : Nat := (bytes value.stringify).length

/-- One value: plain bounded JSON, within its size. -/
def checkEntry (key : Text) (given : Given) : Except SessionMetadataError JsonValue := do
  let value ← checkValue key 0 given
  if SESSION_METADATA_LIMITS.valueBytes < jsonBytes value then
    .error ⟨ofString "The value of " ++ key ++ ofString
      s!" is larger than {SESSION_METADATA_LIMITS.valueBytes} bytes as JSON."⟩
  else .ok value

/-- The same JSON, whatever order an object's keys come in. -/
def sameJson (left right : JsonValue) : Bool := JsonValue.same left right

/-! ## Writes -/

/-- A write: an object, so each key is there once. -/
structure Write where
  values : List (Text × Given)
  distinct : Distinct values

/-- What is returned: `current` itself, or another object. -/
inductive Written
  | current
  | next (metadata : SessionMetadata)

/-- `delete next[key]` -/
def removeAt (map : SessionMetadata) (key : Text) : SessionMetadata :=
  map.filter fun entry => entry.1 ≠ key

/-- One turn of the loop over a write's entries: what is next, and whether it changed. -/
def writeEntry (state : SessionMetadata × Bool) (entry : Text × Given) :
    Except SessionMetadataError (SessionMetadata × Bool) := do
  checkKey entry.1
  if entry.2.isNull then
    if (valueAt state.1 entry.1).isSome then return (removeAt state.1 entry.1, true)
    else return state
  else
    let value ← checkEntry entry.1 entry.2
    if (valueAt state.1 entry.1).any fun before => sameJson before value then return state
    else return (setAt state.1 entry.1 value, true)

def withSessionMetadata (current : SessionMetadata) (write : Write) :
    Except SessionMetadataError Written :=
  if write.values.length = 0 then
    .error ⟨ofString "Name at least one key to set or remove."⟩
  else if SESSION_METADATA_LIMITS.keys < write.values.length then
    .error ⟨ofString s!"A write sets at most {SESSION_METADATA_LIMITS.keys} keys."⟩
  else do
    let (next, changed) ← write.values.foldlM writeEntry (current, false)
    if !changed then .ok .current
    else if SESSION_METADATA_LIMITS.keys < next.length && current.length < next.length then
      .error ⟨ofString
        s!"A session holds at most {SESSION_METADATA_LIMITS.keys} metadata keys; remove one first."⟩
    else if SESSION_METADATA_LIMITS.totalBytes < jsonBytes (.object next) &&
        jsonBytes (.object current) < jsonBytes (.object next) then
      .error ⟨ofString
        s!"A session's metadata is at most {SESSION_METADATA_LIMITS.totalBytes} bytes as JSON; remove or shorten a value first."⟩
    else .ok (.next next)

/-! ## What one copy takes from another -/

/-- One entry of what is checked. -/
def assertEntry (entry : Text × Given) : Except SessionMetadataError (Text × JsonValue) := do
  checkKey entry.1
  if entry.2.isNull then
    .error ⟨ofString "The value of " ++ entry.1 ++ ofString " is null."⟩
  else
    let value ← checkEntry entry.1 entry.2
    return (entry.1, value)

/-- `assertSessionMetadata`: what the metadata are, where they pass. -/
def assertSessionMetadata : Given → Except SessionMetadataError SessionMetadata
  | .object true fields => do
    let entries ← fields.mapM assertEntry
    if SESSION_METADATA_LIMITS.keys < entries.length then
      .error ⟨ofString s!"A session holds at most {SESSION_METADATA_LIMITS.keys} metadata keys."⟩
    else if SESSION_METADATA_LIMITS.totalBytes < jsonBytes (.object entries) then
      .error ⟨ofString
        s!"A session's metadata is at most {SESSION_METADATA_LIMITS.totalBytes} bytes as JSON."⟩
    else .ok entries
  | _ => .error ⟨ofString "Session metadata is an object of values."⟩

/-! ## A session's metadata, write after write -/

/-- The metadata after a write: a refused one throws. -/
def after (current : SessionMetadata) (write : Write) : SessionMetadata :=
  match withSessionMetadata current write with
  | .ok (.next next) => next
  | .ok .current => current
  | .error _ => current

/-- The metadata after writes to a session that had none. -/
def afterAll (writes : List Write) : SessionMetadata := writes.foldl after []

example : ["pull_requests", "deploy.preview", "ci-run", "v2"].all
    (fun key => matchesKeyPattern (ofString key)) = true := by decide

example : ["", "Pull_Requests", "1st", "pull requests", "trailing_", "a__b"].any
    (fun key => matchesKeyPattern (ofString key)) = false := by decide

end Catamorphic.Sessions.Metadata
