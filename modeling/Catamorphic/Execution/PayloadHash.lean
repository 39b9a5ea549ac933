import Catamorphic.Db.StoredJson
import Catamorphic.Execution.RunCoordinator

/-!
# The hashes of a request

A request is known again by its key and by the hash of its payload. The two paths hash different
texts: a pause's is the payload as it came, a signal's is the stored payload with the keys of
every object in order.
-/

namespace Catamorphic.Execution.Coordinator

open List

mutual

def canonicalJson : JsonValue → Text
  | .array entries => 0x5B :: JsonValue.commas (canonicalEntries entries) ++ [0x5D]
  | .object fields =>
    0x7B :: JsonValue.commas (((canonicalFields fields).insertionSort JsonValue.KeyLe).map
      fun (key, item) => jsonbText (.string key) ++ 0x3A :: item) ++ [0x7D]
  | value => jsonbText value

def canonicalEntries : List JsonValue → List Text
  | [] => []
  | entry :: entries => canonicalJson entry :: canonicalEntries entries

/-- The keys, with the texts of their items. -/
def canonicalFields : List (Text × JsonValue) → List (Text × Text)
  | [] => []
  | (key, item) :: fields => (key, canonicalJson item) :: canonicalFields fields

end

/-- The text that `signalPayload` hashes; none where it throws. -/
def encodedPayload (value : JsonValue) : Option Text := (storedJson value).map canonicalJson

/-- The transactions' values, given the hash of a text and what is not theirs. -/
def requestValues (sha256 : Text → String) (column : JsonValue → JsonValue)
    (parseDuration : String → Option Nat) : Values where
  jsonHash value := sha256 value.stringify
  payloadHash value := sha256 ((encodedPayload value).getD [])
  encodedBytes value := (Text.bytes ((encodedPayload value).getD [])).length
  column
  parseDuration

/-! ## What the texts tell apart -/

theorem canonicalEntries_eq (entries : List JsonValue) :
    canonicalEntries entries = entries.map canonicalJson := by
  induction entries with
  | nil => rfl
  | cons entry entries ih => rw [canonicalEntries, ih, map_cons]

theorem canonicalFields_eq (fields : List (Text × JsonValue)) :
    canonicalFields fields = fields.map fun field => (field.1, canonicalJson field.2) := by
  induction fields with
  | nil => rfl
  | cons field fields ih => rw [canonicalFields, ih, map_cons]

theorem map_sorted {α β : Type} (f : α → β) (fields : List (Text × α)) :
    (fields.insertionSort JsonValue.KeyLe).map (fun field => (field.1, f field.2)) =
      (fields.map fun field => (field.1, f field.2)).insertionSort JsonValue.KeyLe :=
  map_insertionSort _ _ _ _ fun _ _ _ _ => .rfl

/-- The canonical text is the text of the ordered form. -/
theorem canonicalJson_eq (value : JsonValue) : canonicalJson value = jsonbText value.ordered := by
  induction value with
  | null | bool _ | number _ | string _ => rfl
  | array entries ih =>
    rw [canonicalJson, canonicalEntries_eq, JsonValue.ordered_array, jsonbText, JsonValue.write,
      JsonValue.writeEntries_eq, map_map, map_congr_left ih]
    rfl
  | object fields ih =>
    -- Sorting looks at the keys alone, so the items may be written before it or after it.
    have hsort : (fields.map fun field => (field.1, canonicalJson field.2)).insertionSort
          JsonValue.KeyLe =
        (JsonValue.byKey (fields.map fun field => (field.1, field.2.ordered))).map fun field =>
          (field.1, jsonbText field.2) := by
      rw [JsonValue.byKey, map_sorted, map_map]
      refine congrArg (List.insertionSort JsonValue.KeyLe)
        (map_congr_left fun field hfield => ?_)
      exact congrArg (Prod.mk field.1) (ih field hfield)
    rw [canonicalJson, canonicalFields_eq, hsort, JsonValue.ordered_object, jsonbText,
      JsonValue.write, JsonValue.writeFields_eq, map_map]
    rfl

variable {sha256 : Text → String} (column : JsonValue → JsonValue)
  (parseDuration : String → Option Nat) {a b : JsonValue}

theorem encodedPayload_eq (value : JsonValue) :
    encodedPayload value = some (jsonbText value.stored.ordered) := by
  rw [encodedPayload, storedJson_eq, Option.map_some, canonicalJson_eq]

/-- The signal's text is one exactly for payloads that are stored as equal ones. -/
theorem encodedPayload_eq_iff :
    encodedPayload a = encodedPayload b ↔ a.stored.same b.stored = true := by
  rw [encodedPayload_eq, encodedPayload_eq, Option.some.injEq,
    ← JsonValue.ordered_eq_iff (JsonValue.stored_distinct a) (JsonValue.stored_distinct b)]
  refine ⟨fun h => ?_, fun h => h ▸ rfl⟩
  exact JsonValue.jsonbText_inj (JsonValue.ordered_storable (JsonValue.stored_storable a))
    (JsonValue.ordered_storable (JsonValue.stored_storable b)) h

/-- The payloads' texts have different hashes where they are different texts. -/
structure Apart (sha256 : Text → String) (a b : JsonValue) : Prop where
  written : sha256 a.stringify = sha256 b.stringify → a.stringify = b.stringify
  encoded : sha256 ((encodedPayload a).getD []) = sha256 ((encodedPayload b).getD []) →
    (encodedPayload a).getD [] = (encodedPayload b).getD []

/-- A pause's hash is one for payloads that are written alike. -/
theorem jsonHash_eq_iff (h : Apart sha256 a b) :
    (requestValues sha256 column parseDuration).jsonHash a =
      (requestValues sha256 column parseDuration).jsonHash b ↔ a = b :=
  ⟨fun heq => JsonValue.stringify_inj (h.written heq), fun heq => heq ▸ rfl⟩

theorem payloadHash_eq_iff (h : Apart sha256 a b) :
    (requestValues sha256 column parseDuration).payloadHash a =
      (requestValues sha256 column parseDuration).payloadHash b ↔
        a.stored.same b.stored = true := by
  rw [← encodedPayload_eq_iff]
  refine ⟨fun heq => ?_, fun heq => congrArg (fun text : Option Text => sha256 (text.getD [])) heq⟩
  have htexts := h.encoded heq
  rw [encodedPayload_eq, encodedPayload_eq] at htexts ⊢
  exact congrArg some htexts

end Catamorphic.Execution.Coordinator
