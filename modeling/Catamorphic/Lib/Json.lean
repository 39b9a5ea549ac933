import Catamorphic.Lib.JsonString

/-!
# JSON values and their texts

A JSON value as the language has it: an object's fields stand in the order in which they are
enumerated. `JSON.stringify` writes them in that order, and `JSON.parse` reads what was written
back. A writer may differ in how it writes a string: what is read is then what the string's own
text is read as.
-/

namespace Catamorphic

open List Option Text

/-- The units of a number's text. -/
def numberUnit (unit : UInt16) : Bool :=
  (0x30 ≤ unit && unit ≤ 0x39) || unit = 0x2B || unit = 0x2D || unit = 0x2E || unit = 0x45 ||
    unit = 0x65

/-- A number, by the text that it is written as: equal numbers have one. -/
structure JsonNumber where
  text : Text
  nonempty : text ≠ []
  units : ∀ unit ∈ text, numberUnit unit = true
  deriving DecidableEq

inductive JsonValue
  | null
  | bool (value : Bool)
  | number (value : JsonNumber)
  | string (value : Text)
  | array (entries : List JsonValue)
  | object (fields : List (Text × JsonValue))

namespace JsonValue

/-- Induction with a hypothesis for each entry and for each field's value. -/
@[elab_as_elim, induction_eliminator]
theorem ind {motive : JsonValue → Prop} (null : motive .null)
    (bool : ∀ value, motive (.bool value)) (number : ∀ value, motive (.number value))
    (string : ∀ value, motive (.string value))
    (array : ∀ entries, (∀ entry ∈ entries, motive entry) → motive (.array entries))
    (object : ∀ fields, (∀ field ∈ fields, motive field.2) → motive (.object fields)) :
    ∀ value, motive value := by
  intro value
  refine @JsonValue.rec motive (fun entries => ∀ entry ∈ entries, motive entry)
    (fun fields => ∀ field ∈ fields, motive field.2) (fun field => motive field.2)
    null bool number string array object ?_ ?_ ?_ ?_ ?_ value
  · exact nofun
  · intro entry entries hentry hentries
    exact forall_mem_cons.mpr ⟨hentry, hentries⟩
  · exact nofun
  · intro field fields hfield hfields
    exact forall_mem_cons.mpr ⟨hfield, hfields⟩
  · intro key value hvalue
    exact hvalue

/-! ## Writing -/

/-- `texts.join(",")` -/
def commas : List Text → Text
  | [] => []
  | [text] => text
  | text :: next :: texts => text ++ 0x2C :: commas (next :: texts)

def quoted (body : Text) : Text := 0x22 :: body ++ [0x22]

section

variable (body : Text → Text)

mutual

/-- The text of a value, given how the body of a string is written. -/
def write : JsonValue → Text
  | .null => ofString "null"
  | .bool true => ofString "true"
  | .bool false => ofString "false"
  | .number value => value.text
  | .string text => quoted (body text)
  | .array entries => 0x5B :: commas (writeEntries entries) ++ [0x5D]
  | .object fields => 0x7B :: commas (writeFields fields) ++ [0x7D]

def writeEntries : List JsonValue → List Text
  | [] => []
  | entry :: entries => write entry :: writeEntries entries

def writeFields : List (Text × JsonValue) → List Text
  | [] => []
  | (key, value) :: fields => (quoted (body key) ++ 0x3A :: write value) :: writeFields fields

end

theorem writeEntries_eq (entries : List JsonValue) :
    writeEntries body entries = entries.map (write body) := by
  induction entries with
  | nil => rfl
  | cons entry entries ih => rw [writeEntries, ih, map_cons]

theorem writeFields_eq (fields : List (Text × JsonValue)) : writeFields body fields =
    fields.map fun field => quoted (body field.1) ++ 0x3A :: write body field.2 := by
  induction fields with
  | nil => rfl
  | cons field fields ih => rw [writeFields, ih, map_cons]

end

/-- `JSON.stringify` -/
def stringify (value : JsonValue) : Text := write jsonBody value

/-! ## Reading -/

def readKeyword (text : Text) : Option (JsonValue × Text) :=
  if ofString "null" <+: text then some (.null, text.drop 4)
  else if ofString "true" <+: text then some (.bool true, text.drop 4)
  else if ofString "false" <+: text then some (.bool false, text.drop 5)
  else none

def readNumber (text : Text) : Option (JsonValue × Text) :=
  if h : text.takeWhile numberUnit = [] then none
  else
    some (.number ⟨text.takeWhile numberUnit, h, all_eq_true.mp all_takeWhile⟩,
      text.dropWhile numberUnit)

/-- No elements where the closing unit stands at once. -/
def readUpTo {α : Type} (close : UInt16) (read : Text → Option (List α × Text)) :
    Text → Option (List α × Text)
  | [] => none
  | unit :: rest => if unit = close then some ([], rest) else read (unit :: rest)

mutual

/-- A value at the head of a text without white space, its fields as they stand there. -/
def readValue : Nat → Text → Option (JsonValue × Text)
  | 0, _ => none
  | _ + 1, [] => none
  | fuel + 1, unit :: rest =>
    if unit = 0x22 then (readBody fuel rest).map fun (text, rest) => (.string text, rest)
    else if unit = 0x5B then
      (readUpTo 0x5D (readEntries fuel) rest).map fun (entries, rest) => (.array entries, rest)
    else if unit = 0x7B then
      (readUpTo 0x7D (readFields fuel) rest).map fun (fields, rest) => (.object fields, rest)
    else if numberUnit unit then readNumber (unit :: rest)
    else readKeyword (unit :: rest)

def readEntries : Nat → Text → Option (List JsonValue × Text)
  | 0, _ => none
  | fuel + 1, text =>
    (readValue fuel text).bind fun
      | (_, []) => none
      | (entry, unit :: rest) =>
        if unit = 0x5D then some ([entry], rest)
        else if unit = 0x2C then
          (readEntries fuel rest).map fun (entries, rest) => (entry :: entries, rest)
        else none

def readFields : Nat → Text → Option (List (Text × JsonValue) × Text)
  | 0, _ => none
  | _ + 1, [] => none
  | fuel + 1, unit :: rest =>
    if unit = 0x22 then
      (readBody fuel rest).bind fun
        | (_, []) => none
        | (key, unit :: rest) =>
          if unit = 0x3A then
            (readValue fuel rest).bind fun
              | (_, []) => none
              | (value, unit :: rest) =>
                if unit = 0x7D then some ([(key, value)], rest)
                else if unit = 0x2C then
                  (readFields fuel rest).map fun (fields, rest) =>
                    ((key, value) :: fields, rest)
                else none
          else none
    else none

end

/-! ## Values made of others -/

section

variable (f : Text → Text) (g : List (Text × JsonValue) → List (Text × JsonValue))

mutual

/-- A value with its strings and keys replaced, and then each object's fields. -/
def rebuild : JsonValue → JsonValue
  | .null => .null
  | .bool value => .bool value
  | .number value => .number value
  | .string text => .string (f text)
  | .array entries => .array (rebuildEntries entries)
  | .object fields => .object (g (rebuildFields fields))

def rebuildEntries : List JsonValue → List JsonValue
  | [] => []
  | entry :: entries => rebuild entry :: rebuildEntries entries

def rebuildFields : List (Text × JsonValue) → List (Text × JsonValue)
  | [] => []
  | (key, value) :: fields => (f key, rebuild value) :: rebuildFields fields

end

theorem rebuildEntries_eq (entries : List JsonValue) :
    rebuildEntries f g entries = entries.map (rebuild f g) := by
  induction entries with
  | nil => rfl
  | cons entry entries ih => rw [rebuildEntries, ih, map_cons]

theorem rebuildFields_eq (fields : List (Text × JsonValue)) : rebuildFields f g fields =
    fields.map fun field => (f field.1, rebuild f g field.2) := by
  induction fields with
  | nil => rfl
  | cons field fields ih => rw [rebuildFields, ih, map_cons]

end

/-! ## What is written is read -/

/-- What follows a value does not go on with a number. -/
def Ends (rest : Text) : Prop := ∀ unit ∈ rest.head?, numberUnit unit = false

theorem ends_nil : Ends [] := nofun

theorem ends_cons {unit : UInt16} {rest : Text} (h : numberUnit unit = false) :
    Ends (unit :: rest) := by
  rintro _ ⟨rfl⟩
  exact h

/-- A value is read at the head of any text, where there is fuel for its length. -/
def Reads (body : Text → Text) (value read : JsonValue) : Prop :=
  ∀ fuel rest, 2 * (write body value).length ≤ fuel → Ends rest →
    readValue fuel (write body value ++ rest) = some (read, rest)

variable {body f : Text → Text} {read : JsonValue → JsonValue} {fields : List (Text × JsonValue)}
  {entries : List JsonValue} {fuel : Nat}

/-- A value's text is not the end of an array. -/
theorem write_opens (body : Text → Text) (value : JsonValue) :
    ∃ unit units, write body value = unit :: units ∧ unit ≠ 0x5D := by
  cases value with
  | null => exact ⟨0x6E, _, rfl, by decide⟩
  | bool value => cases value <;> exact ⟨_, _, rfl, by decide⟩
  | number value =>
    obtain ⟨unit, units, htext⟩ := exists_cons_of_ne_nil value.nonempty
    refine ⟨unit, units, htext, ?_⟩
    rintro rfl
    have hunit := value.units 0x5D (htext ▸ mem_cons_self)
    revert hunit
    decide
  | string text => exact ⟨0x22, _, rfl, by decide⟩
  | array entries => exact ⟨0x5B, _, rfl, by decide⟩
  | object fields => exact ⟨0x7B, _, rfl, by decide⟩

theorem exists_fuel {value : JsonValue} (h : 2 * (write body value).length ≤ fuel) :
    ∃ rest, fuel = rest + 1 := by
  obtain ⟨unit, units, hopens, -⟩ := write_opens body value
  rw [hopens, length_cons] at h
  exact Nat.exists_eq_add_one_of_ne_zero (by omega)

theorem reads_number (value : JsonNumber) : Reads body (.number value) (.number value) := by
  intro fuel rest hfuel hrest
  obtain ⟨text, hne, hunits⟩ := value
  have htake : (text ++ rest).takeWhile numberUnit = text := by
    rw [takeWhile_append_of_pos hunits]
    cases rest with
    | nil => exact append_nil text
    | cons unit rest =>
      rw [takeWhile_cons, hrest unit rfl, if_neg Bool.false_ne_true, append_nil]
  have hdrop : (text ++ rest).dropWhile numberUnit = rest := by
    rw [dropWhile_append_of_pos hunits]
    cases rest with
    | nil => rfl
    | cons unit rest => rw [dropWhile_cons, hrest unit rfl, if_neg Bool.false_ne_true]
  have hread : readNumber (text ++ rest) = some (.number ⟨text, hne, hunits⟩, rest) := by
    simp only [readNumber, htake, hdrop]
    rw [dif_neg hne]
  obtain ⟨unit, units, rfl⟩ := exists_cons_of_ne_nil hne
  obtain ⟨fuel, rfl⟩ := exists_fuel hfuel
  have hunit : numberUnit unit = true := hunits unit mem_cons_self
  have hother : ∀ {other : UInt16}, numberUnit other = false → unit ≠ other := by
    rintro other h rfl
    rw [h] at hunit
    cases hunit
  show readValue (fuel + 1) (unit :: (units ++ rest)) = _
  rw [readValue, if_neg (hother (by decide)), if_neg (hother (by decide)),
    if_neg (hother (by decide)), if_pos hunit]
  exact hread

theorem reads_string {text read : Text} (h : Text.Coded read (body text)) :
    Reads body (.string text) (.string read) := by
  intro fuel rest hfuel _
  have hlength := Text.Coded.length_le h
  obtain ⟨fuel, rfl⟩ := exists_fuel hfuel
  simp only [write, quoted, length_cons, length_append] at hfuel
  have hread := h.readBody (show _ < fuel by omega) rest
  rw [write, quoted, cons_append, cons_append, append_assoc, readValue, if_pos rfl]
  simp only [cons_append, nil_append]
  rw [hread, map_some]

/-- The entries of an array that has some, up to the end of the array. -/
theorem reads_entries (hne : entries ≠ [])
    (h : ∀ entry ∈ entries, Reads body entry (read entry)) (rest : Text)
    (hfuel : 2 * (commas (entries.map (write body))).length + 1 ≤ fuel) :
    readEntries fuel (commas (entries.map (write body)) ++ 0x5D :: rest) =
      some (entries.map read, rest) := by
  induction entries generalizing fuel with
  | nil => exact absurd rfl hne
  | cons entry entries ih =>
    obtain ⟨fuel, rfl⟩ := Nat.exists_eq_add_one_of_ne_zero (Nat.ne_of_gt (Nat.lt_of_lt_of_le
      (Nat.zero_lt_succ _) hfuel))
    obtain ⟨hentry, hentries⟩ := forall_mem_cons.mp h
    cases entries with
    | nil =>
      simp only [map_cons, map_nil, commas] at hfuel ⊢
      rw [readEntries, hentry fuel _ (by omega) (ends_cons (by decide)), bind_some]
      rfl
    | cons next entries =>
      simp only [map_cons, commas, length_append, length_cons] at hfuel ih ⊢
      rw [append_assoc, readEntries, cons_append,
        hentry fuel _ (by omega) (ends_cons (by decide)), bind_some]
      dsimp only
      rw [if_neg (by decide), if_pos rfl,
        ih (cons_ne_nil _ _) hentries (show _ ≤ fuel by omega), map_some]

/-- The fields of an object that has some, up to the end of the object. -/
theorem reads_fields (hne : fields ≠ []) (hbody : ∀ text, Text.Coded (f text) (body text))
    (h : ∀ field ∈ fields, Reads body field.2 (read field.2)) (rest : Text)
    (hfuel : 2 * (commas (writeFields body fields)).length + 1 ≤ fuel) :
    readFields fuel (commas (writeFields body fields) ++ 0x7D :: rest) =
      some (fields.map fun field => (f field.1, read field.2), rest) := by
  induction fields generalizing fuel with
  | nil => exact absurd rfl hne
  | cons field fields ih =>
    obtain ⟨fuel, rfl⟩ := Nat.exists_eq_add_one_of_ne_zero (Nat.ne_of_gt (Nat.lt_of_lt_of_le
      (Nat.zero_lt_succ _) hfuel))
    obtain ⟨key, value⟩ := field
    obtain ⟨hvalue, hfields⟩ := forall_mem_cons.mp h
    have hlength := Text.Coded.length_le (hbody key)
    change Reads body value (read value) at hvalue
    -- The key and the colon, whatever follows the value.
    have hkey : ∀ {tail : Text}, 2 * (body key).length < fuel →
        readFields (fuel + 1) (quoted (body key) ++ 0x3A :: tail) =
          (readValue fuel tail).bind fun
            | (_, []) => none
            | (value, unit :: rest) =>
              if unit = 0x7D then some ([(f key, value)], rest)
              else if unit = 0x2C then
                (readFields fuel rest).map fun (fields, rest) =>
                  ((f key, value) :: fields, rest)
              else none := by
      intro tail hkey
      have hread := (hbody key).readBody (show _ < fuel by omega) (0x3A :: tail)
      rw [quoted, cons_append, cons_append, append_assoc, readFields, if_pos rfl,
        cons_append, nil_append, hread, bind_some]
      dsimp only
      rw [if_pos rfl]
    cases fields with
    | nil =>
      simp only [writeFields, commas, quoted, length_append, length_cons] at hfuel
      simp only [writeFields, commas, append_assoc, cons_append]
      rw [hkey (by omega), hvalue fuel _ (by omega) (ends_cons (by decide)), bind_some]
      rfl
    | cons next fields =>
      simp only [writeFields, commas, quoted, length_append, length_cons] at hfuel
      simp only [writeFields, commas, append_assoc, cons_append]
      rw [hkey (by omega), hvalue fuel _ (by omega) (ends_cons (by decide)), bind_some]
      dsimp only
      have hrest := ih (cons_ne_nil _ _) hfields (show _ ≤ fuel by
        simp only [writeFields, quoted]
        omega)
      simp only [writeFields] at hrest
      rw [if_neg (by decide), if_pos rfl, hrest, map_some]
      rfl

theorem commas_cons (text : Text) (texts : List Text) :
    ∃ tail, commas (text :: texts) = text ++ tail := by
  cases texts with
  | nil => exact ⟨[], (append_nil text).symm⟩
  | cons next texts => exact ⟨_, rfl⟩

theorem reads_array (h : ∀ entry ∈ entries, Reads body entry (read entry)) :
    Reads body (.array entries) (.array (entries.map read)) := by
  intro fuel rest hfuel _
  obtain ⟨fuel, rfl⟩ := exists_fuel hfuel
  simp only [write, length_cons, length_append] at hfuel
  rw [write, writeEntries_eq, cons_append, cons_append, append_assoc, readValue,
    if_neg (by decide), if_pos rfl, cons_append, nil_append]
  cases entries with
  | nil => rfl
  | cons entry entries =>
    have hread := reads_entries (cons_ne_nil entry entries) h rest
      (show _ ≤ fuel by rw [← writeEntries_eq]; omega)
    obtain ⟨unit, units, hopens, hne⟩ := write_opens body entry
    obtain ⟨tail, htail⟩ := commas_cons (write body entry) (entries.map (write body))
    rw [map_cons, htail, hopens, cons_append, cons_append] at hread ⊢
    rw [readUpTo, if_neg hne, hread, map_some]

theorem reads_object (hbody : ∀ text, Text.Coded (f text) (body text))
    (h : ∀ field ∈ fields, Reads body field.2 (read field.2)) :
    Reads body (.object fields) (.object (fields.map fun field => (f field.1, read field.2))) := by
  intro fuel rest hfuel _
  obtain ⟨fuel, rfl⟩ := exists_fuel hfuel
  simp only [write, length_cons, length_append] at hfuel
  rw [write, cons_append, cons_append, append_assoc, readValue,
    if_neg (by decide), if_neg (by decide), if_pos rfl, cons_append, nil_append]
  cases fields with
  | nil => rfl
  | cons field fields =>
    obtain ⟨key, value⟩ := field
    have hread := reads_fields (cons_ne_nil (key, value) fields) hbody h rest
      (show _ ≤ fuel by omega)
    obtain ⟨tail, htail⟩ := commas_cons (quoted (body key) ++ 0x3A :: write body value)
      (writeFields body fields)
    rw [writeFields, htail, quoted, cons_append, cons_append, cons_append, cons_append] at hread ⊢
    rw [readUpTo, if_neg (by decide), hread, map_some]

/-- **What is written is read back**, its strings as their own texts are read. -/
theorem reads_write (hbody : ∀ text, Text.Coded (f text) (body text)) (value : JsonValue) :
    Reads body value (rebuild f id value) := by
  induction value with
  | null =>
    intro fuel rest hfuel _
    obtain ⟨fuel, rfl⟩ := exists_fuel hfuel
    rfl
  | bool value =>
    intro fuel rest hfuel _
    obtain ⟨fuel, rfl⟩ := exists_fuel hfuel
    cases value <;> rfl
  | number value => exact reads_number value
  | string text => exact reads_string (hbody text)
  | array entries ih =>
    rw [rebuild, rebuildEntries_eq]
    exact reads_array ih
  | object fields ih =>
    rw [rebuild, rebuildFields_eq]
    exact reads_object hbody ih

/-- Of two fields of one name the later is kept, in the place of the earlier. -/
def setField (fields : List (Text × JsonValue)) (field : Text × JsonValue) :
    List (Text × JsonValue) :=
  if fields.any fun other => other.1 = field.1 then
    fields.map fun other => if other.1 = field.1 then field else other
  else fields ++ [field]

def lastFields (fields : List (Text × JsonValue)) : List (Text × JsonValue) :=
  fields.foldl setField []

/-- `JSON.parse`, of a text without white space. -/
def parse (text : Text) : Option JsonValue :=
  match readValue (2 * text.length) text with
  | some (value, []) => some (rebuild id lastFields value)
  | _ => none

theorem rebuild_rebuild (g : List (Text × JsonValue) → List (Text × JsonValue))
    (value : JsonValue) : rebuild id g (rebuild f id value) = rebuild f g value := by
  induction value with
  | null | bool _ | number _ | string _ => rfl
  | array entries ih =>
    simp only [rebuild, rebuildEntries_eq, List.map_map]
    exact congrArg JsonValue.array (map_congr_left ih)
  | object fields ih =>
    simp only [rebuild, rebuildFields_eq, List.map_map, id]
    refine congrArg (JsonValue.object ∘ g) (map_congr_left fun field hfield => ?_)
    exact congrArg (Prod.mk (f field.1)) (ih field hfield)

theorem parse_write (hbody : ∀ text, Text.Coded (f text) (body text)) (value : JsonValue) :
    parse (write body value) = some (rebuild f lastFields value) := by
  have hread := reads_write hbody value _ [] (Nat.le_refl _) ends_nil
  rw [append_nil] at hread
  rw [parse, hread]
  exact congrArg some (rebuild_rebuild lastFields value)

/-- The text tells values apart whose strings are read as they are. -/
theorem write_inj (hbody : ∀ text, Text.Coded (f text) (body text)) {a b : JsonValue}
    (ha : rebuild f id a = a) (hb : rebuild f id b = b) (h : write body a = write body b) :
    a = b := by
  have hread := reads_write hbody a _ [] (Nat.le_refl _) ends_nil
  have hread' := reads_write hbody b _ [] (Nat.le_refl _) ends_nil
  rw [ha, h, hread', hb] at hread
  exact (Prod.mk.inj (some.inj hread)).1.symm

theorem rebuild_id (value : JsonValue) : rebuild id id value = value := by
  induction value with
  | null | bool _ | number _ | string _ => rfl
  | array entries ih => rw [rebuild, rebuildEntries_eq, map_congr_left ih, List.map_id']
  | object fields ih =>
    rw [rebuild, rebuildFields_eq]
    refine congrArg JsonValue.object ((map_congr_left fun field hfield => ?_).trans (map_id fields))
    exact congrArg (Prod.mk field.1) (ih field hfield)

theorem stringify_inj {a b : JsonValue} (h : a.stringify = b.stringify) : a = b :=
  write_inj coded_jsonBody (rebuild_id a) (rebuild_id b) h

end JsonValue

end Catamorphic
