import Catamorphic.Db.StorableText
import Catamorphic.Lib.JsonEqual

/-!
# JSON as the database gives it back

`jsonbText` is the text of a value that a `jsonb` column accepts, and `storedJson` is that text
read: the value with its strings and keys as they are stored. Keys that were different may have
become one, and the last of them is kept.
-/

namespace Catamorphic

open List Text

/-- A scalar value in a JSON string, with `UNSTORABLE_ESCAPE` replaced. -/
def jsonbPiece : Text.Scalar → Text
  | .lone _ => ofString "\\ufffd"
  | .value n => if n = 0 then ofString "\\ufffd" else jsonPiece (.value n)

/-- The body of a string: its escapes are those of its scalar values. -/
def jsonbBody (text : Text) : Text := (scalars text).flatMap jsonbPiece

def jsonbText (value : JsonValue) : Text := value.write jsonbBody

/-- None where the text cannot be read. -/
def storedJson (value : JsonValue) : Option JsonValue := JsonValue.parse (jsonbText value)

/-! ## What is read of it -/

theorem codeOf_jsonbPiece (unit : UInt16) :
    Text.CodeOf (if unit = 0 || isHigh unit || isLow unit then 0xFFFD else unit)
      (jsonbPiece (unitScalar unit)) := by
  have hreplaced : Text.CodeOf 0xFFFD (ofString "\\ufffd") := codeOf_hex 0xFFFD
  cases hhalf : isHigh unit || isLow unit with
  | true =>
    rw [unitScalar, if_pos hhalf, if_pos (by rw [Bool.or_assoc, hhalf, Bool.or_true])]
    exact hreplaced
  | false =>
    rw [unitScalar, hhalf, if_neg Bool.false_ne_true, Bool.or_assoc, hhalf, Bool.or_false,
      jsonbPiece]
    by_cases hzero : unit = 0
    · subst hzero
      exact hreplaced
    · have hnumber : unit.toNat ≠ 0 := fun h => hzero (UInt16.toNat_inj.mp h)
      rw [decide_eq_false hzero, if_neg Bool.false_ne_true, if_neg hnumber]
      exact codeOf_value unit

/-- What is read of a string is the string as it is stored. -/
theorem coded_jsonbBody (text : Text) : Text.Coded (storableText text) (jsonbBody text) := by
  rw [jsonbBody]
  fun_induction storableText text with
  | case1 => exact .nil
  | case2 unit => exact .cons (codeOf_jsonbPiece unit) .nil
  | case3 high low rest h ih =>
    obtain ⟨hhigh, hlow⟩ := Bool.and_eq_true_iff.mp h
    rw [scalars, if_pos h, flatMap_cons, jsonbPiece, if_neg (by omega),
      jsonPiece_pair hhigh hlow]
    show Text.Coded (high :: low :: storableText rest)
      ([high] ++ ([low] ++ (scalars rest).flatMap jsonbPiece))
    exact .cons (codeOf_half (.inl hhigh)) (.cons (codeOf_half (.inr hlow)) ih)
  | case4 unit next rest h ih =>
    rw [scalars, if_neg h, flatMap_cons]
    exact .cons (codeOf_jsonbPiece unit) ih

/-- A value as it is stored. -/
def JsonValue.stored (value : JsonValue) : JsonValue :=
  value.rebuild storableText JsonValue.lastFields

/-- **A value is read as it is stored.** -/
theorem storedJson_eq (value : JsonValue) : storedJson value = some value.stored :=
  JsonValue.parse_write coded_jsonbBody value

/-! ## Values as they are stored -/

namespace JsonValue

/-- The strings and keys of a value are as they are stored. -/
def Storable : JsonValue → Prop
  | .string text => storableText text = text
  | .object fields => ∀ field ∈ fields, storableText field.1 = field.1
  | _ => True

theorem stored_storable (value : JsonValue) : value.stored.All Storable := by
  induction value with
  | null | bool _ | number _ => trivial
  | string text => exact storableText_storableText text
  | array entries ih =>
    rw [stored, rebuild, rebuildEntries_eq, all_array]
    refine ⟨trivial, fun entry hentry => ?_⟩
    obtain ⟨entry, hmem, rfl⟩ := mem_map.mp hentry
    exact ih entry hmem
  | object fields ih =>
    rw [stored, rebuild, rebuildFields_eq, all_object]
    refine ⟨fun field hfield => ?_, fun field hfield => ?_⟩
    · obtain ⟨field, -, rfl⟩ := mem_map.mp (mem_lastFields hfield)
      exact storableText_storableText field.1
    · obtain ⟨field, hmem, rfl⟩ := mem_map.mp (mem_lastFields hfield)
      exact ih field hmem

theorem stored_distinct (value : JsonValue) : value.stored.All Distinct :=
  all_distinct_lastFields storableText value

theorem ordered_storable {value : JsonValue} (h : value.All Storable) :
    value.ordered.All Storable := by
  induction value with
  | null | bool _ | number _ | string _ => exact h
  | array entries ih =>
    rw [ordered_array, all_array]
    refine ⟨trivial, fun entry hentry => ?_⟩
    obtain ⟨entry, hmem, rfl⟩ := mem_map.mp hentry
    exact ih entry hmem ((all_array.mp h).2 entry hmem)
  | object fields ih =>
    obtain ⟨hkeys, hvalues⟩ := all_object.mp h
    rw [ordered_object, all_object]
    refine ⟨fun field hfield => ?_, fun field hfield => ?_⟩
    · obtain ⟨field, hmem, rfl⟩ := mem_map.mp ((byKey_perm _).mem_iff.mp hfield)
      exact hkeys field hmem
    · obtain ⟨field, hmem, rfl⟩ := mem_map.mp ((byKey_perm _).mem_iff.mp hfield)
      exact ih field hmem (hvalues field hmem)

/-- A value as it is stored is read as it is. -/
theorem rebuild_of_storable {value : JsonValue} (h : value.All Storable) :
    value.rebuild storableText id = value := by
  induction value with
  | null | bool _ | number _ => rfl
  | string text => exact congrArg JsonValue.string h
  | array entries ih =>
    have hentries := (all_array.mp h).2
    rw [rebuild, rebuildEntries_eq,
      map_congr_left fun entry hentry => ih entry hentry (hentries entry hentry),
      map_id']
  | object fields ih =>
    obtain ⟨hkeys, hvalues⟩ := all_object.mp h
    rw [rebuild, rebuildFields_eq]
    refine congrArg JsonValue.object ((map_congr_left fun field hfield => ?_).trans (map_id fields))
    exact Prod.ext (hkeys field hfield) (ih field hfield (hvalues field hfield))

/-- The text tells values apart that are as they are stored. -/
theorem jsonbText_inj {a b : JsonValue} (ha : a.All Storable) (hb : b.All Storable)
    (h : jsonbText a = jsonbText b) : a = b :=
  write_inj coded_jsonbBody (rebuild_of_storable ha) (rebuild_of_storable hb) h

end JsonValue

end Catamorphic
