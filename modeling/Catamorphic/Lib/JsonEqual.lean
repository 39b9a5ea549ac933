import Mathlib.Data.List.Nodup
import Mathlib.Data.List.Perm.Subperm
import Mathlib.Data.List.Sort
import Catamorphic.Lib.Json

/-!
# Equality of JSON values

Two values are equal as JSON where their objects have the same keys, in whatever order, and equal
values at each key. Sorting every object's fields makes a form that is one exactly for equal
values.
-/

namespace Catamorphic.JsonValue

variable {fields : List (Text × JsonValue)}

section

variable (p : JsonValue → Prop)

mutual

/-- What holds of every value that lies in the value, and of itself. -/
def All : JsonValue → Prop
  | .array entries => p (.array entries) ∧ AllEntries entries
  | .object fields => p (.object fields) ∧ AllFields fields
  | value => p value

def AllEntries : List JsonValue → Prop
  | [] => True
  | entry :: entries => All entry ∧ AllEntries entries

def AllFields : List (Text × JsonValue) → Prop
  | [] => True
  | (_, value) :: fields => All value ∧ AllFields fields

end

theorem allEntries_iff {entries : List JsonValue} :
    AllEntries p entries ↔ ∀ entry ∈ entries, All p entry := by
  induction entries with
  | nil => simp [AllEntries]
  | cons entry entries ih => rw [AllEntries, ih, List.forall_mem_cons]

theorem allFields_iff : AllFields p fields ↔ ∀ field ∈ fields, All p field.2 := by
  induction fields with
  | nil => simp [AllFields]
  | cons field fields ih => rw [AllFields, ih, List.forall_mem_cons]

end

variable {p : JsonValue → Prop}

theorem all_array {entries : List JsonValue} :
    All p (.array entries) ↔ p (.array entries) ∧ ∀ entry ∈ entries, All p entry := by
  rw [All, allEntries_iff]

theorem all_object :
    All p (.object fields) ↔ p (.object fields) ∧ ∀ field ∈ fields, All p field.2 := by
  rw [All, allFields_iff]

/-- An object has each key once. -/
def Distinct : JsonValue → Prop
  | .object fields => (fields.map Prod.fst).Nodup
  | _ => True

theorem keys_setField (h : (fields.map Prod.fst).Nodup) (field : Text × JsonValue) :
    ((setField fields field).map Prod.fst).Nodup := by
  rw [setField]
  split
  · rw [List.map_map]
    have hsame : (fields.map (Prod.fst ∘ fun other => if other.1 = field.1 then field else other)) =
        fields.map Prod.fst := by
      refine List.map_congr_left fun other _ => ?_
      rw [Function.comp_apply]
      split
      · rename_i hkey
        exact hkey.symm
      · rfl
    rwa [hsame]
  · rename_i hnew
    rw [List.map_append, List.nodup_append]
    refine ⟨h, List.nodup_singleton _, ?_⟩
    rintro key hkey _ hsingle rfl
    obtain ⟨other, hother, rfl⟩ := List.mem_map.mp hkey
    refine hnew (List.any_eq_true.mpr ⟨other, hother, ?_⟩)
    simpa using hsingle

variable {other : Text × JsonValue}

theorem mem_setField {field : Text × JsonValue} (h : other ∈ setField fields field) :
    other ∈ fields ∨ other = field := by
  rw [setField] at h
  split at h
  · obtain ⟨old, hold, rfl⟩ := List.mem_map.mp h
    split
    · exact .inr rfl
    · exact .inl hold
  · rcases List.mem_append.mp h with h | h
    · exact .inl h
    · exact .inr (List.mem_singleton.mp h)

theorem keys_lastFields (fields : List (Text × JsonValue)) :
    ((lastFields fields).map Prod.fst).Nodup := by
  have hfold : ∀ (fields kept : List (Text × JsonValue)), (kept.map Prod.fst).Nodup →
      ((fields.foldl setField kept).map Prod.fst).Nodup := by
    intro fields
    induction fields with
    | nil => exact fun _ h => h
    | cons field fields ih => exact fun kept h => ih _ (keys_setField h field)
  exact hfold fields [] List.nodup_nil

theorem mem_lastFields {field : Text × JsonValue} (h : field ∈ lastFields fields) :
    field ∈ fields := by
  have hfold : ∀ (fields kept : List (Text × JsonValue)), field ∈ fields.foldl setField kept →
      field ∈ kept ∨ field ∈ fields := by
    intro fields
    induction fields with
    | nil => exact fun _ => .inl
    | cons next fields ih =>
      intro kept h
      rcases ih _ h with h | h
      · rcases mem_setField h with h | rfl
        · exact .inl h
        · exact .inr List.mem_cons_self
      · exact .inr (List.mem_cons_of_mem _ h)
  exact (hfold fields [] h).resolve_left List.not_mem_nil

/-- A value that was read has each key of an object once. -/
theorem all_distinct_lastFields (f : Text → Text) (value : JsonValue) :
    (value.rebuild f lastFields).All Distinct := by
  induction value with
  | null | bool _ | number _ | string _ => trivial
  | array entries ih =>
    rw [rebuild, rebuildEntries_eq, all_array]
    refine ⟨trivial, fun entry hentry => ?_⟩
    obtain ⟨entry, hmem, rfl⟩ := List.mem_map.mp hentry
    exact ih entry hmem
  | object fields ih =>
    rw [rebuild, rebuildFields_eq, all_object]
    refine ⟨keys_lastFields _, fun field hfield => ?_⟩
    obtain ⟨field, hmem, rfl⟩ := List.mem_map.mp (mem_lastFields hfield)
    exact ih field hmem

mutual

/-- Equality as JSON. -/
def same : JsonValue → JsonValue → Bool
  | .null, .null => true
  | .bool a, .bool b => a = b
  | .number a, .number b => a = b
  | .string a, .string b => a = b
  | .array entries, .array others => sameEntries entries others
  | .object fields, .object others => fields.length = others.length && sameFields fields others
  | _, _ => false

def sameEntries : List JsonValue → List JsonValue → Bool
  | [], [] => true
  | entry :: entries, other :: others => same entry other && sameEntries entries others
  | _, _ => false

/-- Each field has an equal one. -/
def sameFields : List (Text × JsonValue) → List (Text × JsonValue) → Bool
  | [], _ => true
  | (key, value) :: fields, others =>
    (others.any fun other => other.1 = key && same value other.2) && sameFields fields others

end

/-- The order of the keys, unit by unit. -/
def KeyLe {α : Type} (field other : Text × α) : Prop := field.1 ≤ other.1

instance {α : Type} : DecidableRel (KeyLe : Text × α → Text × α → Prop) :=
  fun field other => inferInstanceAs (Decidable (field.1 ≤ other.1))

instance {α : Type} : Std.Total (KeyLe : Text × α → Text × α → Prop) :=
  ⟨fun field other => List.le_total field.1 other.1⟩

instance {α : Type} : IsTrans (Text × α) KeyLe := ⟨fun _ _ _ h h' => List.le_trans h h'⟩

/-- An object's fields in the order of their keys. -/
def byKey (fields : List (Text × JsonValue)) : List (Text × JsonValue) := fields.insertionSort KeyLe

/-- The value with every object's fields in the order of their keys. -/
def ordered (value : JsonValue) : JsonValue := rebuild id byKey value

variable {others : List (Text × JsonValue)}

theorem sameFields_iff : sameFields fields others = true ↔
      ∀ field ∈ fields, ∃ other ∈ others, other.1 = field.1 ∧ same field.2 other.2 = true := by
  induction fields with
  | nil => simp [sameFields]
  | cons field fields ih =>
    rw [sameFields, Bool.and_eq_true, ih, List.forall_mem_cons, List.any_eq_true]
    simp only [Bool.and_eq_true, decide_eq_true_eq]

/-! ## The ordered form -/

theorem byKey_perm (fields : List (Text × JsonValue)) : (byKey fields).Perm fields :=
  List.perm_insertionSort KeyLe fields

theorem byKey_sorted (fields : List (Text × JsonValue)) : (byKey fields).Pairwise KeyLe :=
  List.pairwise_insertionSort KeyLe fields

/-- A key has one field. -/
theorem field_eq (h : (fields.map Prod.fst).Nodup) {field : Text × JsonValue}
    (hfield : field ∈ fields) (hother : other ∈ fields) (hkey : field.1 = other.1) :
    field = other :=
  List.inj_on_of_nodup_map h hfield hother hkey

theorem byKey_eq_of_perm (h : (fields.map Prod.fst).Nodup) (hperm : fields.Perm others) :
    byKey fields = byKey others := by
  refine List.Perm.eq_of_pairwise (fun field other hfield hother hle hge => ?_)
    (byKey_sorted fields) (byKey_sorted others)
    (((byKey_perm fields).trans hperm).trans (byKey_perm others).symm)
  refine field_eq h ((byKey_perm fields).mem_iff.mp hfield) ?_ (List.le_antisymm hle hge)
  exact hperm.mem_iff.mpr ((byKey_perm others).mem_iff.mp hother)

theorem ordered_array (entries : List JsonValue) :
    ordered (.array entries) = .array (entries.map ordered) := by
  rw [ordered, rebuild, rebuildEntries_eq]
  rfl

theorem ordered_object (fields : List (Text × JsonValue)) : ordered (.object fields) =
    .object (byKey (fields.map fun field => (field.1, ordered field.2))) := by
  rw [ordered, rebuild, rebuildFields_eq]
  rfl

/-- The keys are the object's own. -/
theorem keys_map (fields : List (Text × JsonValue)) (f : JsonValue → JsonValue) :
    (fields.map fun field => (field.1, f field.2)).map Prod.fst = fields.map Prod.fst := by
  rw [List.map_map]
  rfl

/-- Objects with the same ordered form. -/
theorem byKey_eq_iff (h : (fields.map Prod.fst).Nodup) (f : JsonValue → JsonValue) :
    byKey (fields.map fun field => (field.1, f field.2)) =
        byKey (others.map fun field => (field.1, f field.2)) ↔
      fields.length = others.length ∧
        ∀ field ∈ fields, ∃ other ∈ others, other.1 = field.1 ∧ f field.2 = f other.2 := by
  constructor
  · intro heq
    have hperm := ((byKey_perm (fields.map fun field => (field.1, f field.2))).symm.trans
      (heq ▸ .refl _)).trans (byKey_perm (others.map fun field => (field.1, f field.2)))
    refine ⟨by simpa using hperm.length_eq, fun field hfield => ?_⟩
    have hmem := hperm.mem_iff.mp (List.mem_map_of_mem hfield)
    obtain ⟨other, hother, hpair⟩ := List.mem_map.mp hmem
    obtain ⟨hkey, hvalue⟩ := Prod.mk.inj hpair
    exact ⟨other, hother, hkey, hvalue.symm⟩
  · rintro ⟨hlength, hfields⟩
    have hkeys := keys_map fields f
    refine byKey_eq_of_perm (hkeys ▸ h) ?_
    have hnodup : (fields.map fun field => (field.1, f field.2)).Nodup :=
      .of_map Prod.fst (hkeys ▸ h)
    refine (List.subperm_of_subset hnodup ?_).perm_of_length_le ?_
    · intro pair hpair
      obtain ⟨field, hfield, rfl⟩ := List.mem_map.mp hpair
      obtain ⟨other, hother, hkey, hvalue⟩ := hfields field hfield
      exact List.mem_map.mpr ⟨other, hother, Prod.ext hkey hvalue.symm⟩
    · rw [List.length_map, List.length_map]
      exact Nat.le_of_eq hlength.symm

theorem map_eq_iff_sameEntries {entries others : List JsonValue}
    (h : ∀ entry ∈ entries, ∀ other ∈ others,
      ordered entry = ordered other ↔ same entry other = true) :
    entries.map ordered = others.map ordered ↔ sameEntries entries others = true := by
  induction entries generalizing others with
  | nil => cases others <;> simp [sameEntries]
  | cons entry entries ih =>
    cases others with
    | nil => simp [sameEntries]
    | cons other others =>
      rw [List.map_cons, List.map_cons, List.cons.injEq, sameEntries, Bool.and_eq_true,
        h entry List.mem_cons_self other List.mem_cons_self,
        ih fun e he o ho => h e (List.mem_cons_of_mem _ he) o (List.mem_cons_of_mem _ ho)]

/-- **Values are equal as JSON exactly when their ordered forms are one.** -/
theorem ordered_eq_iff {a b : JsonValue} (ha : a.All Distinct) (hb : b.All Distinct) :
    ordered a = ordered b ↔ same a b = true := by
  induction a generalizing b with
  | null | bool value | number value | string text => cases b <;> simp [ordered, rebuild, same]
  | array entries ih =>
    cases b with
    | array others =>
      have hentries := (all_array.mp ha).2
      have hothers := (all_array.mp hb).2
      rw [ordered_array, ordered_array, JsonValue.array.injEq, same]
      exact map_eq_iff_sameEntries fun entry hentry other hother =>
        ih entry hentry (hentries entry hentry) (hothers other hother)
    | _ => simp [ordered, rebuild, same]
  | object fields ih =>
    cases b with
    | object others =>
      obtain ⟨hkeys, hfields⟩ := all_object.mp ha
      have hothers := (all_object.mp hb).2
      rw [ordered_object, ordered_object, JsonValue.object.injEq, byKey_eq_iff hkeys, same,
        Bool.and_eq_true, decide_eq_true_eq, sameFields_iff]
      refine and_congr_right fun _ => forall₂_congr fun field hfield => ?_
      refine exists_congr fun other => and_congr_right fun hother => and_congr_right fun _ => ?_
      exact ih field hfield (hfields field hfield) (hothers other hother)
    | _ => simp [ordered, rebuild, same]

theorem same_refl {a : JsonValue} (ha : a.All Distinct) : same a a = true :=
  (ordered_eq_iff ha ha).mp rfl

end Catamorphic.JsonValue
