import Catamorphic.Lib.JsonEqual

/-!
# Trigger filters

A filter mirrors the payload. A leaf is a primitive, a list of primitives or an operator; any other
object descends. Keys under `headers` match whatever their case.
-/

namespace Catamorphic.Triggers

open List Bool Text

/-! ## The filter language -/

def EXISTS : Text := ofString "$exists"
def PREFIX : Text := ofString "$prefix"
def HEADERS : Text := ofString "headers"

abbrev Fields := List (Text × JsonValue)

inductive Operator
  /-- `{ $exists: boolean }` -/
  | presence (present : Bool)
  /-- `{ $prefix: string }` -/
  | start (text : Text)

def isPrimitive : JsonValue → Bool
  | .array _ => false
  | .object _ => false
  | _ => true

def isOperatorKey (key : Text) : Bool := (ofString "$").isPrefixOf key

/-- The operator the fields state, when they are a well-formed operator object. -/
def operatorOf : Fields → Option Operator
  | [(key, .bool present)] => if key = EXISTS then some (.presence present) else none
  | [(key, .string text)] => if key = PREFIX then some (.start text) else none
  | _ => none

/-! ## Checking -/

/-- Why the fields, one of which is an operator's, are no filter. -/
def operatorErrors (fields : Fields) (path : Text) : List Text :=
  match operatorOf fields with
  | some (.presence _) => []
  | some (.start text) =>
    if text = [] then
      [path ++ ofString ".$prefix must not be empty; leave the position out instead"]
    else []
  | none =>
    match fields.find? fun field =>
      isOperatorKey field.1 && field.1 ≠ EXISTS && field.1 ≠ PREFIX with
    | some unknown => [path ++ ofString "." ++ unknown.1 ++
        ofString " is not an operator; use $exists or $prefix"]
    | none =>
      if fields.length > 1 then
        [path ++ ofString " must hold one operator alone, without other keys"]
      else if (fields.head?.map Prod.fst) = some EXISTS then
        [path ++ ofString ".$exists must be true or false"]
      else [path ++ ofString ".$prefix must be a string"]

mutual

/-- Why a value is not a valid filter; empty when it is. -/
def whereErrors : JsonValue → Text → List Text
  | .array options, path =>
    if options.all isPrimitive then []
    else [path ++ ofString
      " lists values to match; each must be a string, number, boolean or null"]
  | .object fields, path =>
    if fields.any fun field => isOperatorKey field.1 then operatorErrors fields path
    else fieldErrors fields path
  | _, _ => []

def fieldErrors : Fields → Text → List Text
  | [], _ => []
  | (key, child) :: fields, path =>
    whereErrors child (path ++ ofString "." ++ key) ++ fieldErrors fields path

end

/-! ## Matching -/

/-- `value === option`, which no two lists or objects are. -/
def same : Option JsonValue → JsonValue → Bool
  | some .null, .null => true
  | some (.bool value), .bool option => value = option
  | some (.number value), .number option => value = option
  | some (.string value), .string option => value = option
  | _, _ => false

def Operator.admits : Operator → Option JsonValue → Bool
  | .presence present, none => !present
  | .presence present, some .null => !present
  | .presence present, some _ => present
  | .start text, some (.string value) => text.isPrefixOf value
  | .start _, _ => false

section

variable (toLowerCase : Text → Text)

def lookup (object : Fields) (key : Text) (caseInsensitive : Bool) : Option JsonValue :=
  match object.find? fun field => field.1 = key with
  | some own => some own.2
  | none =>
    if caseInsensitive then
      (object.find? fun field => toLowerCase field.1 = toLowerCase key).map Prod.snd
    else none

mutual

/-- `matches` -/
def matchesAt : JsonValue → Option JsonValue → Bool → Bool
  | .array options, value, _ => options.any fun option => same value option
  | .object fields, value, headers =>
    if fields.any fun field => isOperatorKey field.1 then
      -- a malformed operator never matches
      (operatorOf fields).any fun operator => operator.admits value
    else match value with
      | some (.object object) => matchesFields fields object headers
      | _ => false
  | filter, value, _ => same value filter

def matchesFields : Fields → Fields → Bool → Bool
  | [], _, _ => true
  | (key, child) :: fields, object, headers =>
    matchesAt child (lookup toLowerCase object key headers) (toLowerCase key = HEADERS) &&
      matchesFields fields object headers

end

/-- Whether a value satisfies a filter. -/
def matchesWhere (filter value : JsonValue) : Bool :=
  matchesAt toLowerCase filter (some value) false

/-! ## What a filter says -/

/-- The value at a path, the keys directly below `headers` in any case. -/
def valueAt : Option JsonValue → List Text → Bool → Option JsonValue
  | value, [], _ => value
  | some (.object object), key :: path, headers =>
    valueAt (lookup toLowerCase object key headers) path (toLowerCase key = HEADERS)
  | _, _ :: _, _ => none

end

inductive Leaf
  | primitive (value : JsonValue)
  | list (options : List JsonValue)
  | stated (operator : Operator)

/-- The leaf holds of a value, or of none. -/
def Leaf.Holds (value : Option JsonValue) : Leaf → Prop
  | .primitive wanted => same value wanted = true
  | .list options => ∃ option ∈ options, same value option = true
  | .stated operator => operator.admits value = true

mutual

/-- The filter's leaves, by their paths. -/
def leaves : JsonValue → List (List Text × Leaf)
  | .array options => [([], .list options)]
  | .object fields =>
    if fields.any fun field => isOperatorKey field.1 then
      (operatorOf fields).toList.map fun operator => ([], .stated operator)
    else fieldLeaves fields
  | value => [([], .primitive value)]

def fieldLeaves : Fields → List (List Text × Leaf)
  | [] => []
  | (key, child) :: fields =>
    (leaves child).map (fun leaf => (key :: leaf.1, leaf.2)) ++ fieldLeaves fields

end

mutual

/-- The paths of the filter's inner nodes. -/
def innerNodes : JsonValue → List (List Text)
  | .object fields =>
    if fields.any fun field => isOperatorKey field.1 then [] else [] :: fieldNodes fields
  | _ => []

def fieldNodes : Fields → List (List Text)
  | [] => []
  | (key, child) :: fields => (innerNodes child).map (key :: ·) ++ fieldNodes fields

end

def IsObject (value : Option JsonValue) : Prop := ∃ fields, value = some (.object fields)

/-- **What a filter says of a value**: its leaves hold there, and its inner nodes meet objects. -/
structure Says (toLowerCase : Text → Text) (filter : JsonValue) (value : Option JsonValue)
    (headers : Bool) : Prop where
  leaves : ∀ leaf ∈ leaves filter, leaf.2.Holds (valueAt toLowerCase value leaf.1 headers)
  inner : ∀ path ∈ innerNodes filter, IsObject (valueAt toLowerCase value path headers)

/-- Keys are added to a filter, at any depth. An operator alone in an object that was empty makes a
leaf of an inner node, and adds no key to it. -/
inductive Extends : JsonValue → JsonValue → Prop
  | refl (filter : JsonValue) : Extends filter filter
  | add {before after : Fields} {key : Text} {child : JsonValue} :
      (isOperatorKey key = true → before ++ after ≠ []) →
      Extends (.object (before ++ after)) (.object (before ++ (key, child) :: after))
  | inside {before after : Fields} {key : Text} {child child' : JsonValue} :
      Extends child child' →
      Extends (.object (before ++ (key, child) :: after))
        (.object (before ++ (key, child') :: after))
  | trans {filter middle wider : JsonValue} :
      Extends filter middle → Extends middle wider → Extends filter wider

/-- **Checker and evaluator agree on a filter**: one that is accepted matches what it says, one that
is refused matches nothing, and more keys match no more. -/
structure Agrees (toLowerCase : Text → Text) (filter : JsonValue) : Prop where
  accepted : whereErrors filter (ofString "where") = [] → ∀ payload,
    matchesWhere toLowerCase filter payload = true ↔ Says toLowerCase filter (some payload) false
  refused : whereErrors filter (ofString "where") ≠ [] → ∀ payload,
    matchesWhere toLowerCase filter payload = false
  narrowed : ∀ wider, Extends filter wider → ∀ payload,
    matchesWhere toLowerCase wider payload = true → matchesWhere toLowerCase filter payload = true

mutual

/-- Some value matches: no operator in the filter is malformed, and every list has a primitive. -/
def satisfiable : JsonValue → Bool
  | .array options => options.any isPrimitive
  | .object fields =>
    if fields.any fun field => isOperatorKey field.1 then (operatorOf fields).isSome
    else fieldsSatisfiable fields
  | _ => true

def fieldsSatisfiable : Fields → Bool
  | [] => true
  | (_, child) :: fields => satisfiable child && fieldsSatisfiable fields

end

variable {at_ : Text}

/-! ## Fields one by one -/

section

variable {fields : Fields} {path : List Text} {headers : Bool}

theorem fieldErrors_eq_nil : fieldErrors fields at_ = [] ↔
    ∀ field ∈ fields, whereErrors field.2 (at_ ++ ofString "." ++ field.1) = [] := by
  induction fields with
  | nil => exact iff_of_true rfl fun field h => absurd h not_mem_nil
  | cons field fields ih =>
    rw [fieldErrors, append_eq_nil_iff, ih, forall_mem_cons]

theorem matchesFields_iff {toLowerCase : Text → Text} {object : Fields} :
    matchesFields toLowerCase fields object headers = true ↔ ∀ field ∈ fields,
      matchesAt toLowerCase field.2 (lookup toLowerCase object field.1 headers)
        (toLowerCase field.1 = HEADERS) = true := by
  induction fields with
  | nil => exact iff_of_true rfl fun field h => absurd h not_mem_nil
  | cons field fields ih => rw [matchesFields, and_eq_true, ih, forall_mem_cons]

theorem mem_fieldLeaves {leaf : List Text × Leaf} : leaf ∈ fieldLeaves fields ↔
    ∃ field ∈ fields, ∃ inner ∈ leaves field.2, leaf = (field.1 :: inner.1, inner.2) := by
  induction fields with
  | nil => exact iff_of_false not_mem_nil fun ⟨_, h, _⟩ => absurd h not_mem_nil
  | cons field fields ih =>
    rw [fieldLeaves, mem_append, ih, mem_map, exists_mem_cons_iff]
    exact or_congr_left (exists_congr fun inner => and_congr_right fun _ => eq_comm)

theorem mem_fieldNodes : path ∈ fieldNodes fields ↔
    ∃ field ∈ fields, ∃ inner ∈ innerNodes field.2, path = field.1 :: inner := by
  induction fields with
  | nil => exact iff_of_false not_mem_nil fun ⟨_, h, _⟩ => absurd h not_mem_nil
  | cons field fields ih =>
    rw [fieldNodes, mem_append, ih, mem_map, exists_mem_cons_iff]
    exact or_congr_left (exists_congr fun inner => and_congr_right fun _ => eq_comm)

theorem fieldsSatisfiable_iff :
    fieldsSatisfiable fields = true ↔ ∀ field ∈ fields, satisfiable field.2 = true := by
  induction fields with
  | nil => exact iff_of_true rfl fun field h => absurd h not_mem_nil
  | cons field fields ih => rw [fieldsSatisfiable, and_eq_true, ih, forall_mem_cons]

end

variable {filter : JsonValue}

/-! ## What is accepted -/

section

variable {toLowerCase : Text → Text} {fields : Fields} {value : Option JsonValue} {headers : Bool}

/-- An accepted operator object states an operator. -/
theorem operatorOf_of_accepted (h : operatorErrors fields at_ = []) :
    ∃ operator, operatorOf fields = some operator := by
  rw [operatorErrors] at h
  rcases hoperator : operatorOf fields with _ | operator
  · rw [hoperator] at h
    dsimp only at h
    split at h
    · cases h
    · split at h
      · cases h
      · split at h <;> cases h
  · exact ⟨operator, rfl⟩

theorem says_object (h : (fields.any fun field => isOperatorKey field.1) = false) :
    Says toLowerCase (.object fields) value headers ↔
      ∃ object, value = some (.object object) ∧ ∀ field ∈ fields, Says toLowerCase field.2
        (lookup toLowerCase object field.1 headers)
        (toLowerCase field.1 = HEADERS) := by
  have hleaves : leaves (.object fields) = fieldLeaves fields := by
    rw [leaves, h, if_neg Bool.false_ne_true]
  have hnodes : innerNodes (.object fields) = [] :: fieldNodes fields := by
    rw [innerNodes, h, if_neg Bool.false_ne_true]
  constructor
  · intro hsays
    obtain ⟨object, rfl⟩ : IsObject value := by
      have hroot := hsays.inner [] (by rw [hnodes]; exact .head _)
      rwa [valueAt] at hroot
    refine ⟨object, rfl, fun field hfield => ⟨fun leaf hleaf => ?_, fun path hpath => ?_⟩⟩
    · exact hsays.leaves (field.1 :: leaf.1, leaf.2)
        (hleaves ▸ mem_fieldLeaves.mpr ⟨field, hfield, leaf, hleaf, rfl⟩)
    · exact hsays.inner (field.1 :: path)
        (hnodes ▸ .tail _ (mem_fieldNodes.mpr ⟨field, hfield, path, hpath, rfl⟩))
  · rintro ⟨object, rfl, hfields⟩
    constructor
    · rw [hleaves]
      intro leaf hleaf
      obtain ⟨field, hfield, inner, hinner, rfl⟩ := mem_fieldLeaves.mp hleaf
      exact (hfields field hfield).leaves inner hinner
    · rw [hnodes]
      rintro path (_ | ⟨_, hpath⟩)
      · exact ⟨object, rfl⟩
      · obtain ⟨field, hfield, inner, hinner, rfl⟩ := mem_fieldNodes.mp hpath
        exact (hfields field hfield).inner inner hinner

theorem says_leaf (leaf : Leaf) (hleaves : leaves filter = [([], leaf)])
    (hnodes : innerNodes filter = []) :
    Says toLowerCase filter value headers ↔ leaf.Holds value := by
  constructor
  · intro hsays
    have hleaf := hsays.leaves ([], leaf) (by rw [hleaves]; exact .head _)
    rwa [valueAt] at hleaf
  · intro hholds
    constructor
    · rw [hleaves]
      intro found hfound
      obtain rfl := mem_singleton.mp hfound
      rwa [valueAt]
    · rw [hnodes]
      exact fun path h => absurd h not_mem_nil

/-- **An accepted filter matches what it says.** -/
theorem matchesAt_iff_says (h : whereErrors filter at_ = []) :
    matchesAt toLowerCase filter value headers = true ↔ Says toLowerCase filter value headers := by
  induction filter generalizing at_ value headers with
  | null => rw [says_leaf (.primitive .null) rfl rfl]; rfl
  | bool b => rw [says_leaf (.primitive (.bool b)) rfl rfl]; rfl
  | number n => rw [says_leaf (.primitive (.number n)) rfl rfl]; rfl
  | string s => rw [says_leaf (.primitive (.string s)) rfl rfl]; rfl
  | array options =>
    rw [says_leaf (.list options) rfl rfl, matchesAt, any_eq_true]
    rfl
  | object fields ih =>
    rw [whereErrors] at h
    rw [matchesAt.eq_def]
    dsimp only
    rcases hany : fields.any fun field => isOperatorKey field.1 with _ | _
    · rw [hany, if_neg Bool.false_ne_true, fieldErrors_eq_nil] at h
      rw [if_neg Bool.false_ne_true, says_object hany]
      rcases value with _ | ⟨_ | _ | _ | _ | _ | object⟩
      case some.object =>
        rw [matchesFields_iff]
        constructor
        · exact fun hfields => ⟨object, rfl, fun field hfield =>
            (ih field hfield (h field hfield)).mp (hfields field hfield)⟩
        · rintro ⟨_, heq, hfields⟩ field hfield
          obtain rfl := JsonValue.object.inj (Option.some.inj heq)
          exact (ih field hfield (h field hfield)).mpr (hfields field hfield)
      all_goals exact iff_of_false Bool.false_ne_true fun ⟨_, heq, _⟩ => by cases heq
    · rw [hany, if_pos rfl] at h
      obtain ⟨operator, hoperator⟩ := operatorOf_of_accepted h
      have hleaves : leaves (.object fields) = [([], .stated operator)] := by
        rw [leaves, hany, if_pos rfl, hoperator]
        rfl
      have hnodes : innerNodes (.object fields) = [] := by
        rw [innerNodes, hany, if_pos rfl]
      rw [if_pos rfl, says_leaf _ hleaves hnodes, hoperator]
      rfl

end

/-! ## What can match -/

section

variable {toLowerCase : Text → Text} {fields : Fields} {value : Option JsonValue} {headers : Bool}

theorem isPrimitive_of_same {option : JsonValue} (h : same value option = true) :
    isPrimitive option = true := by
  cases option with
  | array _ | object _ => rcases value with _ | ⟨_ | _ | _ | _ | _ | _⟩ <;> cases h
  | _ => rfl

theorem same_self (option : JsonValue) (h : isPrimitive option = true) :
    same (some option) option = true := by
  cases option with
  | array _ => cases h
  | object _ => cases h
  | null => rfl
  | _ => exact decide_eq_true rfl

theorem satisfiable_of_matches (h : matchesAt toLowerCase filter value headers = true) :
    satisfiable filter = true := by
  induction filter generalizing value headers with
  | array options =>
    rw [matchesAt, any_eq_true] at h
    obtain ⟨option, hoption, hsame⟩ := h
    rw [satisfiable, any_eq_true]
    exact ⟨option, hoption, isPrimitive_of_same hsame⟩
  | object fields ih =>
    rw [matchesAt.eq_def] at h
    dsimp only at h
    rw [satisfiable]
    split at h
    · next hany =>
      rw [if_pos hany]
      rcases hoperator : operatorOf fields with _ | operator
      · rw [hoperator] at h
        cases h
      · rfl
    · next hany =>
      rw [if_neg hany]
      rcases value with _ | ⟨_ | _ | _ | _ | _ | object⟩
      case some.object =>
        rw [fieldsSatisfiable_iff]
        exact fun field hfield => ih field hfield (matchesFields_iff.mp h field hfield)
      all_goals cases h
  | _ => rfl

mutual

/-- A value that a filter matches, if any does. -/
def sample : JsonValue → JsonValue
  | .array options => (options.find? isPrimitive).getD .null
  | .object fields =>
    match operatorOf fields with
    | some (.presence present) => if present then .bool true else .null
    | some (.start text) => .string text
    | none => .object (sampleFields fields)
  | value => value

def sampleFields : Fields → Fields
  | [] => []
  | (key, child) :: fields => (key, sample child) :: sampleFields fields

end

theorem lookup_sampleFields (hkeys : (fields.map Prod.fst).Nodup) {field : Text × JsonValue}
    (hfield : field ∈ fields) :
    lookup toLowerCase (sampleFields fields) field.1 headers = some (sample field.2) := by
  have hfound : ((sampleFields fields).find? fun other => other.1 = field.1) =
      some (field.1, sample field.2) := by
    induction fields with
    | nil => cases hfield
    | cons first fields ih =>
      obtain ⟨hfirst, hrest⟩ := nodup_cons.mp hkeys
      rw [sampleFields]
      rcases mem_cons.mp hfield with rfl | hfield
      · exact List.find?_cons_of_pos (decide_eq_true rfl)
      · have hne : first.1 ≠ field.1 := fun heq =>
          hfirst (heq ▸ mem_map_of_mem hfield)
        rw [List.find?_cons_of_neg (by simpa using hne)]
        exact ih hrest hfield
  rw [lookup, hfound]

theorem operator_of_any (h : (fields.any fun field => isOperatorKey field.1) = false) :
    operatorOf fields = none := by
  rcases hoperator : operatorOf fields with _ | operator
  · rfl
  · rw [operatorOf.eq_def] at hoperator
    split at hoperator
    · split at hoperator
      · next hkey =>
        rw [hkey, any_cons, show isOperatorKey EXISTS = true by decide] at h
        cases h
      · cases hoperator
    · split at hoperator
      · next hkey =>
        rw [hkey, any_cons, show isOperatorKey PREFIX = true by decide] at h
        cases h
      · cases hoperator
    · cases hoperator

theorem admits_sample (operator : Operator) (h : operatorOf fields = some operator) :
    operator.admits (some (sample (.object fields))) = true := by
  rw [sample, h]
  cases operator with
  | presence present => cases present <;> rfl
  | start text => exact isPrefixOf_iff_prefix.mpr (prefix_refl text)

/-- **A filter without such a fault is matched by some value.** -/
theorem matches_sample {filter : JsonValue} (hkeys : filter.All JsonValue.Distinct)
    (h : satisfiable filter = true) :
    matchesAt toLowerCase filter (some (sample filter)) headers = true := by
  induction filter generalizing headers with
  | array options =>
    rw [satisfiable, any_eq_true] at h
    rw [matchesAt, any_eq_true, sample]
    obtain ⟨option, hoption⟩ := Option.isSome_iff_exists.mp (List.find?_isSome.mpr h)
    rw [hoption]
    exact ⟨option, mem_of_find?_eq_some hoption, same_self _ (List.find?_some hoption)⟩
  | object fields ih =>
    rw [JsonValue.all_object] at hkeys
    rw [satisfiable] at h
    rw [matchesAt.eq_def]
    dsimp only
    rcases hany : fields.any fun field => isOperatorKey field.1 with _ | _
    · rw [hany, if_neg Bool.false_ne_true, fieldsSatisfiable_iff] at h
      rw [if_neg Bool.false_ne_true, sample, operator_of_any hany]
      refine matchesFields_iff.mpr fun field hfield => ?_
      rw [lookup_sampleFields hkeys.1 hfield]
      exact ih field hfield (hkeys.2 field hfield) (h field hfield)
    · rw [hany, if_pos rfl] at h
      obtain ⟨operator, hoperator⟩ := Option.isSome_iff_exists.mp h
      rw [hoperator]
      exact admits_sample operator hoperator
  | null => exact same_self .null rfl
  | bool b => exact same_self (.bool b) rfl
  | number n => exact same_self (.number n) rfl
  | string s => exact same_self (.string s) rfl

end

variable {key : Text} {child : JsonValue} {fields : Fields}

/-! ## More keys -/

section

variable {toLowerCase : Text → Text} {value : Option JsonValue} {headers : Bool}

theorem any_operator_middle {before after : Fields} :
    ((before ++ (key, child) :: after).any fun field => isOperatorKey field.1) =
      (isOperatorKey key || (before ++ after).any fun field => isOperatorKey field.1) := by
  rw [any_append, any_cons, any_append, Bool.or_left_comm]

/-- Operators stand alone. -/
theorem operatorOf_two {first second : Text × JsonValue} {rest : Fields} :
    operatorOf (first :: second :: rest) = none := by
  obtain ⟨key, child⟩ := first
  cases child <;> rfl

theorem operatorOf_added {before after : Fields} (h : before ++ after ≠ []) :
    operatorOf (before ++ (key, child) :: after) = none := by
  rcases before with _ | ⟨first, _ | ⟨second, before⟩⟩
  · rcases after with _ | ⟨second, after⟩
    · exact absurd rfl h
    · exact operatorOf_two
  · exact operatorOf_two
  · exact operatorOf_two

theorem operatorOf_object : operatorOf [(key, .object fields)] = none := rfl

theorem operatorOf_extended {before after : Fields} {child' : JsonValue} (h : Extends child child')
    (hne : child ≠ child') : operatorOf (before ++ (key, child') :: after) = none := by
  have hobject : ∀ filter wider, Extends filter wider →
      filter = wider ∨ ∃ fields, wider = .object fields := by
    intro filter wider hextends
    induction hextends with
    | refl => exact .inl rfl
    | add => exact .inr ⟨_, rfl⟩
    | inside => exact .inr ⟨_, rfl⟩
    | trans _ _ ih ih' =>
      rcases ih' with rfl | hwider
      · exact ih
      · exact .inr hwider
  obtain ⟨fields, rfl⟩ := (hobject child child' h).resolve_left hne
  rcases before with _ | ⟨first, _ | ⟨second, before⟩⟩
  · rcases after with _ | ⟨second, after⟩
    · exact operatorOf_object
    · exact operatorOf_two
  · exact operatorOf_two
  · exact operatorOf_two

theorem matchesAt_fields (hany : (fields.any fun field => isOperatorKey field.1) = false) :
    matchesAt toLowerCase (.object fields) value headers = true ↔ ∃ object,
      value = some (.object object) ∧ ∀ field ∈ fields, matchesAt toLowerCase field.2
        (lookup toLowerCase object field.1 headers) (toLowerCase field.1 = HEADERS) = true := by
  rw [matchesAt.eq_def]
  dsimp only
  rw [hany, if_neg Bool.false_ne_true]
  rcases value with _ | ⟨_ | _ | _ | _ | _ | object⟩
  case some.object =>
    rw [matchesFields_iff]
    constructor
    · exact fun h => ⟨object, rfl, h⟩
    · rintro ⟨_, heq, h⟩
      obtain rfl := JsonValue.object.inj (Option.some.inj heq)
      exact h
  all_goals exact iff_of_false Bool.false_ne_true fun ⟨_, heq, _⟩ => by cases heq

theorem not_matches_of_malformed (hany : (fields.any fun field => isOperatorKey field.1) = true)
    (hoperator : operatorOf fields = none) :
    matchesAt toLowerCase (.object fields) value headers = false := by
  rw [matchesAt.eq_def]
  dsimp only
  rw [hany, if_pos rfl, hoperator]
  rfl

/-- **More keys match no more.** -/
theorem matches_of_extends {wider : JsonValue} (hextends : Extends filter wider)
    (h : matchesAt toLowerCase wider value headers = true) :
    matchesAt toLowerCase filter value headers = true := by
  induction hextends generalizing value headers with
  | refl => exact h
  | @add before after key child hkey =>
    rcases hmiddle : (before ++ (key, child) :: after).any fun field => isOperatorKey field.1
      with _ | _
    · have hany : ((before ++ after).any fun field => isOperatorKey field.1) = false :=
        (or_eq_false_iff.mp (any_operator_middle.symm.trans hmiddle)).2
      obtain ⟨object, hvalue, hfields⟩ := (matchesAt_fields hmiddle).mp h
      refine (matchesAt_fields hany).mpr ⟨object, hvalue, fun field hfield => ?_⟩
      refine hfields field (mem_append.mpr ?_)
      exact (mem_append.mp hfield).imp_right (mem_cons_of_mem _)
    · -- an operator among other keys matches nothing
      have hrest : before ++ after ≠ [] := by
        rw [any_operator_middle] at hmiddle
        rcases or_eq_true_iff.mp hmiddle with hoperator | hany
        · exact hkey hoperator
        · intro hnil
          rw [hnil] at hany
          cases hany
      rw [not_matches_of_malformed hmiddle (operatorOf_added hrest)] at h
      cases h
  | @inside before after key child child' hchild ih =>
    by_cases hsame : child = child'
    · exact hsame ▸ h
    · rcases hany : (before ++ (key, child) :: after).any fun field => isOperatorKey field.1
        with _ | _
      · have hany' : ((before ++ (key, child') :: after).any fun field =>
            isOperatorKey field.1) = false := by
          rw [any_operator_middle] at hany ⊢
          exact hany
        rw [matchesAt_fields hany'] at h
        obtain ⟨object, hvalue, hfields⟩ := h
        refine (matchesAt_fields hany).mpr ⟨object, hvalue, fun field hfield => ?_⟩
        rcases mem_append.mp hfield with hfield | hfield
        · exact hfields field (mem_append_left _ hfield)
        · rcases mem_cons.mp hfield with rfl | hfield
          · exact ih (hfields (key, child') (mem_append_right _ (.head _)))
          · exact hfields field (mem_append_right _ (.tail _ hfield))
      · have hany' : ((before ++ (key, child') :: after).any fun field =>
            isOperatorKey field.1) = true := by
          rw [any_operator_middle] at hany ⊢
          exact hany
        rw [not_matches_of_malformed hany' (operatorOf_extended hchild hsame)] at h
        cases h
  | trans _ _ ih ih' => exact ih (ih' h)

end

/-! ## Checker and evaluator -/

section

variable {toLowerCase : Text → Text}

theorem sample_of_agrees (hkeys : filter.All JsonValue.Distinct) (h : Agrees toLowerCase filter) :
    whereErrors filter (ofString "where") = [] ∨ satisfiable filter = false := by
  by_contra hnot
  obtain ⟨hrefused, hsatisfiable⟩ := not_or.mp hnot
  have hmatch := @matches_sample toLowerCase false filter hkeys
    ((not_eq_false _).mp hsatisfiable)
  have hfalse := h.refused hrefused (sample filter)
  rw [matchesWhere, hmatch] at hfalse
  cases hfalse

/-- **Checker and evaluator agree exactly** on the filters that are accepted and on those that
nothing can match. -/
theorem agrees_iff (toLowerCase : Text → Text) {filter : JsonValue}
    (hkeys : filter.All JsonValue.Distinct) : Agrees toLowerCase filter ↔
      whereErrors filter (ofString "where") = [] ∨ satisfiable filter = false := by
  constructor
  · exact sample_of_agrees hkeys
  · intro h
    refine ⟨fun haccepted payload => matchesAt_iff_says haccepted, fun hrefused payload => ?_,
      fun wider hextends payload => matches_of_extends hextends⟩
    have hnone := h.resolve_left hrefused
    rcases hmatch : matchesWhere toLowerCase filter payload with _ | _
    · rfl
    · rw [satisfiable_of_matches hmatch] at hnone
      cases hnone

/-- `{ "ref": { "$prefix": "" } }` -/
def emptyPrefix : JsonValue :=
  .object [(ofString "ref", .object [(PREFIX, .string [])])]

theorem agrees_iff_emptyPrefix : Agrees id emptyPrefix ↔
    whereErrors emptyPrefix (ofString "where") = [] ∨ satisfiable emptyPrefix = false :=
  agrees_iff id (by simp [emptyPrefix, JsonValue.All, JsonValue.AllFields, JsonValue.Distinct])

/-- An empty prefix is refused, and matches. -/
theorem not_agrees_emptyPrefix : ¬ Agrees id emptyPrefix := by
  intro h
  have hkeys : emptyPrefix.All JsonValue.Distinct := by
    simp [emptyPrefix, JsonValue.All, JsonValue.AllFields, JsonValue.Distinct]
  rcases sample_of_agrees hkeys h with hnil | hfalse
  · exact absurd hnil (by decide)
  · exact absurd hfalse (by decide)

end

end Catamorphic.Triggers
