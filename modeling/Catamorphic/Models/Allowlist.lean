import Catamorphic.Lib.JsonEqual
import Catamorphic.Lib.Maps
import Catamorphic.Lib.RegExp
import Catamorphic.Lib.Utf8Encode
import Catamorphic.Models.Usage

/-!
# The models that a connection serves

A request's models are checked against the connection's patterns before the request goes
upstream: as the host's rewrites leave it or, where none applies, as `JSON.parse` reads the
caller's own bytes. These are then forwarded as they are, and of two members of one name another
reader may keep the one that was not checked.
-/

namespace Catamorphic.ModelGateway

open List Function Text

/-! ## Patterns -/

/-- `part.replace(/[.+?^${}()|[\]\\]/g, "\\$&")` -/
def escapePart (part : Text) : Text := part.flatMap fun unit =>
  if (ofString ".+?^$\x7b\x7d()|[]\\").contains unit then [0x5C, unit] else [unit]

def patternSource (pattern : Text) : Text :=
  0x5E :: (ofString "[^:@]*").intercalate ((pattern.splitOn 0x2A).map escapePart) ++ [0x24]

def modelAllowed (model : Text) : Option (List Text) → Bool
  | none => true
  | some patterns => patterns.any fun pattern =>
    (RegExp.compile (patternSource pattern)).any fun terms => RegExp.test terms model

/-- A pattern stands for a text: its stars for anything without a colon or an at sign, and every
other unit for itself. -/
inductive Stands : Text → Text → Prop
  | nil : Stands [] []
  | unit {unit : UInt16} {pattern text : Text} (plain : unit ≠ 0x2A) :
      Stands pattern text → Stands (unit :: pattern) (unit :: text)
  | star {filling pattern text : Text} (within : ∀ unit ∈ filling, unit ∉ [0x3A, 0x40]) :
      Stands pattern text → Stands (0x2A :: pattern) (filling ++ text)

def termsOf (pattern : Text) : List RegExp.Term :=
  pattern.map fun unit => if unit = 0x2A then .noneOf [0x3A, 0x40] else .unit unit

theorem readTerms_star (rest : Text) : RegExp.readTerms .plain (ofString "[^:@]*" ++ rest) =
      (RegExp.readTerms .plain rest).map (.noneOf [0x3A, 0x40] :: ·) := by
  rfl

theorem compile_patternSource (pattern : Text) :
    RegExp.compile (patternSource pattern) = some (termsOf pattern) := by
  rw [patternSource, show escapePart = flatMap _ from rfl, RegExp.intercalate_splitOn]
  show RegExp.readTerms .plain (_ ++ [0x24]) = _
  induction pattern with
  | nil => rfl
  | cons unit pattern ih =>
    rw [flatMap_cons, append_assoc]
    by_cases hstar : unit = 0x2A
    · rw [if_pos hstar, readTerms_star, ih, termsOf, termsOf, map_cons, if_pos hstar,
        Option.map_some]
    · rw [if_neg hstar, termsOf, map_cons, if_neg hstar]
      have hquoted : RegExp.syntaxUnit unit = true ↔
          (ofString ".+?^$\x7b\x7d()|[]\\").contains unit = true := by
        simp only [RegExp.syntaxUnit]
        simp [ofString]
        tauto
      split
      · next hescape =>
          rw [cons_append, cons_append, nil_append,
            RegExp.readTerms_escaped (hquoted.mpr hescape), ih]
          rfl
      · next hplain =>
          rw [cons_append, nil_append, RegExp.readTerms_plain (fun h => hplain (hquoted.mp h)), ih]
          rfl

theorem test_termsOf {pattern text : Text} :
    RegExp.test (termsOf pattern) text = true ↔ Stands pattern text := by
  induction pattern generalizing text with
  | nil =>
    refine ⟨fun h => ?_, fun h => ?_⟩
    · rw [List.isEmpty_iff.mp h]
      exact .nil
    · cases h
      rfl
  | cons unit pattern ih =>
    rw [termsOf, map_cons, ← termsOf]
    by_cases hstar : unit = 0x2A
    · subst hstar
      rw [if_pos rfl, RegExp.test, RegExp.skipping_iff]
      constructor
      · rintro ⟨filling, text, rfl, hwithin, htest⟩
        exact .star hwithin (ih.mp htest)
      · intro h
        cases h with
        | unit plain _ => exact absurd rfl plain
        | star within h => exact ⟨_, _, rfl, within, ih.mpr h⟩
    · rw [if_neg hstar]
      constructor
      · intro h
        cases text with
        | nil => cases h
        | cons other text =>
          obtain ⟨heq, htest⟩ := Bool.and_eq_true_iff.mp h
          rw [← of_decide_eq_true heq]
          exact .unit hstar (ih.mp htest)
      · intro h
        cases h with
        | unit plain h => exact Bool.and_eq_true_iff.mpr ⟨decide_eq_true rfl, ih.mpr h⟩
        | star within h => exact absurd rfl hstar

theorem modelAllowed_iff {model : Text} {patterns : List Text} :
    modelAllowed model (some patterns) = true ↔ ∃ pattern ∈ patterns, Stands pattern model := by
  simp only [modelAllowed, any_eq_true, compile_patternSource, Option.any_some, test_termsOf]

/-! ## The policy of the gateway -/

structure ModelGatewayError where
  status : Nat
  type : String
  message : Text
  deriving DecidableEq

/-- What the gateway reads from a request body. -/
structure RequestFields where
  model : Option Text := none
  fallbacks : List Text := []
  stream : Option Bool := none
  deriving DecidableEq

/-- A string that is not empty. -/
def named : JsonValue → Option Text
  | .string text => if text = [] then none else some text
  | _ => none

def fieldsOf (parsed : Fields) : RequestFields where
  model := (field parsed "model").bind named
  fallbacks := match field parsed "models" with
    | some (.array entries) => entries.filterMap named
    | _ => []
  stream := match field parsed "stream" with
    | some (.bool value) => some value
    | _ => none

/-- An object of the language: no two members of one name. -/
structure JsonObject where
  fields : Fields
  names : (fields.map Prod.fst).Nodup

/-- `encoder.encode(JSON.stringify(object))` -/
def encodeObject (object : JsonObject) : List UInt8 :=
  (bytes (JsonValue.object object.fields).stringify).map UInt8.ofNat

structure ModelRequestRewrite where
  kinds : Option (List Text)
  rewrite : JsonObject → Except ModelGatewayError JsonObject

/-- A request with what the gateway knows of its connection. -/
structure Call where
  aliasName : Text
  method : String
  path : Text
  /-- The content-encoding header, trimmed and in lower case. -/
  encoding : Text := []
  body : Option (List UInt8)
  paths : Option (List Text) := none
  providerKind : Text := []
  allow : Option (List Text) := none
  rewrites : List ModelRequestRewrite := []
  reviews : Bool := false

/-- What goes upstream. -/
structure Sent where
  body : Option (List UInt8)
  rewritten : Bool
  fields : RequestFields

/-- `path.replace(/\/+$/, "")` -/
def withoutSlashes (path : Text) : Text := (path.reverse.dropWhile (· = 0x2F)).reverse

def pathWithin (path : Text) (bases : List Text) : Bool :=
  let place := 0x2F :: withoutSlashes path
  bases.any fun base => place = withoutSlashes base ||
    (withoutSlashes base ++ [0x2F]).isPrefixOf place

def Call.refusal (call : Call) (status : Nat) (type message : String) : ModelGatewayError :=
  ⟨status, type, 0x27 :: call.aliasName ++ ofString message⟩

def Call.servesOnly (call : Call) (status : Nat) (type : String) (served : List Text)
    (rest : Text) : ModelGatewayError :=
  ⟨status, type, 0x27 :: call.aliasName ++ ofString "' serves only " ++
    (ofString ", ").intercalate served ++ rest⟩

section

variable (grammar : List Char → Option JsonValue)

/-- `JSON.parse(text)`, where it is an object: of the members of one name the last is kept. -/
def parseObject (text : List Char) : Option JsonObject :=
  match grammar text with
  | some (.object fields) =>
    some ⟨JsonValue.lastFields (JsonValue.rebuildFields id JsonValue.lastFields fields),
      JsonValue.keys_lastFields _⟩
  | _ => none

def requestFields (decoder : Decoder) : Option (List UInt8) → RequestFields
  | none | some [] => {}
  | some body => fieldsOf (((parseObject grammar (decoder.decode body false).1).map
      JsonObject.fields).getD [])

/-- `strictDecoder.decode(bytes)`: `none` where the bytes are not UTF-8. -/
def strictDecode (bytes : List UInt8) : Option (List Char) :=
  if Utf8.encode (Utf8.decode bytes) = bytes then some (wholeText bytes) else none

def Call.parseJsonObject (call : Call) (body : List UInt8) : Except ModelGatewayError JsonObject :=
  if call.encoding ≠ [] ∧ call.encoding ≠ ofString "identity" then
    .error (call.refusal 400 "invalid_request_error"
      "' reviews its requests; send them without content-encoding")
  else match (strictDecode body).bind (parseObject grammar) with
    | some object => .ok object
    | none => .error (call.refusal 400 "invalid_request_error"
        "' reviews its requests; send one JSON object")

def Call.original (call : Call) : Option (List UInt8) :=
  if call.method = "GET" ∨ call.method = "HEAD" then none else call.body

def Call.applying (call : Call) : List ModelRequestRewrite := call.rewrites.filter fun rewrite =>
  rewrite.kinds.all fun kinds => kinds.contains call.providerKind

/-- The body as the rewrites leave it; `none` where none is applied. -/
def Call.parsed (call : Call) : Except ModelGatewayError (Option JsonObject) :=
  match call.original with
  | none | some [] => .ok none
  | some body =>
    if call.applying = [] then .ok none
    else do
      let object ← call.parseJsonObject grammar body
      some <$> call.applying.foldlM (fun object rewrite => rewrite.rewrite object) object

/-- Every model that the request names, against the patterns. -/
def Call.checkModels (call : Call) (allow : List Text) : List Text → Except ModelGatewayError Unit
  | [] => .ok ()
  | model :: models =>
    if modelAllowed model (some allow) then call.checkModels allow models
    else .error (call.servesOnly 403 "permission_error" allow
      (ofString "; '" ++ model ++ ofString "' is not allowed"))

def Call.check (call : Call) (fields : RequestFields) : Except ModelGatewayError Unit :=
  match call.allow with
  | none => .ok ()
  | some allow =>
    if call.method = "POST" then
      match fields.model with
      | none => .error (call.servesOnly 400 "invalid_request_error" allow
          (ofString "; name the model"))
      | some model => call.checkModels allow (model :: fields.fallbacks)
    else .ok ()

def policy (decoder : Decoder) (call : Call) : Except ModelGatewayError Sent :=
  if call.paths.any fun paths => !pathWithin call.path paths then
    .error (call.servesOnly 404 "not_found_error" (call.paths.getD []) [])
  else do
    let parsed ← call.parsed grammar
    let body := match parsed with
      | some object => some (encodeObject object)
      | none => call.original
    let fields :=
      if call.method = "POST" ∧ (call.allow.isSome ∨ call.reviews = true) then
        match parsed with
        | some object => fieldsOf object.fields
        | none => requestFields grammar decoder body
      else {}
    call.check fields
    return ⟨body, parsed.isSome, fields⟩

end

/-! ## What readers keep -/

/-- The values of the members of a name, in their order. -/
def occurrences (name : String) (fields : Fields) : List JsonValue :=
  (fields.filter fun field => field.1 = ofString name).map Prod.snd

/-- A reader keeps one member of each name that occurs. -/
def Reading (fields : Fields) (read : String → Option JsonValue) : Prop :=
  ∀ name, (read name = none ∧ occurrences name fields = []) ∨
    ∃ value ∈ occurrences name fields, read name = some value

def Named (allow : List Text) (value : JsonValue) : Prop :=
  ∃ model, value = .string model ∧ ∃ pattern ∈ allow, Stands pattern model

/-- Every reader reads a model that is allowed, and no entry of `models` that is not. -/
def Served (allow : List Text) (fields : Fields) : Prop :=
  ∀ read, Reading fields read → (∃ value, read "model" = some value ∧ Named allow value) ∧
    ∀ entries, read "models" = some (.array entries) → ∀ entry ∈ entries, Named allow entry

def ServesOnly (grammar : List Char → Option JsonValue) (allow : List Text)
    (body : List UInt8) : Prop :=
  ∀ fields, grammar (wholeText body) = some (.object fields) → Served allow fields

/-- What the gateway does not look at would be allowed: the members before the last of their name,
and the entries of `models` that are no names. -/
structure Covered (allow : List Text) (fields : Fields) : Prop where
  model : ∀ value ∈ (occurrences "model" fields).dropLast, Named allow value
  models : ∀ entries, .array entries ∈ (occurrences "models" fields).dropLast →
    ∀ entry ∈ entries, Named allow entry
  dropped : ∀ entries, (occurrences "models" fields).getLast? = some (.array entries) →
    ∀ entry ∈ entries, named entry = none → Named allow entry

/-- The members of the request: as the rewrites leave it, or as the caller wrote it. -/
def Call.members (grammar : List Char → Option JsonValue) (call : Call) : Option Fields :=
  match call.parsed grammar with
  | .ok (some object) => some object.fields
  | .ok none => match call.original.bind fun body => grammar (wholeText body) with
      | some (.object fields) => some fields
      | _ => none
  | .error _ => none

/-! ## What the gateway reads -/

variable {grammar : List Char → Option JsonValue} {call : Call} {fields : Fields} {name : String}
  {parsed : Fields}

theorem occurrences_append (name : String) (fields others : Fields) :
    occurrences name (fields ++ others) = occurrences name fields ++ occurrences name others := by
  rw [occurrences, filter_append, map_append]
  rfl

/-- Of an object the last member of a name is read. -/
theorem field_lastFields (fields : Fields) (name : String) :
    field (JsonValue.lastFields fields) name = (occurrences name fields).getLast? := by
  induction fields using List.reverseRecOn with
  | nil => rfl
  | append_singleton fields other ih =>
    have hset : field (JsonValue.lastFields (fields ++ [other])) name =
        if other.1 = ofString name then some other.2
        else field (JsonValue.lastFields fields) name := by
      rw [JsonValue.lastFields, foldl_append]
      exact Maps.valueAt_setAt
    rw [hset, ih, occurrences_append]
    split
    · next heq => simp [occurrences, heq]
    · next hne => simp [occurrences, hne]

/-- What is read of each value is kept in its place. -/
theorem occurrences_map (f : JsonValue → JsonValue) (fields : Fields) (name : String) :
    occurrences name (fields.map fun field => (field.1, f field.2)) =
      (occurrences name fields).map f := by
  simp only [occurrences, filter_map, map_map]
  rfl

theorem named_rebuild (g : Fields → Fields) (value : JsonValue) :
    named (value.rebuild id g) = named value := by
  cases value <;> rfl

/-- Of each name the last member is read; within it, too. -/
def LastRead (parsed fields : Fields) : Prop := ∃ g : Fields → Fields, ∀ name,
  field parsed name = (occurrences name fields).getLast?.map (JsonValue.rebuild id g)

theorem lastRead_parse (fields : Fields) (g : Fields → Fields) :
    LastRead (JsonValue.lastFields (JsonValue.rebuildFields id g fields)) fields :=
  ⟨g, fun name => by
    rw [field_lastFields, JsonValue.rebuildFields_eq, ← getLast?_map]
    exact congrArg _ (occurrences_map _ fields name)⟩

theorem lastRead_of_nodup (hnames : (fields.map Prod.fst).Nodup) : LastRead fields fields := by
  refine ⟨id, fun name => ?_⟩
  induction fields with
  | nil => rfl
  | cons entry fields ih =>
    obtain ⟨hnew, hnames⟩ := nodup_cons.mp hnames
    rw [show field (entry :: fields) name = _ from Maps.valueAt_cons entry]
    split
    · next heq =>
        have hnone : occurrences name fields = [] := by
          rw [occurrences, map_eq_nil_iff, filter_eq_nil_iff]
          intro other hother hname
          exact hnew (mem_map.mpr ⟨other, hother, (of_decide_eq_true hname).trans heq.symm⟩)
        rw [← singleton_append, occurrences_append, hnone]
        simp [occurrences, heq, JsonValue.rebuild_id]
    · next hne =>
        refine (ih hnames).trans ?_
        simp [occurrences, hne]

theorem fieldsOf_model (h : LastRead parsed fields) :
    (fieldsOf parsed).model = (occurrences "model" fields).getLast?.bind named := by
  obtain ⟨g, hread⟩ := h
  simp only [fieldsOf, hread, Option.bind_map, comp_def, named_rebuild]

theorem fieldsOf_fallbacks (h : LastRead parsed fields) {entries : List JsonValue}
    (hlast : (occurrences "models" fields).getLast? = some (.array entries)) :
    (fieldsOf parsed).fallbacks = entries.filterMap named := by
  obtain ⟨g, hread⟩ := h
  simp only [fieldsOf, hread, hlast, Option.map_some, JsonValue.rebuild,
    JsonValue.rebuildEntries_eq, filterMap_map, comp_def, named_rebuild]

/-! ## What is covered -/

variable {allow : List Text} {value : JsonValue} {decoder : Decoder} {sent : Sent}

theorem named_eq_some {model : Text} (h : named value = some model) : value = .string model := by
  cases value with
  | string text =>
    rw [named] at h
    split at h
    · cases h
    · cases h
      rfl
  | _ => cases h

theorem mem_iff_dropLast {values : List JsonValue} :
    value ∈ values ↔ value ∈ values.dropLast ∨ values.getLast? = some value := by
  rcases eq_nil_or_concat values with rfl | ⟨before, last, rfl⟩
  · simp
  · simp [eq_comm]

/-- Some reader keeps any one member. -/
theorem reading_of_mem (h : value ∈ occurrences name fields) :
    ∃ read, Reading fields read ∧ read name = some value := by
  refine ⟨update (fun other => (occurrences other fields).head?) name (some value),
    fun other => ?_, update_self ..⟩
  by_cases heq : other = name
  · subst heq
    exact .inr ⟨value, h, update_self ..⟩
  · rw [update_of_ne heq]
    cases hocc : occurrences other fields with
    | nil => exact .inl ⟨rfl, rfl⟩
    | cons first rest => exact .inr ⟨first, mem_cons_self, rfl⟩

/-- **Every reader's model is allowed where the gateway's is and the rest would be.** -/
theorem readers_iff {model : Text}
    (hmodel : (occurrences "model" fields).getLast?.bind named = some model)
    (hallowed : ∃ pattern ∈ allow, Stands pattern model)
    (hfallbacks : ∀ entries, (occurrences "models" fields).getLast? = some (.array entries) →
      ∀ fallback ∈ entries.filterMap named, ∃ pattern ∈ allow, Stands pattern fallback) :
    Served allow fields ↔ Covered allow fields := by
  obtain ⟨last, hlast, hnamed⟩ := Option.bind_eq_some_iff.mp hmodel
  have hlastNamed : Named allow last := ⟨model, named_eq_some hnamed, hallowed⟩
  constructor
  · intro h
    refine ⟨fun value hvalue => ?_, fun entries hentries => ?_,
      fun entries hentries entry hentry _ => ?_⟩
    · obtain ⟨read, hread, hname⟩ := reading_of_mem (mem_iff_dropLast.mpr (.inl hvalue))
      obtain ⟨value', hsome, hallow⟩ := (h read hread).1
      cases hname.symm.trans hsome
      exact hallow
    · obtain ⟨read, hread, hname⟩ := reading_of_mem (mem_iff_dropLast.mpr (.inl hentries))
      exact (h read hread).2 entries hname
    · obtain ⟨read, hread, hname⟩ := reading_of_mem (mem_iff_dropLast.mpr (.inr hentries))
      exact (h read hread).2 entries hname entry hentry
  · intro h read hread
    refine ⟨?_, fun entries hentries entry hentry => ?_⟩
    · rcases hread "model" with ⟨-, hnil⟩ | ⟨value, hmem, hsome⟩
      · rw [hnil] at hlast
        cases hlast
      · refine ⟨value, hsome, ?_⟩
        rcases mem_iff_dropLast.mp hmem with hmem | hvalue
        · exact h.model value hmem
        · cases hlast.symm.trans hvalue
          exact hlastNamed
    · rcases hread "models" with ⟨hnone, -⟩ | ⟨value, hmem, hsome⟩
      · cases hnone.symm.trans hentries
      · cases hsome.symm.trans hentries
        rcases mem_iff_dropLast.mp hmem with hmem | hvalue
        · exact h.models entries hmem entry hentry
        · cases hentryNamed : named entry with
          | none => exact h.dropped entries hvalue entry hentry hentryNamed
          | some fallback =>
            exact ⟨fallback, named_eq_some hentryNamed, hfallbacks entries hvalue fallback
              (mem_filterMap.mpr ⟨entry, hentry, hentryNamed⟩)⟩

/-! ## The process's decoder -/

/-- The decoder after the calls that were made of it, each with whether it streams. -/
def decoderAfter (calls : List (List UInt8 × Bool)) : Decoder :=
  calls.foldl (fun decoder call => (decoder.decode call.1 call.2).2) {}

theorem sound_decoderAfter (calls : List (List UInt8 × Bool)) :
    Utf8.Sound (decoderAfter calls).state := by
  suffices h : ∀ decoder : Decoder, Utf8.Sound decoder.state →
      Utf8.Sound (calls.foldl (fun decoder call => (decoder.decode call.1 call.2).2) decoder).state
    from h {} trivial
  induction calls with
  | nil => exact fun _ h => h
  | cons call calls ih =>
    refine fun decoder h => ih _ (Utf8.after_sound (?_ : Utf8.Sound decoder.resume.state) call.1)
    unfold Decoder.resume
    split
    · exact h
    · trivial

/-- A text that starts with no ASCII character. -/
def Foreign (text : List Char) : Prop := ∃ c ∈ text.head?, 0x80 ≤ c.toNat

theorem foreign_replacement (text : List Char) : Foreign (Utf8.replacement :: text) :=
  ⟨_, rfl, by decide⟩

theorem dropMark_replacement (text : List Char) :
    dropMark (Utf8.replacement :: text) = Utf8.replacement :: text :=
  dropMark_eq (by rw [head?_cons]; decide)

/-- **A decoder that was left inside a text reads a body as it is, or as no JSON, or the body is
none.** -/
theorem decode_eq_or (h : Utf8.Sound decoder.state) (body : List UInt8) :
    (decoder.decode body false).1 = wholeText body ∨ Foreign (decoder.decode body false).1 ∨
      Foreign (wholeText body) := by
  obtain ⟨streaming, state, bomSeen⟩ := decoder
  cases streaming with
  | false => exact .inl rfl
  | true =>
    cases state with
    | start =>
      show (if bomSeen then Utf8.written .start body ++ Utf8.finish _ else _) = _ ∨
        Foreign (if bomSeen then _ else _) ∨ _
      cases bomSeen with
      | false => exact .inl rfl
      | true =>
        by_cases hmark : (Utf8.written .start body ++
            Utf8.finish (Utf8.after .start body)).head? = some '\uFEFF'
        · exact .inr (.inl ⟨_, hmark, by decide⟩)
        · exact .inl (dropMark_eq hmark).symm
    | more owed bits lower upper =>
      have hforeign : ∀ {text : List Char}, (∃ rest, text = Utf8.replacement :: rest) →
          Foreign (if bomSeen then text else dropMark text) := by
        rintro _ ⟨rest, rfl⟩
        rw [dropMark_replacement, ite_self]
        exact foreign_replacement rest
      cases body with
      | nil => exact .inr (.inl (hforeign ⟨[], rfl⟩))
      | cons b body =>
        by_cases hb : Utf8.Continuation b
        · have hstart : Utf8.startByte b = ([Utf8.replacement], .start) := by
            obtain ⟨hl, hu⟩ := hb
            simp only [Utf8.startByte]
            rw [if_neg (by omega), if_pos (by omega)]
          refine .inr (.inr ?_)
          show Foreign (dropMark ((Utf8.startByte b).1 ++ _ ++ _))
          rw [hstart, cons_append, cons_append, dropMark_replacement]
          exact foreign_replacement _
        · refine .inr (.inl (hforeign ?_))
          show ∃ rest, (Utf8.byte _ b).1 ++ _ ++ _ = _
          rw [Utf8.byte_of_not_continuation h hb]
          exact ⟨_, rfl⟩

/-! ## What the policy lets through -/

theorem checkModels_ok {models : List Text} (h : call.checkModels allow models = .ok ()) :
    ∀ model ∈ models, ∃ pattern ∈ allow, Stands pattern model := by
  induction models with
  | nil => exact nofun
  | cons model models ih =>
    rw [Call.checkModels] at h
    split at h
    · next hallowed => exact forall_mem_cons.mpr ⟨modelAllowed_iff.mp hallowed, ih h⟩
    · cases h

/-- A request that is checked names a model, and its models are allowed. -/
theorem check_ok {checked : RequestFields} (h : call.check checked = .ok ())
    (hallow : call.allow = some allow) (hpost : call.method = "POST") :
    ∃ model, checked.model = some model ∧
      ∀ name ∈ model :: checked.fallbacks, ∃ pattern ∈ allow, Stands pattern name := by
  simp only [Call.check, hallow, hpost, if_true] at h
  split at h
  · cases h
  · next model hmodel => exact ⟨model, hmodel, checkModels_ok h⟩

/-- Where the fields that were read are those of the text, its readers are as the rest would be. -/
theorem readers_of_check (hread : LastRead parsed fields)
    (hcheck : call.check (fieldsOf parsed) = .ok ()) (hallow : call.allow = some allow)
    (hpost : call.method = "POST") : Served allow fields ↔ Covered allow fields := by
  obtain ⟨model, hmodel, hnames⟩ := check_ok hcheck hallow hpost
  rw [fieldsOf_model hread] at hmodel
  refine readers_iff hmodel (hnames model mem_cons_self) fun entries hlast fallback hmem => ?_
  rw [← fieldsOf_fallbacks hread hlast] at hmem
  exact hnames fallback (mem_cons_of_mem _ hmem)

theorem policy_ok (h : policy grammar decoder call = .ok sent)
    (hallow : call.allow = some allow) (hpost : call.method = "POST") :
    (∃ object, call.parsed grammar = .ok (some object) ∧ sent.body = some (encodeObject object) ∧
      call.check (fieldsOf object.fields) = .ok ()) ∨
    (call.parsed grammar = .ok none ∧ sent.body = call.original ∧
      call.check (requestFields grammar decoder call.original) = .ok ()) := by
  rw [policy] at h
  split at h
  · cases h
  · have hwhen : call.method = "POST" ∧ (call.allow.isSome = true ∨ call.reviews = true) :=
      ⟨hpost, .inl (by rw [hallow]; rfl)⟩
    cases hparsed : call.parsed grammar with
    | error e =>
      rw [hparsed] at h
      cases h
    | ok parsed =>
      rw [hparsed] at h
      simp only [bind, Except.bind, if_pos hwhen] at h
      cases parsed with
      | some object =>
        cases hcheck : call.check (fieldsOf object.fields) with
        | error e =>
          rw [hcheck] at h
          cases h
        | ok _ =>
          rw [hcheck] at h
          cases h
          exact .inl ⟨object, rfl, rfl, hcheck⟩
      | none =>
        cases hcheck : call.check (requestFields grammar decoder call.original) with
        | error e =>
          rw [hcheck] at h
          cases h
        | ok _ =>
          rw [hcheck] at h
          cases h
          exact .inr ⟨rfl, rfl, rfl⟩

/-- **No reader of what is forwarded is served a model outside the list exactly where what the
gateway does not look at is within it**; and a pattern stands for what it says. -/
theorem serves_only_iff (grammar : List Char → Option JsonValue)
    (calls : List (List UInt8 × Bool)) (call : Call) (allow : List Text) (sent : Sent) :
    (∀ model patterns, modelAllowed model (some patterns) = true ↔
      ∃ pattern ∈ patterns, Stands pattern model) ∧
    ((∀ text value, grammar text = some value → ∀ c ∈ text.head?, c.toNat < 0x80) →
      (∀ object, call.parsed grammar = .ok (some object) →
        grammar (wholeText (encodeObject object)) = some (.object object.fields)) →
      call.allow = some allow → call.method = "POST" →
      policy grammar (decoderAfter calls) call = .ok sent →
      ((∀ body, sent.body = some body → ServesOnly grammar allow body) ↔
        ∀ fields, call.members grammar = some fields → Covered allow fields)) := by
  refine ⟨fun _ _ => modelAllowed_iff, fun hstart hwritten hallow hpost hpolicy => ?_⟩
  rcases policy_ok hpolicy hallow hpost with
    ⟨object, hparsed, hbody, hcheck⟩ | ⟨hparsed, hbody, hcheck⟩
  · -- The rewrites' own object is written, and read as it was checked.
    have hreaders := readers_of_check (lastRead_of_nodup object.names) hcheck hallow hpost
    have htext := hwritten object hparsed
    rw [Call.members, hparsed, hbody]
    constructor
    · intro h fields hfields
      cases hfields
      exact hreaders.mp (h _ rfl _ htext)
    · intro h body hsome fields hfields
      cases hsome
      rw [htext] at hfields
      cases hfields
      exact hreaders.mpr (h _ rfl)
  · have hmembers : ∀ body fields, call.original = some body →
        (call.members grammar = some fields ↔
          grammar (wholeText body) = some (.object fields)) := by
      intro body fields horiginal
      rw [Call.members, hparsed, horiginal]
      simp only [Option.bind_some]
      split
      · next others hothers => rw [hothers]; simp
      · next hnone => exact ⟨nofun, fun h => absurd h (hnone fields)⟩
    obtain ⟨model, hmodel, -⟩ := check_ok hcheck hallow hpost
    rw [hbody]
    cases horiginal : call.original with
    | none =>
        rw [horiginal] at hmodel
        cases hmodel
    | some body =>
        simp only [Option.some.injEq, forall_eq', hmembers body _ horiginal]
        refine forall_congr' fun fields => forall_congr' fun htext => ?_
        have hchecked : requestFields grammar (decoderAfter calls) (some body) =
            fieldsOf (((parseObject grammar ((decoderAfter calls).decode body false).1).map
              JsonObject.fields).getD []) := by
          cases body with
          | nil =>
            rw [horiginal] at hmodel
            cases hmodel
          | cons b body => rfl
        rw [horiginal, hchecked] at hcheck hmodel
        -- The caller's own text is checked as it is, or would not have been taken for JSON.
        have hsame : ((decoderAfter calls).decode body false).1 = wholeText body := by
          rcases decode_eq_or (sound_decoderAfter calls) body with
            heq | ⟨c, hc, hle⟩ | ⟨c, hc, hle⟩
          · exact heq
          · have hnone : grammar ((decoderAfter calls).decode body false).1 = none :=
              Option.eq_none_iff_forall_ne_some.mpr fun value hvalue =>
                absurd (hstart _ value hvalue c hc) (Nat.not_lt.mpr hle)
            rw [parseObject, hnone] at hmodel
            cases hmodel
          · exact absurd (hstart _ _ htext c hc) (Nat.not_lt.mpr hle)
        rw [hsame, parseObject, htext] at hcheck
        exact readers_of_check (lastRead_parse fields _) hcheck hallow hpost

/-! ## A model that is not looked at -/

/-- A JSON object without white space, with every member in its place. -/
def readObject (text : List Char) : Option JsonValue :=
  if text.head? = some (Char.ofNat 0x7B) then
    match JsonValue.readValue (2 * text.length) (ofChars text) with
    | some (value, []) => some value
    | _ => none
  else none

def claudeOnly (body : String) : Call where
  aliasName := ofString "models"
  method := "POST"
  path := ofString "v1/messages"
  body := some (body.toList.map fun c => UInt8.ofNat c.toNat)
  allow := some [ofString "claude-*"]

def once : Call := claudeOnly "\x7b\"model\":\"claude-1\",\"models\":[\"claude-2\"]\x7d"

/-- The later of the two models is checked, the earlier one goes upstream with it. -/
def twice : Call := claudeOnly "\x7b\"model\":\"gpt-5\",\"model\":\"claude-1\"\x7d"

def sentOf (call : Call) : Option Sent := (policy readObject (decoderAfter []) call).toOption

/-- What the members of the name say that the body holds. -/
def modelsIn (body : List UInt8) : List (Option Text) :=
  match readObject (wholeText body) with
  | some (.object fields) => (occurrences "model" fields).map named
  | _ => []

theorem ok_of_sentOf (h : sentOf call = some sent) :
    policy readObject (decoderAfter []) call = .ok sent := by
  rw [sentOf] at h
  cases hpolicy : policy readObject (decoderAfter []) call with
  | error e =>
    rw [hpolicy] at h
    cases h
  | ok other =>
    rw [hpolicy] at h
    cases h
    rfl

theorem serves_only_iff_once : ∃ sent, policy readObject (decoderAfter []) once = .ok sent ∧
    ((∀ body, sent.body = some body → ServesOnly readObject [ofString "claude-*"] body) ↔
      ∀ fields, once.members readObject = some fields → Covered [ofString "claude-*"] fields) := by
  obtain ⟨sent, hsent⟩ := Option.isSome_iff_exists.mp
    (show (sentOf once).isSome = true by decide +kernel)
  refine ⟨sent, ok_of_sentOf hsent, (serves_only_iff readObject [] once _ sent).2
    (fun text value h c hc => ?_) (fun object h => by cases h) rfl rfl (ok_of_sentOf hsent)⟩
  rw [readObject] at h
  split at h
  · next hhead =>
      rw [hhead] at hc
      cases hc
      decide
  · cases h

theorem not_serves_only_twice : ¬ ∀ call allow sent, call.allow = some allow →
    call.method = "POST" → policy readObject (decoderAfter []) call = .ok sent →
    ∀ body, sent.body = some body → ServesOnly readObject allow body := by
  intro h
  obtain ⟨sent, hsent, hbody⟩ := Option.map_eq_some_iff.mp
    (show (sentOf twice).map Sent.body = some twice.body by decide +kernel)
  have hserves := h twice _ sent rfl rfl (ok_of_sentOf hsent) _ hbody
  have hmodels : (modelsIn (twice.body.getD [])).head? = some (some (ofString "gpt-5")) := by
    decide +kernel
  rw [modelsIn] at hmodels
  split at hmodels
  · next fields htext =>
      rw [head?_map] at hmodels
      obtain ⟨value, hvalue, hnamed⟩ := Option.map_eq_some_iff.mp hmodels
      obtain ⟨read, hread, hmodel⟩ := reading_of_mem (mem_of_mem_head? hvalue)
      obtain ⟨kept, hkept, model, rfl, hstands⟩ := (hserves fields htext read hread).1
      cases hmodel.symm.trans hkept
      cases named_eq_some hnamed
      have hallowed := modelAllowed_iff.mpr hstands
      revert hallowed
      decide +kernel
  · cases hmodels

end Catamorphic.ModelGateway
