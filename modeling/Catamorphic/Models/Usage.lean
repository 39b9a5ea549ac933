import Catamorphic.Lib.Json
import Catamorphic.Lib.Runs
import Catamorphic.Lib.Utf8
import Mathlib.Logic.Function.Basic

/-!
# The usage of streamed model answers

The gateway reads an answer's server-sent events as its bytes pass. One text decoder serves the
whole process: it keeps the part of a character that a chunk ends in for whatever is decoded next.
-/

namespace Catamorphic.ModelGateway

open Runs Function List Lines

/-! ## The decoder -/

/-- A `TextDecoder`; `streaming` where the last call asked it to go on. -/
structure Decoder where
  streaming : Bool := false
  state : Utf8.State := .start
  bomSeen : Bool := false
  deriving DecidableEq

def dropMark : List Char → List Char
  | '\uFEFF' :: text => text
  | text => text

/-- Where the next call starts. -/
def Decoder.resume (decoder : Decoder) : Decoder := if decoder.streaming then decoder else {}

/-- `decoder.decode(bytes, { stream })` -/
def Decoder.decode (decoder : Decoder) (bytes : List UInt8) (stream : Bool) :
    List Char × Decoder :=
  let { state, bomSeen, .. } := decoder.resume
  let text := Utf8.written state bytes ++
    if stream then [] else Utf8.finish (Utf8.after state bytes)
  (if bomSeen then text else dropMark text,
    { streaming := stream, state := Utf8.after state bytes, bomSeen := bomSeen || text ≠ [] })

/-- `new TextDecoder().decode(bytes)` -/
def wholeText (bytes : List UInt8) : List Char := (({} : Decoder).decode bytes false).1

/-! ## Usage -/

inductive ModelApi
  | anthropic | openai
  deriving DecidableEq

structure ModelCallUsage where
  model : Option Text := none
  inputTokens : Nat := 0
  cachedInputTokens : Nat := 0
  cacheCreationTokens : Nat := 0
  outputTokens : Nat := 0
  reasoningTokens : Nat := 0
  deriving DecidableEq

def emptyUsage : ModelCallUsage := {}

abbrev Fields := List (Text × JsonValue)

def field (fields : Fields) (name : String) : Option JsonValue :=
  (fields.find? fun field => field.1 = Text.ofString name).map Prod.snd

def record : Option JsonValue → Fields
  | some (.object fields) => fields
  | _ => []

def stringOf : Option JsonValue → Option Text
  | some (.string text) => some text
  | _ => none

def truthy : JsonValue → Bool
  | .null => false
  | .bool value => value
  | .number value => value.text ≠ Text.ofString "0"
  | .string text => text ≠ []
  | _ => true

section

variable (parse : List Char → Option JsonValue) (whole : JsonNumber → Nat)

/-- The whole part of a number above zero, `whole`, and 0 for what is none. -/
def count : Option JsonValue → Nat
  | some (.number value) => whole value
  | _ => 0

/-- Anthropic `usage` objects. -/
def mergeAnthropicUsage (usage : ModelCallUsage) (raw : Fields) : ModelCallUsage :=
  let merged (name : String) (old : Nat) : Nat :=
    if (field raw name).isSome then count whole (field raw name) else old
  { usage with
    inputTokens := merged "input_tokens" usage.inputTokens
    cachedInputTokens := merged "cache_read_input_tokens" usage.cachedInputTokens
    cacheCreationTokens := merged "cache_creation_input_tokens" usage.cacheCreationTokens
    outputTokens := merged "output_tokens" usage.outputTokens }

/-- OpenAI Responses (`input_tokens`) and Chat Completions (`prompt_tokens`). -/
def openAiUsage (raw : Fields) : ModelCallUsage :=
  let responses := (field raw "input_tokens").isSome || (field raw "output_tokens").isSome
  let named (ofResponses ofChat : String) : Option JsonValue :=
    field raw (if responses then ofResponses else ofChat)
  let input := count whole (named "input_tokens" "prompt_tokens")
  let cached := count whole
    (field (record (named "input_tokens_details" "prompt_tokens_details")) "cached_tokens")
  { cachedInputTokens := cached
    inputTokens := input - cached
    outputTokens := count whole (named "output_tokens" "completion_tokens")
    reasoningTokens := count whole (field (record
      (named "output_tokens_details" "completion_tokens_details")) "reasoning_tokens") }

/-- What an event says of the usage. -/
def readEvent (api : ModelApi) (usage : ModelCallUsage) (event : Fields) : ModelCallUsage :=
  let type := stringOf (field event "type")
  match api with
  | .anthropic =>
    if type = some (Text.ofString "message_start") then
      let message := record (field event "message")
      let model := (stringOf (field message "model")).or usage.model
      mergeAnthropicUsage whole { usage with model } (record (field message "usage"))
    else if type = some (Text.ofString "message_delta") then
      mergeAnthropicUsage whole usage (record (field event "usage"))
    else usage
  | .openai =>
    let response := record (field event "response")
    let raw :=
      if type = some (Text.ofString "response.completed") ∨
          type = some (Text.ofString "response.incomplete") then
        record (field response "usage")
      else if (field event "usage").any truthy then record (field event "usage") else []
    let model := (stringOf (field response "model")).or (stringOf (field event "model"))
    if raw = [] then usage
    else
      { openAiUsage whole raw with
        model := if model = none ∨ model = some [] then usage.model else model }

/-- `text.includes(part)` -/
def includes (text : List Char) (part : String) : Bool :=
  text.tails.any part.toList.isPrefixOf

/-- `line` -/
def readLine (api : ModelApi) (usage : ModelCallUsage) (line : List Char) : ModelCallUsage :=
  if "data:".toList.isPrefixOf line then
    let data := Text.trim (line.drop 5)
    let carries := match api with
      | .anthropic => includes data "message_start" || includes data "message_delta"
      | .openai => includes data "\"usage\""
    if data = [] ∨ data = "[DONE]".toList ∨ carries = false then usage
    else match parse data with
      | some event => readEvent whole api usage (record (some event))
      | none => usage
  else usage

/-- `line.replace(/\r$/, "")` -/
def withoutReturn (line : List Char) : List Char := chomp '\r' line

structure SseUsageReader where
  api : ModelApi
  usage : ModelCallUsage := emptyUsage
  pending : List Char := []

def SseUsageReader.push (reader : SseUsageReader) (decoder : Decoder) (chunk : List UInt8) :
    SseUsageReader × Decoder :=
  let (text, decoder) := decoder.decode chunk true
  let (lines, pending) := split '\n' (reader.pending ++ text)
  ({ reader with
      usage := lines.foldl (fun usage line =>
        readLine parse whole reader.api usage (withoutReturn line)) reader.usage
      pending },
    decoder)

def SseUsageReader.finish (reader : SseUsageReader) : ModelCallUsage :=
  if reader.pending = [] then reader.usage
  else readLine parse whole reader.api reader.usage reader.pending

/-! ## What the gateway serves -/

/-- An answer that streams, what has arrived of it, and its usage once it ended. -/
structure Answer where
  reader : SseUsageReader
  sent : List UInt8 := []
  metered : Option ModelCallUsage := none

structure World where
  decoder : Decoder := {}
  answers : Nat → Option Answer := fun _ => none

inductive Action
  | begin (id : Nat) (api : ModelApi)
  | push (id : Nat) (chunk : List UInt8)
  | finish (id : Nat)
  /-- A request's body, or the whole of an answer that is not streamed, is decoded. -/
  | decode (bytes : List UInt8)

def World.setAnswer (w : World) (id : Nat) (answer : Answer) : World :=
  { w with answers := update w.answers id (some answer) }

def step (w : World) : Action → Option World
  | .begin id api =>
    if (w.answers id).isNone then some (w.setAnswer id { reader := { api } }) else none
  | .push id chunk =>
    match w.answers id with
    | some { reader, sent, metered := none } =>
      let (reader, decoder) := reader.push parse whole w.decoder chunk
      some ({ w with decoder }.setAnswer id { reader, sent := sent ++ chunk })
    | _ => none
  | .finish id =>
    match w.answers id with
    | some { reader, sent, metered := none } =>
      some (w.setAnswer id { reader, sent, metered := some (reader.finish parse whole) })
    | _ => none
  | .decode bytes => some { w with decoder := (w.decoder.decode bytes false).2 }

/-- The fold of a whole text's events, each read from a line. -/
def usageOf (api : ModelApi) (text : List Char) : ModelCallUsage :=
  let unended := if rest '\n' text = [] then [] else [rest '\n' text]
  ((lines '\n' text).map withoutReturn ++ unended).foldl (readLine parse whole api) emptyUsage

/-- **Answers are metered by their own text.** -/
def Metered (w : World) : Prop :=
  ∀ id answer usage, w.answers id = some answer → answer.metered = some usage →
    usage = usageOf parse whole answer.reader.api (wholeText answer.sent)

end

/-- The decoder comes to a chunk as the answer's own bytes leave it, or where the chunk has no mark
at its start at least inside the same character; and no answer ends inside a character. -/
def Undisturbed (w : World) : Action → Prop
  | .push id chunk => ∀ answer, w.answers id = some answer →
      w.decoder.resume.state = Utf8.after .start answer.sent ∧
        (w.decoder.resume.bomSeen = decide (Utf8.written .start answer.sent ≠ []) ∨
          (Utf8.written (Utf8.after .start answer.sent) chunk).head? ≠ some '\uFEFF')
  | .finish id => ∀ answer, w.answers id = some answer → Utf8.after .start answer.sent = .start
  | _ => True

/-! ## What has been read of an answer -/

section

variable {parse : List Char → Option JsonValue} {whole : JsonNumber → Nat} {w w' : World}
  {reader : SseUsageReader} {decoder : Decoder} {text : List Char} {s : List Char}

theorem written_append (state : Utf8.State) (s t : List UInt8) : Utf8.written state (s ++ t) =
    Utf8.written state s ++ Utf8.written (Utf8.after state s) t := by
  induction s generalizing state with
  | nil => rfl
  | cons b s ih =>
    rw [cons_append, Utf8.written, Utf8.written, ih, append_assoc]
    rfl

theorem dropMark_append (hs : s ≠ []) (t : List Char) : dropMark (s ++ t) = dropMark s ++ t := by
  cases s with
  | nil => exact absurd rfl hs
  | cons c s =>
    by_cases hc : c = '\uFEFF'
    · rw [hc]
      rfl
    · rw [cons_append, dropMark.eq_2 _ (fun _ h => hc (List.cons.inj h).1),
        dropMark.eq_2 _ (fun _ h => hc (List.cons.inj h).1)]
      rfl

theorem dropMark_eq (hs : s.head? ≠ some '\uFEFF') : dropMark s = s := by
  refine dropMark.eq_2 _ fun t ht => hs ?_
  rw [ht]
  rfl

/-- The text of an answer so far. -/
def soFar (sent : List UInt8) : List Char := dropMark (Utf8.written .start sent)

theorem wholeText_eq {sent : List UInt8} (h : Utf8.after .start sent = .start) :
    wholeText sent = soFar sent := by
  show dropMark (Utf8.written .start sent ++ Utf8.finish (Utf8.after .start sent)) = _
  rw [h, Utf8.finish, append_nil, soFar]

/-- An undisturbed chunk is read as the answer goes on. -/
theorem decode_undisturbed {sent chunk : List UInt8}
    (hstate : decoder.resume.state = Utf8.after .start sent)
    (hmark : decoder.resume.bomSeen = decide (Utf8.written .start sent ≠ []) ∨
      (Utf8.written (Utf8.after .start sent) chunk).head? ≠ some '\uFEFF') :
    soFar (sent ++ chunk) = soFar sent ++ (decoder.decode chunk true).1 := by
  have hdecode : (decoder.decode chunk true).1 =
      if decoder.resume.bomSeen then Utf8.written (Utf8.after .start sent) chunk
      else dropMark (Utf8.written (Utf8.after .start sent) chunk) := by
    rw [← hstate, Decoder.decode]
    simp only [if_true, append_nil]
  rw [hdecode, soFar, soFar, written_append]
  by_cases hempty : Utf8.written .start sent = []
  · rw [hempty, nil_append, show dropMark [] = [] from rfl, nil_append]
    rcases hmark with hseen | hplain
    · rw [hseen, hempty, if_neg (by simp)]
    · rw [dropMark_eq hplain, ite_self]
  · rw [dropMark_append hempty]
    rcases hmark with hseen | hplain
    · rw [hseen, if_pos (decide_eq_true hempty)]
    · rw [dropMark_eq hplain, ite_self]

/-- The reader has read the lines of a text, and keeps its rest. -/
structure SseUsageReader.HasRead (parse : List Char → Option JsonValue) (whole : JsonNumber → Nat)
    (reader : SseUsageReader) (text : List Char) : Prop where
  usage : reader.usage = ((lines '\n' text).map withoutReturn).foldl
    (readLine parse whole reader.api) emptyUsage
  pending : reader.pending = rest '\n' text

theorem SseUsageReader.HasRead.push
    (h : reader.HasRead parse whole text) (decoder : Decoder) (chunk : List UInt8) :
    (reader.push parse whole decoder chunk).1.HasRead parse whole
      (text ++ (decoder.decode chunk true).1) where
  usage := by
    rw [lines, split_rest_append, map_append, foldl_append, foldl_map, ← h.pending]
    exact congrArg (fun usage => List.foldl _ usage _) h.usage
  pending := by
    rw [rest, split_rest_append, ← h.pending]
    rfl

theorem SseUsageReader.HasRead.finish (h : reader.HasRead parse whole text) :
    reader.finish parse whole = usageOf parse whole reader.api text := by
  rw [SseUsageReader.finish, usageOf, foldl_append, ← h.usage, ← h.pending]
  split <;> rfl

/-! ## Runs -/

/-- Each answer has been read so far, and is metered by its own text once it ended. -/
structure Sound (parse : List Char → Option JsonValue) (whole : JsonNumber → Nat) (w : World) :
    Prop where
  read : ∀ id answer, w.answers id = some answer →
    answer.reader.HasRead parse whole (soFar answer.sent)
  metered : Metered parse whole w

theorem Sound.setAnswer (h : Sound parse whole w) {id : Nat} {answer : Answer}
    (hread : answer.reader.HasRead parse whole (soFar answer.sent))
    (hmetered : ∀ usage, answer.metered = some usage →
      usage = usageOf parse whole answer.reader.api (wholeText answer.sent)) :
    Sound parse whole ({ w with decoder }.setAnswer id answer) where
  read other answer' hother := by
    by_cases hid : other = id
    · subst hid
      cases (update_self other _ w.answers).symm.trans hother
      exact hread
    · exact h.read other answer' ((update_of_ne hid _ w.answers).symm.trans hother)
  metered other answer' usage hother := by
    by_cases hid : other = id
    · subst hid
      cases (update_self other _ w.answers).symm.trans hother
      exact hmetered usage
    · exact h.metered other answer' usage
        ((update_of_ne hid _ w.answers).symm.trans hother)

theorem sound_step {action : Action} (h : Sound parse whole w) (hok : Undisturbed w action)
    (hstep : step parse whole w action = some w') : Sound parse whole w' := by
  cases action with
  | begin id api =>
    rw [step] at hstep
    split at hstep
    · cases hstep
      exact h.setAnswer ⟨rfl, rfl⟩ fun usage hnone => by cases hnone
    · cases hstep
  | push id chunk =>
    rw [step] at hstep
    split at hstep
    · next reader sent hanswer =>
      cases hstep
      obtain ⟨hstate, hmark⟩ := hok _ hanswer
      refine h.setAnswer ?_ fun usage hnone => by cases hnone
      rw [decode_undisturbed hstate hmark]
      exact (h.read id _ hanswer).push w.decoder chunk
    · cases hstep
  | finish id =>
    rw [step] at hstep
    split at hstep
    · next reader sent hanswer =>
      cases hstep
      have hread := h.read id _ hanswer
      refine h.setAnswer hread fun usage husage => ?_
      rw [wholeText_eq (hok _ hanswer), ← hread.finish]
      exact (Option.some.inj husage).symm
    · cases hstep
  | decode bytes =>
    cases hstep
    exact ⟨h.read, h.metered⟩

/-- **Where nothing disturbs the decoder, answers are metered by their own text.** -/
theorem metered_of_reach (h : Reach (step parse whole) Undisturbed {} w) :
    Metered parse whole w := by
  have hsound : Sound parse whole w :=
    h.invariant ⟨fun _ _ hnone => (by cases hnone), fun _ _ _ hnone => (by cases hnone)⟩
      fun _ _ _ => sound_step
  exact hsound.metered

end

/-! ## Two answers at once -/

/-- An event that says five tokens, on its line. -/
def messageDelta : List UInt8 :=
  "data:\x7b\"type\":\"message_delta\",\"usage\":\x7b\"output_tokens\":5\x7d\x7d\n".toList.map
    fun c => UInt8.ofNat c.toNat

def parseJson (text : List Char) : Option JsonValue := JsonValue.parse (Text.ofChars text)

/-- The whole part of the number that the event says. -/
def wholeFive : JsonNumber → Nat := fun _ => 5

def alone : List Action := [.begin 0 .anthropic, .push 0 messageDelta, .finish 0]

def meteredBy (actions : List Action) (id : Nat) : Option ModelCallUsage := do
  let w ← exec (step parseJson wholeFive) {} actions
  let answer ← w.answers id
  answer.metered

example : meteredBy alone 0 = some { outputTokens := 5 } := by decide +kernel

theorem metered_of_reach_alone : ∃ w, exec (step parseJson wholeFive) {} alone = some w ∧
    Metered parseJson wholeFive w := by
  refine ⟨_, rfl, metered_of_reach (.tail (e := .finish 0) (.tail (e := .push 0 messageDelta)
    (.tail (e := .begin 0 .anthropic) .init trivial rfl) ?_ rfl) ?_ rfl)⟩
  · intro answer hanswer
    cases hanswer
    exact ⟨rfl, .inl rfl⟩
  · intro answer hanswer
    cases hanswer
    decide +kernel

/-- While the event's answer streams, another's chunk ends in the first byte of a character. -/
def interleaved : List Action :=
  [.begin 0 .anthropic, .begin 1 .anthropic, .push 1 [0xC3], .push 0 messageDelta, .finish 0]

/-- The line that the byte is put before is no `data:` line. -/
theorem not_metered_interleaved : ¬ ∀ parse whole w,
    Reach (step parse whole) anyEvent {} w → Metered parse whole w := by
  intro h
  obtain ⟨w, hrun⟩ : ∃ w, exec (step parseJson wholeFive) {} interleaved = some w := ⟨_, rfl⟩
  have hmetered := h parseJson wholeFive w (reach_of_exec hrun) 0
  cases hrun
  have husage := hmetered _ emptyUsage rfl (by decide +kernel)
  revert husage
  decide +kernel

end Catamorphic.ModelGateway
