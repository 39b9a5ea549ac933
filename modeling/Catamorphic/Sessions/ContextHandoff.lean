import Catamorphic.Lib.JsString

/-!
# What a handoff tells of a turn

A provider that takes a conversation over is told each turn it did not see, line by line: who
said what, what was run and changed. The later lines of what someone said are indented, so
that they begin with no speaker's label. Commands, paths, notices and the names of tasks and
senders are written as they are.
-/

namespace Catamorphic.Sessions.Handoff

open List
open Text (ofString lines)

def newline : UInt16 := 0x0A

/-! ## Texts -/

/-- `\s` -/
def isSpaceUnit (u : UInt16) : Bool :=
  let n := u.toNat
  (0x09 ≤ n && n ≤ 0x0D) || n == 0x20 || n == 0xA0 || n == 0x1680 ||
    (0x2000 ≤ n && n ≤ 0x200A) || n == 0x2028 || n == 0x2029 || n == 0x202F || n == 0x205F ||
    n == 0x3000 || n == 0xFEFF

/-- A run of white space after `.replace(/\s+\n/g, "\n")`: what stands before its last newline
goes. -/
def collapsedRun (run : Text) : Text :=
  let tail := (run.reverse.takeWhile (· ≠ newline)).reverse
  if tail.length + 2 ≤ run.length then newline :: tail else run

/-- The text after `run`, a run of white space so far. -/
def collapseFrom (run : Text) : Text → Text
  | [] => collapsedRun run
  | a :: rest =>
    if isSpaceUnit a then collapseFrom (run ++ [a]) rest
    else collapsedRun run ++ a :: collapseFrom [] rest

/-- `text.trim()` -/
def trim (text : Text) : Text :=
  ((text.dropWhile isSpaceUnit).reverse.dropWhile isSpaceUnit).reverse

/-- The text cut to `max` units, never after the first half of a pair. -/
def truncate (value : Text) (max : Nat) : Text :=
  let text := trim (collapseFrom [] value)
  if text.length ≤ max then text
  else
    let cut := max - 1
    let upTo := if 0 < cut && Text.isHigh (text.getD (cut - 1) 0) then cut - 1 else cut
    text.take upTo ++ [0x2026]

/-- `truncate(value, max).replace(/\n/g, "\n  ")` -/
def quoted (value : Text) (max : Nat) : Text :=
  (truncate value max).flatMap fun a => if a = newline then [newline, 0x20, 0x20] else [a]

def decimal (n : Int) : Text := ofString (toString n)

example : truncate (ofString " a \n\n b\n ") 10 = ofString "a\n b" := by decide
example : truncate (ofString "abcd") 3 = ofString "ab" ++ [0x2026] := by decide
example : quoted (ofString "a\nb") 10 = ofString "a\n  b" := by decide

/-! ## Items -/

inductive InboundSender
  | agent (sessionId : Text)
  | assistant
  | workflow (workflowName : Text)
  deriving DecidableEq

/-- An item of a turn, as far as it is told. -/
inductive TurnItem
  | userMessage (text : Text)
  | inboundMessage (sender : InboundSender) (text : Text)
  | taskNotification (taskType taskId summary : Text)
  | assistantMessage (completed : Bool) (text : Text)
  | command (command : Text) (exitCode : Option Int)
  | fileChange (path : Text)
  | notice (text : Text)
  | other
  deriving DecidableEq

def TurnItem.isCommand : TurnItem → Bool
  | .command .. => true
  | _ => false

def LINE_MAX : Nat := 2000
def COMMANDS_SHOWN : Nat := 3

def senderLabel : InboundSender → Text
  | .agent sessionId => ofString "Agent in session " ++ sessionId
  | .assistant => ofString "The person's assistant"
  | .workflow workflowName => ofString "Workflow " ++ workflowName

/-- The commands that have come, and the paths that were named. -/
structure Telling where
  ran : Nat
  changed : List Text

def exitText : Option Int → Text
  | none => []
  | some code => ofString " (exit " ++ decimal code ++ ofString ")"

/-- What is pushed onto `lines` for one item of a turn that runs `total` commands. -/
def entries (total : Nat) (st : Telling) : TurnItem → List Text
  | .userMessage text => [ofString "Person: " ++ quoted text LINE_MAX]
  | .inboundMessage sender text =>
    [senderLabel sender ++ (ofString ": " ++ quoted text LINE_MAX)]
  | .taskNotification taskType taskId summary =>
    [ofString "Notification (" ++ ((taskType ++ ofString " " ++ taskId) ++
      (ofString "): " ++ quoted summary 400))]
  | .assistantMessage completed text =>
    if completed && trim text ≠ [] then [ofString "Agent: " ++ quoted text LINE_MAX] else []
  | .command command exitCode =>
    let shown := min total COMMANDS_SHOWN
    if st.ran < total - shown then []
    else
      (if st.ran = total - shown ∧ shown < total then
        [ofString "- ran " ++ decimal total ++ ofString " commands; the last " ++
          decimal shown ++ ofString ":"]
      else []) ++
        [ofString "- ran `" ++ (truncate command 300 ++ (ofString "`" ++ exitText exitCode))]
  | .fileChange path =>
    if st.changed.contains path then [] else [ofString "- changed " ++ (path ++ [])]
  | .notice text => [ofString "(" ++ (truncate text 400 ++ ofString ")")]
  | .other => []

def Telling.after (st : Telling) : TurnItem → Telling
  | .command .. => { st with ran := st.ran + 1 }
  | .fileChange path =>
    if st.changed.contains path then st else { st with changed := st.changed ++ [path] }
  | _ => st

/-- `lines`, with the items they were pushed for. -/
def toldFrom (total : Nat) : Telling → List TurnItem → List (TurnItem × Text)
  | _, [] => []
  | st, item :: items =>
    (entries total st item).map (fun entry => (item, entry)) ++
      toldFrom total (st.after item) items

def told (items : List TurnItem) : List (TurnItem × Text) :=
  toldFrom (items.countP TurnItem.isCommand) ⟨0, []⟩ items

def turnLine (ordinal : Nat) : Text := ofString "Turn " ++ decimal ordinal

def renderTurn (ordinal : Nat) (items : List TurnItem) : Text :=
  [newline].intercalate (turnLine ordinal :: (told items).map Prod.snd)

example : renderTurn 2 [.command (ofString "ls") (some 0), .fileChange (ofString "a"),
    .fileChange (ofString "a")] = ofString "Turn 2\n- ran `ls` (exit 0)\n- changed a" := by
  decide

/-! ## Who speaks -/

inductive Party
  | person
  | agent
  | sender (who : InboundSender)
  deriving DecidableEq

def Party.label : Party → Text
  | .person => ofString "Person"
  | .agent => ofString "Agent"
  | .sender who => senderLabel who

/-- How the first line of what the party says begins. -/
def Party.opening (party : Party) : Text := party.label ++ ofString ": "

def TurnItem.author : TurnItem → Option Party
  | .userMessage _ => some .person
  | .inboundMessage sender _ => some (.sender sender)
  | .assistantMessage .. => some .agent
  | _ => none

/-- The lines of an entry, the first one with the author. -/
def markedLines (author : Option Party) (entry : Text) : List (Option Party × Text) :=
  match lines entry with
  | [] => []
  | first :: later => (author, first) :: later.map fun line => (none, line)

/-- The lines of a turn, each with the author of the item it is the first line of. -/
def turnLines (ordinal : Nat) (items : List TurnItem) : List (Option Party × Text) :=
  markedLines none (turnLine ordinal) ++
    (told items).flatMap fun pair => markedLines pair.1.author pair.2

/-- A line that begins as a party's is the first line of what that party said. -/
def Genuine (ordinal : Nat) (items : List TurnItem) : Prop :=
  ∀ line ∈ turnLines ordinal items, ∀ party : Party,
    party.opening <+: line.2 → line.1 = some party

/-! ## Lines -/

theorem lines_ne_nil (text : Text) : lines text ≠ [] := by
  cases text with
  | nil => exact cons_ne_nil _ _
  | cons a rest =>
    rw [lines]
    split
    · exact cons_ne_nil _ _
    · split <;> exact cons_ne_nil _ _

theorem lines_newline (text : Text) : lines (newline :: text) = [] :: lines text := by
  simp [lines, newline]

theorem lines_cons_of_ne {a : UInt16} (ha : a ≠ newline) {text first : Text} {later : List Text}
    (h : lines text = first :: later) : lines (a :: text) = (a :: first) :: later := by
  have ha' : a ≠ 0x0A := ha
  rw [lines, if_neg ha', h]

/-- A text without a newline at the front of a text is at the front of its first line, and the
other lines begin after a newline. -/
theorem front_of_lines {front text first : Text} {later : List Text}
    (hlines : lines text = first :: later) (hfree : newline ∉ front) :
    (front <+: first ↔ front <+: text) ∧ ((∃ line ∈ later, front <+: line) ↔
        ∃ before after, text = before ++ newline :: after ∧ front <+: after) := by
  induction text generalizing front first later with
  | nil =>
    obtain ⟨rfl, rfl⟩ := hlines
    simp
  | cons a text ih =>
    obtain ⟨second, others, hsecond⟩ := exists_cons_of_ne_nil (lines_ne_nil text)
    by_cases ha : a = newline
    · subst ha
      obtain ⟨rfl, rfl⟩ := hlines
      have hih := ih hsecond hfree
      constructor
      · cases front with
        | nil => simp
        | cons b front =>
          have hb : b ≠ newline := Ne.symm (ne_of_not_mem_cons hfree)
          simp [hb]
      · constructor
        · rintro ⟨line, hline, hpre⟩
          rw [hsecond] at hline
          rcases mem_cons.mp hline with rfl | hline
          · exact ⟨[], text, rfl, hih.1.mp hpre⟩
          · obtain ⟨before, after, rfl, hafter⟩ := hih.2.mp ⟨line, hline, hpre⟩
            exact ⟨newline :: before, after, rfl, hafter⟩
        · rintro ⟨before, after, htext, hpre⟩
          cases before with
          | nil =>
            obtain ⟨-, rfl⟩ := List.cons.inj htext
            exact ⟨second, by simp [hsecond], hih.1.mpr hpre⟩
          | cons b before =>
            obtain ⟨-, htext⟩ := List.cons.inj htext
            obtain ⟨line, hline, hpre⟩ := hih.2.mpr ⟨before, after, htext, hpre⟩
            exact ⟨line, by simp [hsecond, hline], hpre⟩
    · rw [lines_cons_of_ne ha hsecond, List.cons.injEq] at hlines
      obtain ⟨rfl, rfl⟩ := hlines
      constructor
      · cases front with
        | nil => simp
        | cons b front =>
          rw [cons_prefix_cons, cons_prefix_cons, (ih hsecond (not_mem_of_not_mem_cons hfree)).1]
      · rw [(ih hsecond hfree).2]
        constructor
        · rintro ⟨before, after, rfl, hpre⟩
          exact ⟨a :: before, after, rfl, hpre⟩
        · rintro ⟨before, after, htext, hpre⟩
          cases before with
          | nil => exact absurd (List.cons.inj htext).1 ha
          | cons b before => exact ⟨before, after, (List.cons.inj htext).2, hpre⟩

theorem not_mem_of_mem_lines {text line : Text} (h : line ∈ lines text) : newline ∉ line := by
  induction text generalizing line with
  | nil =>
    rw [lines, mem_singleton] at h
    simp [h]
  | cons a text ih =>
    obtain ⟨first, later, hlines⟩ := exists_cons_of_ne_nil (lines_ne_nil text)
    by_cases ha : a = newline
    · rw [ha, lines_newline] at h
      rcases mem_cons.mp h with rfl | h
      · exact not_mem_nil
      · exact ih h
    · rw [lines_cons_of_ne ha hlines] at h
      rw [hlines] at ih
      rcases mem_cons.mp h with rfl | h
      · rw [mem_cons, not_or]
        exact ⟨Ne.symm ha, ih mem_cons_self⟩
      · exact ih (mem_cons_of_mem _ h)

/-! ## When an entry's lines are genuine -/

/-- In `text`, followed by `tail`, a newline brings a party's label to the front of a line. -/
def Forges (text tail : Text) : Prop :=
  ∃ before after, ∃ party : Party, text = before ++ newline :: after ∧
    newline ∉ party.opening ∧ party.opening <+: after ++ tail

/-- An entry's lines are genuine: a party's label stands at the front of its first line only
where the party said it, and after no newline. -/
theorem genuine_entry_iff (author : Option Party) (entry : Text) :
    (∀ line ∈ markedLines author entry, ∀ party : Party,
      party.opening <+: line.2 → line.1 = some party) ↔
    (∀ party : Party, newline ∉ party.opening → party.opening <+: entry → author = some party) ∧
      ¬ Forges entry [] := by
  obtain ⟨first, later, hlines⟩ := exists_cons_of_ne_nil (lines_ne_nil entry)
  have hmarked : markedLines author entry =
      (author, first) :: later.map fun line => (none, line) := by
    rw [markedLines, hlines]
  have hfree : ∀ party : Party, ∀ line ∈ first :: later, party.opening <+: line →
      newline ∉ party.opening := by
    intro party line hline hpre hmem
    rw [← hlines] at hline
    exact not_mem_of_mem_lines hline (hpre.subset hmem)
  rw [hmarked, forall_mem_cons, forall_mem_map]
  constructor
  · rintro ⟨hfirst, hlater⟩
    refine ⟨fun party hnl hpre => hfirst party ((front_of_lines hlines hnl).1.mpr hpre), ?_⟩
    rintro ⟨before, after, party, hentry, hnl, hpre⟩
    rw [append_nil] at hpre
    obtain ⟨line, hline, hopen⟩ := (front_of_lines hlines hnl).2.mpr ⟨before, after, hentry, hpre⟩
    exact absurd (hlater line hline party hopen) (by simp)
  · rintro ⟨hfirst, hforges⟩
    constructor
    · intro party hpre
      have hnl := hfree party first mem_cons_self hpre
      exact hfirst party hnl ((front_of_lines hlines hnl).1.mp hpre)
    · intro line hline party hpre
      have hnl := hfree party line (mem_cons_of_mem _ hline) hpre
      obtain ⟨before, after, hentry, hopen⟩ := (front_of_lines hlines hnl).2.mp ⟨line, hline, hpre⟩
      exact absurd ⟨before, after, party, hentry, hnl, by rwa [append_nil]⟩ hforges

/-- After every newline stands a space. -/
def Indented (text : Text) : Prop :=
  ∀ before after, text = before ++ newline :: after → ∃ rest, after = 0x20 :: rest

theorem indented_of_not_mem {text : Text} (h : newline ∉ text) : Indented text := by
  rintro before after rfl
  exact absurd (mem_append_right _ mem_cons_self) h

theorem indented_quoted (value : Text) (max : Nat) : Indented (quoted value max) := by
  unfold quoted Indented
  induction truncate value max with
  | nil => simp
  | cons a text ih =>
    intro before after h
    rw [flatMap_cons] at h
    split at h
    · simp only [cons_append] at h
      match before, h with
      | [], h => exact ⟨_, (List.cons.inj h).2.symm⟩
      | [_], h => exact absurd (List.cons.inj (List.cons.inj h).2).1 (by decide)
      | [_, _], h =>
        exact absurd (List.cons.inj (List.cons.inj (List.cons.inj h).2).2).1 (by decide)
      | _ :: _ :: _ :: before, h =>
        exact ih before after (List.cons.inj (List.cons.inj (List.cons.inj h).2).2).2
    · next ha =>
        cases before with
        | nil => exact absurd (List.cons.inj h).1 ha
        | cons b before => exact ih before after (List.cons.inj h).2

theorem newline_after_head {head text before after : Text} (hhead : newline ∉ head)
    (h : head ++ text = before ++ newline :: after) : ∃ mid, text = mid ++ newline :: after := by
  rcases append_eq_append_iff.mp h with ⟨mid, -, htext⟩ | ⟨mid, hmid, htext⟩
  · exact ⟨mid, htext⟩
  · cases mid with
    | nil => exact ⟨[], by simpa using htext.symm⟩
    | cons b mid =>
      obtain ⟨rfl, -⟩ := List.cons.inj htext
      rw [hmid] at hhead
      exact absurd (mem_append_right _ mem_cons_self) hhead

theorem newline_of_append {text tail before after : Text}
    (h : text ++ tail = before ++ newline :: after) :
    (∃ later, text = before ++ newline :: later ∧ after = later ++ tail) ∨
      ∃ later, tail = later ++ newline :: after := by
  rcases append_eq_append_iff.mp h with ⟨mid, -, htail⟩ | ⟨mid, hmid, htail⟩
  · exact .inr ⟨mid, htail⟩
  · cases mid with
    | nil => exact .inr ⟨[], by simpa using htail.symm⟩
    | cons b mid =>
      obtain ⟨rfl, rfl⟩ := List.cons.inj htail
      exact .inl ⟨mid, hmid, rfl⟩

/-- A text without newlines before an indented one is indented. -/
theorem Indented.append {head text : Text} (h : Indented text) (hhead : newline ∉ head) :
    Indented (head ++ text) := by
  intro before after heq
  obtain ⟨mid, htext⟩ := newline_after_head hhead heq
  exact h mid after htext

/-- How a label begins. -/
theorem opening_cases (party : Party) : (party = .person ∧ ∃ rest, party.opening = 0x50 :: rest) ∨
    (∃ rest, party.opening = 0x41 :: rest) ∨
    (party = .sender .assistant ∧ ∃ rest, party.opening = 0x54 :: 0x68 :: rest) ∨
    (∃ rest, party.opening = 0x57 :: rest) := by
  match party with
  | .person => exact .inl ⟨rfl, _, rfl⟩
  | .agent => exact .inr (.inl ⟨_, rfl⟩)
  | .sender (.agent sessionId) => exact .inr (.inl ⟨_, rfl⟩)
  | .sender .assistant => exact .inr (.inr (.inl ⟨rfl, _, rfl⟩))
  | .sender (.workflow workflowName) => exact .inr (.inr (.inr ⟨_, rfl⟩))

/-- **What is written between a line's beginning and an indented tail**: only in there can a
newline bring a label to the front. -/
theorem forges_iff {head text tail : Text} (hhead : newline ∉ head) (htail : Indented tail) :
    Forges (head ++ (text ++ tail)) [] ↔ Forges text tail := by
  constructor
  · rintro ⟨before, after, party, heq, hnl, hpre⟩
    rw [append_nil] at hpre
    obtain ⟨mid, hmid⟩ := newline_after_head hhead heq
    rcases newline_of_append hmid with ⟨later, rfl, rfl⟩ | ⟨later, hlater⟩
    · exact ⟨mid, later, party, rfl, hnl, hpre⟩
    · obtain ⟨rest, rfl⟩ := htail later after hlater
      rcases opening_cases party with ⟨-, _, h⟩ | ⟨_, h⟩ | ⟨-, _, h⟩ | ⟨_, h⟩ <;>
        simp [h] at hpre
  · rintro ⟨before, after, party, rfl, hnl, hpre⟩
    exact ⟨head ++ before, after ++ tail, party, by simp, hnl, by rwa [append_nil]⟩

theorem newline_not_mem_digits (n : Nat) : newline ∉ ofString n.repr := by
  intro h
  obtain ⟨c, hc, hu⟩ := mem_map.mp h
  rw [Nat.toList_repr] at hc
  have hdigit := Nat.isDigit_of_mem_toDigits (by decide) (by decide) hc
  simp only [Char.isDigit, Bool.and_eq_true, decide_eq_true_iff] at hdigit
  have hlow : 48 ≤ c.toNat := hdigit.1
  have hhigh : c.toNat ≤ 57 := hdigit.2
  have hten : (UInt16.ofNat c.toNat).toNat = 10 := congrArg UInt16.toNat hu
  rw [UInt16.toNat_ofNat'] at hten
  omega

theorem newline_not_mem_decimal (n : Int) : newline ∉ decimal n := by
  unfold decimal
  cases n with
  | ofNat n => exact newline_not_mem_digits n
  | negSucc n =>
    rw [show toString (Int.negSucc n) = "-" ++ Nat.repr (n + 1) from rfl]
    simp only [ofString, String.toList_append, map_append, mem_append, not_or]
    exact ⟨by decide, newline_not_mem_digits (n + 1)⟩

theorem newline_not_mem_exitText (exitCode : Option Int) : newline ∉ exitText exitCode := by
  cases exitCode with
  | none => exact not_mem_nil
  | some code =>
    simp only [exitText, mem_append, not_or]
    exact ⟨⟨by decide, newline_not_mem_decimal code⟩, by decide⟩

/-! ## Items that forge nothing -/

/-- No newline in what the item brings in as it is puts a party's label to the front of a
line, and a sender's line cannot be read as another party's. -/
def Harmless : TurnItem → Prop
  | .inboundMessage sender text =>
    ¬ Forges (senderLabel sender) (ofString ": " ++ quoted text LINE_MAX) ∧
      ∀ party : Party, newline ∉ party.opening →
        party.opening <+: senderLabel sender ++ (ofString ": " ++ quoted text LINE_MAX) →
        party = .sender sender
  | .taskNotification taskType taskId summary =>
    ¬ Forges (taskType ++ ofString " " ++ taskId) (ofString "): " ++ quoted summary 400)
  | .command command exitCode =>
    ¬ Forges (truncate command 300) (ofString "`" ++ exitText exitCode)
  | .fileChange path => ¬ Forges path []
  | .notice text => ¬ Forges (truncate text 400) (ofString ")")
  | _ => True

/-- The lines of an entry are genuine. -/
def Fine (author : Option Party) (entry : Text) : Prop :=
  (∀ party : Party, newline ∉ party.opening → party.opening <+: entry → author = some party) ∧
    ¬ Forges entry []

theorem not_opening {a : UInt16} {rest : Text} {party : Party}
    (ha : a ≠ 0x50 ∧ a ≠ 0x41 ∧ a ≠ 0x54 ∧ a ≠ 0x57) : ¬ party.opening <+: a :: rest := by
  rcases opening_cases party with ⟨-, _, h⟩ | ⟨_, h⟩ | ⟨-, _, h⟩ | ⟨_, h⟩ <;>
    simp [h, ha.1.symm, ha.2.1.symm, ha.2.2.1.symm, ha.2.2.2.symm]

theorem not_forges_of_indented {entry : Text} (h : Indented entry) : ¬ Forges entry [] := by
  intro hforges
  have hiff := @forges_iff [] [] entry not_mem_nil h
  obtain ⟨before, after, party, hnil, -⟩ := hiff.mp hforges
  simp at hnil

/-- A line that opens with a character of no label, and what it brings in. -/
theorem fine_iff {author : Option Party} {a : UInt16} {head text tail : Text}
    (ha : a ≠ 0x50 ∧ a ≠ 0x41 ∧ a ≠ 0x54 ∧ a ≠ 0x57) (hhead : newline ∉ a :: head)
    (htail : Indented tail) : Fine author (a :: head ++ (text ++ tail)) ↔ ¬ Forges text tail := by
  unfold Fine
  rw [forges_iff hhead htail]
  exact ⟨fun h => h.2, fun h => ⟨fun _ _ hpre => absurd hpre (not_opening ha), h⟩⟩

theorem fine_of_indented {author : Option Party} {entry : Text}
    (hfirst : ∀ party : Party, party.opening <+: entry → author = some party)
    (h : Indented entry) : Fine author entry :=
  ⟨fun party _ => hfirst party, not_forges_of_indented h⟩

theorem fine_person (text : Text) :
    Fine (some .person) (ofString "Person: " ++ quoted text LINE_MAX) := by
  refine fine_of_indented (fun party hpre => ?_) ((indented_quoted _ _).append (by decide))
  rw [show ofString "Person: " = 0x50 :: ofString "erson: " from rfl] at hpre
  rcases opening_cases party with ⟨rfl, _⟩ | ⟨_, h⟩ | ⟨-, _, h⟩ | ⟨_, h⟩
  · rfl
  all_goals simp [h] at hpre

theorem fine_agent (text : Text) :
    Fine (some .agent) (ofString "Agent: " ++ quoted text LINE_MAX) := by
  refine fine_of_indented (fun party hpre => ?_) ((indented_quoted _ _).append (by decide))
  have hagent : ofString "Agent: " = [0x41, 0x67, 0x65, 0x6E, 0x74, 0x3A, 0x20] := rfl
  match party with
  | .agent => rfl
  | .sender (.agent sessionId) =>
    have hlabel : ofString "Agent in session " =
        [0x41, 0x67, 0x65, 0x6E, 0x74, 0x20] ++ ofString "in session " := rfl
    rw [Party.opening, Party.label, senderLabel, hlabel, hagent] at hpre
    simp at hpre
  | .person =>
    rw [show Party.person.opening = 0x50 :: ofString "erson: " from rfl, hagent] at hpre
    simp at hpre
  | .sender .assistant =>
    rw [show (Party.sender .assistant).opening = 0x54 :: ofString "he person's assistant: "
      from rfl, hagent] at hpre
    simp at hpre
  | .sender (.workflow workflowName) =>
    rw [show (Party.sender (.workflow workflowName)).opening =
      0x57 :: (ofString "orkflow " ++ workflowName ++ ofString ": ") from rfl, hagent] at hpre
    simp at hpre

/-- A sender's entry is fine as the condition says. -/
theorem fine_inbound (sender : InboundSender) (text : Text) : Fine (some (.sender sender))
        (senderLabel sender ++ (ofString ": " ++ quoted text LINE_MAX)) ↔
      Harmless (.inboundMessage sender text) := by
  have hforges := @forges_iff [] (senderLabel sender) (ofString ": " ++ quoted text LINE_MAX)
    not_mem_nil ((indented_quoted _ _).append (by decide))
  rw [nil_append] at hforges
  unfold Fine Harmless
  rw [hforges]
  constructor
  · rintro ⟨hfirst, hnot⟩
    exact ⟨hnot, fun party hnl hpre => (Option.some.inj (hfirst party hnl hpre)).symm⟩
  · rintro ⟨hnot, hfirst⟩
    exact ⟨fun party hnl hpre => congrArg some (hfirst party hnl hpre).symm, hnot⟩

variable {total : Nat} {st : Telling} {item : TurnItem}

/-- **An item's entries are fine where it is harmless.** -/
theorem fine_entries_iff (hnamed : entries total st item ≠ []) :
    (∀ entry ∈ entries total st item, Fine item.author entry) ↔ Harmless item := by
  cases item with
  | userMessage text => simp [entries, TurnItem.author, Harmless, fine_person]
  | inboundMessage sender text =>
    simp only [entries, forall_mem_singleton]
    exact fine_inbound sender text
  | taskNotification taskType taskId summary =>
    simp only [entries, forall_mem_singleton]
    exact fine_iff (a := 0x4E) (by decide) (by decide)
      ((indented_quoted _ _).append (by decide))
  | assistantMessage completed text =>
    simp only [entries, TurnItem.author, Harmless]
    split
    · simp [fine_agent]
    · simp
  | command command exitCode =>
    have htail : newline ∉ ofString "`" ++ exitText exitCode := by
      rw [mem_append, not_or]
      exact ⟨by decide, newline_not_mem_exitText exitCode⟩
    have hlast : Fine none (ofString "- ran `" ++
        (truncate command 300 ++ (ofString "`" ++ exitText exitCode))) ↔
          Harmless (.command command exitCode) :=
      fine_iff (a := 0x2D) (by decide) (by decide) (indented_of_not_mem htail)
    have hcount : Fine none (ofString "- ran " ++ decimal total ++
        ofString " commands; the last " ++ decimal (min total COMMANDS_SHOWN : Nat) ++
        ofString ":") := by
      refine fine_of_indented (fun party hpre => ?_) (indented_of_not_mem ?_)
      · exact absurd hpre (not_opening (a := 0x2D) (by decide))
      simp only [mem_append, not_or]
      exact ⟨⟨⟨⟨by decide, newline_not_mem_decimal _⟩, by decide⟩, newline_not_mem_decimal _⟩,
        by decide⟩
    simp only [entries] at hnamed ⊢
    split at hnamed
    · exact absurd rfl hnamed
    · next hshown =>
        rw [if_neg hshown, forall_mem_append, forall_mem_singleton]
        refine ⟨fun h => hlast.mp h.2, fun h => ⟨?_, hlast.mpr h⟩⟩
        split
        · exact forall_mem_singleton.mpr hcount
        · exact forall_mem_nil _
  | fileChange path =>
    simp only [entries] at hnamed ⊢
    split at hnamed
    · exact absurd rfl hnamed
    · next hnew =>
        rw [if_neg hnew, forall_mem_singleton]
        exact fine_iff (a := 0x2D) (by decide) (by decide) (indented_of_not_mem not_mem_nil)
  | notice text =>
    simp only [entries, forall_mem_singleton]
    exact @fine_iff none 0x28 [] (truncate text 400) (ofString ")") (by decide) (by decide)
      (indented_of_not_mem (by decide))
  | other => exact absurd rfl hnamed

/-! ## Which items are told -/

/-- Only the last commands are named, and a changed path the first time. -/
def Named (before after : List TurnItem) : TurnItem → Prop
  | .command .. => after.countP TurnItem.isCommand < COMMANDS_SHOWN
  | .fileChange path => .fileChange path ∉ before
  | _ => True

/-- The state after the items `before`. -/
structure Telling.Told (st : Telling) (before : List TurnItem) : Prop where
  ran : st.ran = before.countP TurnItem.isCommand
  changed : ∀ path, path ∈ st.changed ↔ .fileChange path ∈ before

theorem Telling.Told.after {before : List TurnItem} (h : st.Told before) (item : TurnItem) :
    (st.after item).Told (before ++ [item]) := by
  constructor
  · rw [countP_append, ← h.ran]
    cases item with
    | fileChange path =>
      simp only [Telling.after]
      split <;> rfl
    | _ => rfl
  · intro path
    rw [mem_append, mem_singleton, ← h.changed]
    cases item with
    | fileChange other =>
      simp only [Telling.after, TurnItem.fileChange.injEq]
      split
      · next hmem =>
          have hmem := contains_iff_mem.mp hmem
          exact ⟨.inl, fun hor => hor.elim id fun heq => heq ▸ hmem⟩
      · simp
    | _ => simp [Telling.after]

/-- **An item has a fine entry or none, exactly where it is harmless or not named.** -/
theorem fine_iff_of_named {before after : List TurnItem} (h : st.Told before)
    (htotal : total = (before ++ item :: after).countP TurnItem.isCommand) :
    (∀ entry ∈ entries total st item, Fine item.author entry) ↔
      (Named before after item → Harmless item) := by
  have hran := h.ran
  by_cases hnone : entries total st item = []
  · rw [hnone]
    refine ⟨fun _ hnamed => ?_, fun _ => forall_mem_nil _⟩
    cases item with
    | command command exitCode =>
      simp only [Named] at hnamed
      simp only [entries] at hnone
      rw [countP_append, countP_cons_of_pos rfl] at htotal
      split at hnone
      · omega
      · exact absurd hnone (by simp)
    | fileChange path =>
      simp only [entries] at hnone
      split at hnone
      · next hmem => exact absurd ((h.changed path).mp (contains_iff_mem.mp hmem)) hnamed
      · exact absurd hnone (by simp)
    | assistantMessage completed text => trivial
    | userMessage text => trivial
    | other => trivial
    | inboundMessage sender text | taskNotification taskType taskId summary | notice text =>
      exact absurd hnone (by simp [entries])
  · rw [fine_entries_iff hnone]
    refine ⟨fun hharmless _ => hharmless, fun himp => himp ?_⟩
    cases item with
    | command command exitCode =>
      simp only [entries] at hnone
      simp only [Named]
      rw [countP_append, countP_cons_of_pos rfl] at htotal
      split at hnone
      · exact absurd rfl hnone
      · omega
    | fileChange path =>
      simp only [entries] at hnone
      split at hnone
      · exact absurd rfl hnone
      · next hnew =>
          exact fun hmem => hnew (contains_iff_mem.mpr ((h.changed path).mpr hmem))
    | _ => trivial

theorem fine_toldFrom_iff {before items : List TurnItem} (h : st.Told before)
    (htotal : total = (before ++ items).countP TurnItem.isCommand) :
    (∀ pair ∈ toldFrom total st items, Fine pair.1.author pair.2) ↔
      ∀ mid item after, items = mid ++ item :: after → Named (before ++ mid) after item →
        Harmless item := by
  induction items generalizing st before with
  | nil => simp [toldFrom]
  | cons item items ih =>
    have hrest := ih (h.after item) (by rw [htotal, append_assoc, singleton_append])
    rw [toldFrom, forall_mem_append, forall_mem_map, hrest, fine_iff_of_named h htotal]
    constructor
    · rintro ⟨hitem, hitems⟩ mid next after hsplit hnamed
      cases mid with
      | nil =>
        obtain ⟨rfl, rfl⟩ := List.cons.inj hsplit
        exact hitem (by simpa using hnamed)
      | cons first mid =>
        obtain ⟨hfirst, htail⟩ := List.cons.inj hsplit
        subst hfirst
        exact hitems mid next after htail (by simpa using hnamed)
    · intro hall
      refine ⟨fun hnamed => hall [] item items rfl (by simpa using hnamed), ?_⟩
      intro mid next after hsplit hnamed
      exact hall (item :: mid) next after (by rw [hsplit, cons_append])
        (by simpa using hnamed)

theorem fine_turnLine (ordinal : Nat) : Fine none (turnLine ordinal) := by
  refine fine_of_indented (fun party hpre => ?_) (indented_of_not_mem ?_)
  · rw [turnLine, show ofString "Turn " = 0x54 :: 0x75 :: ofString "rn " from rfl] at hpre
    rcases opening_cases party with ⟨-, _, h⟩ | ⟨_, h⟩ | ⟨-, _, h⟩ | ⟨_, h⟩ <;>
      simp [h] at hpre
  · rw [turnLine, mem_append, not_or]
    exact ⟨by decide, newline_not_mem_decimal _⟩

end Catamorphic.Sessions.Handoff
