import Catamorphic.Lib.JsString
import Catamorphic.Lib.Maps

/-!
# The environment file

A sandbox's shells and its runner load one file: a line for each variable, its value in single
quotes, newlines included. What is read back is what was written, but for one name that an object
of the language does not keep.
-/

namespace Catamorphic.Runner.EnvFile

open Maps List

def quote : UInt16 := 0x27
def backslash : UInt16 := 0x5C
def newline : UInt16 := 0x0A
def equals : UInt16 := 0x3D

/-- `[A-Za-z_]` -/
def isNameStart (unit : UInt16) : Bool :=
  (0x41 ≤ unit && unit ≤ 0x5A) || (0x61 ≤ unit && unit ≤ 0x7A) || unit = 0x5F

/-- `[A-Za-z0-9_]` -/
def isNamePart (unit : UInt16) : Bool := isNameStart unit || (0x30 ≤ unit && unit ≤ 0x39)

/-- `NAME.test(name)` -/
def isName : Text → Bool
  | [] => false
  | first :: rest => isNameStart first && rest.all isNamePart

/-! ## Writing -/

/-- Each quote closes the run, stands escaped, and opens the next. -/
def inQuotes (value : Text) : Text :=
  value.flatMap fun unit => if unit = quote then [quote, backslash, quote, quote] else [unit]

def shellSingleQuote (value : Text) : Text := quote :: inQuotes value ++ [quote]

def exports : Text := Text.ofString "export "

def formatEntry (entry : Text × Text) : Except Text Text :=
  if isName entry.1 then
    .ok (exports ++ entry.1 ++ [equals] ++ shellSingleQuote entry.2 ++ [newline])
  else .error ([quote] ++ entry.1 ++ Text.ofString "' is not an environment variable name")

/-- From the record's entries, in their order. -/
def formatEnvFile (record : List (Text × Text)) : Except Text Text :=
  (record.mapM formatEntry).map List.flatten

/-! ## Reading -/

/-- The name that a line sets: `/^export ([A-Za-z_][A-Za-z0-9_]*)=/`. -/
def assigned (line : Text) : Option Text :=
  if exports.isPrefixOf line then
    let rest := line.drop exports.length
    let name := rest.takeWhile isNamePart
    if isName name && (rest.drop name.length).head? = some equals then some name else none
  else none

/-- What stands before the next quote, and what follows it. -/
def closing (text : Text) : Option (Text × Text) :=
  match text.dropWhile (· ≠ quote) with
  | [] => none
  | _ :: after => some (text.takeWhile (· ≠ quote), after)

theorem closing_length {text inside after : Text} (h : closing text = some (inside, after)) :
    after.length < text.length := by
  unfold closing at h
  split at h
  · cases h
  · next first rest hdrop =>
    obtain ⟨-, rfl⟩ := Prod.mk.inj (Option.some.inj h)
    have hle := (dropWhile_suffix (· ≠ quote) (l := text)).length_le
    rw [hdrop, length_cons] at hle
    exact hle

/-- Quoted runs and escapes, until the assignment's end of line: the value, whether it is complete,
and the text from where the reading stands. -/
def readValue (text value : Text) : Text × Bool × Text :=
  match text with
  | [] => (value, true, [])
  | char :: rest =>
    if char = quote then
      match _h : closing rest with
      | none => (value, false, char :: rest)
      | some (inside, after) => readValue after (value ++ inside)
    else if char = backslash then
      match rest with
      | [] => (value, false, [char])
      | escaped :: after => readValue after (value ++ [escaped])
    else (value, char = newline, char :: rest)
termination_by text.length
decreasing_by
  · have := closing_length _h
    simp only [length_cons]
    omega
  · simp only [length_cons]
    omega

section

variable {text value inside after rest : Text} {char : UInt16}

theorem readValue_nil : readValue [] value = (value, true, []) := by rw [readValue]

theorem readValue_quoted (h : closing rest = some (inside, after)) :
    readValue (quote :: rest) value = readValue after (value ++ inside) := by
  rw [readValue.eq_def]
  dsimp only
  rw [if_pos rfl]
  split
  · next hnone => rw [hnone] at h; cases h
  · next inside' after' hsome =>
    obtain ⟨rfl, rfl⟩ := Prod.mk.inj (Option.some.inj (hsome.symm.trans h))
    rfl

theorem readValue_unclosed (h : closing rest = none) :
    readValue (quote :: rest) value = (value, false, quote :: rest) := by
  rw [readValue.eq_def]
  dsimp only
  rw [if_pos rfl]
  split
  · rfl
  · next hsome => rw [hsome] at h; cases h

theorem readValue_escaped :
    readValue (backslash :: char :: rest) value = readValue rest (value ++ [char]) := by
  rw [readValue, if_neg (by decide), if_pos rfl]

theorem readValue_backslash : readValue [backslash] value = (value, false, [backslash]) := by
  rw [readValue, if_neg (by decide), if_pos rfl]

theorem readValue_other (hquote : char ≠ quote) (hbackslash : char ≠ backslash) :
    readValue (char :: rest) value = (value, decide (char = newline), char :: rest) := by
  rw [readValue.eq_def]
  dsimp only
  rw [if_neg hquote, if_neg hbackslash]

theorem readValue_length (text value : Text) : (readValue text value).2.2.length ≤ text.length := by
  induction text, value using readValue.induct with
  | case1 value => exact Nat.le_of_eq (by rw [readValue_nil])
  | case2 value rest hnone => exact Nat.le_of_eq (by rw [readValue_unclosed hnone])
  | case3 value rest inside after hsome ih =>
    rw [readValue_quoted hsome]
    exact Nat.le_trans ih (Nat.le_succ_of_le (Nat.le_of_lt (closing_length hsome)))
  | case4 value hquote => exact Nat.le_of_eq (by rw [readValue_backslash])
  | case5 value char rest hquote ih =>
    rw [readValue_escaped]
    exact Nat.le_trans ih (Nat.le_add_right _ 2)
  | case6 value char rest hquote hbackslash =>
    exact Nat.le_of_eq (by rw [readValue_other hquote hbackslash])

end

/-- What an object inherits under this name takes no string. -/
def inherited : Text := Text.ofString "__proto__"

/-- `variables[name] = value` -/
def assign (record : List (Text × Text)) (name value : Text) : List (Text × Text) :=
  if name = inherited then record else setAt record name value

/-- From the line after the one that the text begins in. -/
def nextLine (text : Text) : Text := (text.dropWhile (· ≠ newline)).drop 1

theorem nextLine_length (text : Text) : (nextLine text).length ≤ text.length := by
  rw [nextLine, length_drop]
  exact Nat.le_trans (Nat.sub_le _ _) (dropWhile_suffix _).length_le

theorem nextLine_cons_length (char : UInt16) (text : Text) :
    (nextLine (char :: text)).length ≤ text.length := by
  rw [nextLine, length_drop]
  have := (dropWhile_suffix (· ≠ newline) (l := char :: text)).length_le
  rw [length_cons] at this
  omega

/-- The lines from a position on. -/
def parseFrom (text : Text) (record : List (Text × Text)) : List (Text × Text) :=
  match text with
  | [] => record
  | char :: rest =>
    match assigned ((char :: rest).takeWhile (· ≠ newline)) with
    | none => parseFrom (nextLine (char :: rest)) record
    | some name =>
      let read := readValue ((char :: rest).drop (exports.length + name.length + 1)) []
      parseFrom (nextLine read.2.2)
        (if read.2.1 then assign record name read.1 else record)
termination_by text.length
decreasing_by
  · exact Nat.lt_succ_of_le (nextLine_cons_length char rest)
  · refine Nat.lt_of_le_of_lt (nextLine_length _) (Nat.lt_of_le_of_lt (readValue_length _ _) ?_)
    rw [length_drop, length_cons]
    omega

def parseEnvFile (text : Text) : List (Text × Text) := parseFrom text []

/-! ## What is written is read -/

section

variable {text name value tail : Text} {record : List (Text × Text)}

theorem parseFrom_assigned (h : assigned (text.takeWhile (· ≠ newline)) = some name) :
    parseFrom text record =
      parseFrom (nextLine (readValue (text.drop (exports.length + name.length + 1)) []).2.2)
        (if (readValue (text.drop (exports.length + name.length + 1)) []).2.1 then
          assign record name (readValue (text.drop (exports.length + name.length + 1)) []).1
        else record) := by
  cases text with
  | nil => cases h
  | cons char rest => rw [parseFrom, h]

theorem closing_append {run after : Text} (h : quote ∉ run) :
    closing (run ++ quote :: after) = some (run, after) := by
  have hrun : ∀ unit ∈ run, decide (unit ≠ quote) = true := fun unit hunit =>
    decide_eq_true fun heq => h (heq ▸ hunit)
  rw [closing, dropWhile_append_of_pos hrun, takeWhile_append_of_pos hrun]
  simp

theorem inQuotes_cons (unit : UInt16) (value : Text) : inQuotes (unit :: value) =
    (if unit = quote then [quote, backslash, quote, quote] else [unit]) ++ inQuotes value :=
  flatMap_cons ..

/-- In a run of quoted text, with `run` of it passed. -/
theorem readValue_run {run : Text} (h : quote ∉ run) (before : Text) :
    readValue (quote :: run ++ (inQuotes value ++ quote :: newline :: tail)) before =
      (before ++ run ++ value, true, newline :: tail) := by
  induction value generalizing run before with
  | nil =>
    have hclosed := @closing_append run (newline :: tail) h
    rw [inQuotes, flatMap_nil, nil_append, cons_append, readValue_quoted hclosed,
      readValue_other (by decide) (by decide), append_nil]
    rfl
  | cons unit value ih =>
    rw [inQuotes_cons]
    by_cases hunit : unit = quote
    · have hclosed := @closing_append run (backslash :: quote :: quote ::
        (inQuotes value ++ quote :: newline :: tail)) h
      have hnext := @ih [] not_mem_nil (before ++ run ++ [quote])
      rw [if_pos hunit]
      simp only [cons_append, nil_append, append_assoc] at hnext ⊢
      rw [readValue_quoted hclosed, readValue_escaped, append_assoc, hnext, hunit]
    · have hrun : quote ∉ run ++ [unit] := by
        rw [mem_append, mem_singleton]
        exact fun hmem => hmem.elim h fun heq => hunit heq.symm
      have hnext := ih hrun before
      rw [if_neg hunit]
      simp only [append_assoc, cons_append] at hnext ⊢
      exact hnext

theorem readValue_shellSingleQuote (value tail : Text) :
    readValue (shellSingleQuote value ++ newline :: tail) [] = (value, true, newline :: tail) := by
  have h := @readValue_run value tail [] not_mem_nil []
  simpa only [shellSingleQuote, nil_append, cons_append, append_assoc] using h

section

variable (h : isName name = true)
include h

theorem isNamePart_of_isName : ∀ unit ∈ name, isNamePart unit = true := by
  cases name with
  | nil => cases h
  | cons first rest =>
    obtain ⟨hfirst, hrest⟩ := Bool.and_eq_true_iff.mp h
    rintro unit (_ | ⟨_, hunit⟩)
    · rw [isNamePart, hfirst, Bool.true_or]
    · exact all_eq_true.mp hrest unit hunit

/-- An assignment's line, up to its value. -/
theorem assigned_append (rest : Text) :
    assigned (exports ++ name ++ [equals] ++ rest) = some name := by
  have hprefix : exports.isPrefixOf (exports ++ name ++ [equals] ++ rest) = true := by
    rw [List.isPrefixOf_iff_prefix, append_assoc, append_assoc]
    exact prefix_append _ _
  have htake : (name ++ ([equals] ++ rest)).takeWhile isNamePart = name := by
    rw [takeWhile_append_of_pos (isNamePart_of_isName h)]
    exact append_nil name
  rw [assigned, if_pos hprefix]
  simp only [append_assoc, drop_left]
  rw [htake, h, drop_left]
  rfl

theorem notNewline_of_isName :
    ∀ unit ∈ exports ++ name ++ [equals], decide (unit ≠ newline) = true := by
  intro unit hunit
  refine decide_eq_true ?_
  rintro rfl
  rcases mem_append.mp hunit with hunit | hunit
  · rcases mem_append.mp hunit with hunit | hunit
    · exact absurd hunit (by decide)
    · exact absurd (isNamePart_of_isName h _ hunit) (by decide)
  · exact absurd hunit (by decide)

/-- **A line that was written is read**, wherever the value breaks it. -/
theorem parseFrom_entry :
    parseFrom (exports ++ name ++ [equals] ++ shellSingleQuote value ++ [newline] ++ tail) record =
      parseFrom tail (assign record name value) := by
  have hline : assigned ((exports ++ name ++ [equals] ++ shellSingleQuote value ++ [newline] ++
      tail).takeWhile (· ≠ newline)) = some name := by
    rw [append_assoc, append_assoc, takeWhile_append_of_pos (notNewline_of_isName h)]
    exact assigned_append h _
  have hdrop : (exports ++ name ++ [equals] ++ shellSingleQuote value ++ [newline] ++ tail).drop
      (exports.length + name.length + 1) = shellSingleQuote value ++ newline :: tail := by
    rw [append_assoc, append_assoc]
    exact drop_left' (by simp; rfl)
  rw [parseFrom_assigned hline, hdrop, readValue_shellSingleQuote]
  rfl

end

end

/-! ## The file of a record -/

/-- A record of variables with names that a file may set. -/
structure EnvVariables where
  entries : List (Text × Text)
  distinct : Distinct entries
  named : ∀ entry ∈ entries, isName entry.1 = true

/-- The file that is written is the lines of the entries, one after the other. -/
theorem formatEnvFile_ok {record : List (Text × Text)}
    (h : ∀ entry ∈ record, isName entry.1 = true) :
    formatEnvFile record = .ok (record.flatMap fun entry =>
      exports ++ entry.1 ++ [equals] ++ shellSingleQuote entry.2 ++ [newline]) := by
  suffices hmap : record.mapM formatEntry = .ok (record.map fun entry =>
      exports ++ entry.1 ++ [equals] ++ shellSingleQuote entry.2 ++ [newline]) by
    rw [formatEnvFile, hmap, List.flatMap]
    rfl
  induction record with
  | nil => rfl
  | cons entry record ih =>
    rw [mapM_cons, ih (List.forall_mem_cons.mp h).2,
      formatEntry, if_pos (h entry (.head _))]
    rfl

theorem parseFrom_entries {entries record : List (Text × Text)}
    (h : ∀ entry ∈ entries, isName entry.1 = true) : parseFrom (entries.flatMap fun entry =>
      exports ++ entry.1 ++ [equals] ++ shellSingleQuote entry.2 ++ [newline]) record =
        entries.foldl (fun record entry => assign record entry.1 entry.2) record := by
  induction entries generalizing record with
  | nil => rw [flatMap_nil, parseFrom, foldl_nil]
  | cons entry entries ih =>
    rw [flatMap_cons, parseFrom_entry (h entry (.head _)),
      ih (List.forall_mem_cons.mp h).2, foldl_cons]

/-- Distinct names are put one after the other. -/
theorem foldl_assign {entries record : List (Text × Text)} (hdistinct : Distinct entries)
    (hnew : ∀ entry ∈ entries, ∀ other ∈ record, other.1 ≠ entry.1) :
    entries.foldl (fun record entry => assign record entry.1 entry.2) record =
      record ++ entries.filter (·.1 ≠ inherited) := by
  induction entries generalizing record with
  | nil => exact (append_nil record).symm
  | cons entry entries ih =>
    obtain ⟨hfirst, hrest⟩ := pairwise_cons.mp hdistinct
    rw [foldl_cons, assign]
    by_cases hname : entry.1 = inherited
    · rw [if_pos hname, filter_cons_of_neg (by simpa using hname),
        ih hrest (List.forall_mem_cons.mp hnew).2]
    · have hset : setAt record entry.1 entry.2 = record ++ [entry] := by
        rw [setAt, if_neg]
        intro hany
        obtain ⟨other, hother, hsame⟩ := any_eq_true.mp hany
        exact hnew entry (.head _) other hother (of_decide_eq_true hsame)
      rw [if_neg hname, filter_cons_of_pos (by simpa using hname), hset, ih hrest,
        append_assoc, singleton_append]
      intro other hother had hhad
      rcases mem_append.mp hhad with hhad | hhad
      · exact hnew other (mem_cons_of_mem _ hother) had hhad
      · obtain rfl := mem_singleton.mp hhad
        exact hfirst other hother

/-- **The file of a record is read as the record**, but for the variable that is not kept. -/
theorem parseEnvFile_formatEnvFile (vars : EnvVariables) : ∃ file,
    formatEnvFile vars.entries = .ok file ∧
      parseEnvFile file = vars.entries.filter (·.1 ≠ inherited) := by
  refine ⟨_, formatEnvFile_ok vars.named, ?_⟩
  rw [parseEnvFile, parseFrom_entries vars.named,
    foldl_assign vars.distinct fun _ _ other hother => absurd hother not_mem_nil]
  rfl

/-- What is written is read back, and nothing else. -/
def RoundTrips (vars : EnvVariables) : Prop :=
  ∃ file, formatEnvFile vars.entries = .ok file ∧ parseEnvFile file = vars.entries ∧
    ∀ entry ∈ parseEnvFile file, entry.1 ∈ vars.entries.map Prod.fst

/-- **A record is read back exactly if none of its variables has the name that is not kept.** -/
theorem roundTrips_iff (vars : EnvVariables) :
    RoundTrips vars ↔ ∀ entry ∈ vars.entries, entry.1 ≠ inherited := by
  obtain ⟨file, hfile, hparse⟩ := parseEnvFile_formatEnvFile vars
  constructor
  · rintro ⟨other, hother, hsame, -⟩ entry hentry
    obtain rfl := Except.ok.inj (hfile.symm.trans hother)
    rw [hparse] at hsame
    exact of_decide_eq_true (filter_eq_self.mp hsame entry hentry)
  · intro h
    have hsame : parseEnvFile file = vars.entries := by
      rw [hparse, filter_eq_self]
      exact fun entry hentry => decide_eq_true (h entry hentry)
    refine ⟨file, hfile, hsame, fun entry hentry => ?_⟩
    rw [hsame] at hentry
    exact mem_map_of_mem hentry

/-- `{ ["__proto__"]: "x" }` -/
def lostVariable : EnvVariables where
  entries := [(inherited, Text.ofString "x")]
  distinct := pairwise_singleton _ _
  named := by decide

theorem lostVariable_not_read : ¬ RoundTrips lostVariable := by
  obtain ⟨file, hfile, hparse⟩ := parseEnvFile_formatEnvFile lostVariable
  rintro ⟨other, hother, hsame, -⟩
  obtain rfl := Except.ok.inj (hfile.symm.trans hother)
  rw [hparse] at hsame
  exact absurd hsame (by decide)

end Catamorphic.Runner.EnvFile
