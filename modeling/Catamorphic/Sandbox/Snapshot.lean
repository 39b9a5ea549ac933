import Catamorphic.Lib.CodeUnits
import Catamorphic.Lib.Utf8Encode

/-!
# Reading a sandbox's changes

Git lists what changed in a sandbox, a status and a path on a line. A path with unusual characters
comes quoted like a string of C, its other characters as they are. Reading takes the quotes off, a
code unit at a time.
-/

namespace Catamorphic.SandboxSync

open List

/-! ## Reading -/

inductive Kind
  | modified
  | deleted
  deriving DecidableEq

structure SyncedFileChange where
  path : Text
  kind : Kind
  deriving DecidableEq

/-- `new TextEncoder().encode(char)`, of one code unit: half of a pair is no character. -/
def encodeUnit (unit : UInt16) : List UInt8 :=
  Utf8.encode
    [if Text.isHigh unit || Text.isLow unit then Utf8.replacement else Char.ofNat unit.toNat]

/-- `a`, `b`, `t`, `n`, `v`, `f`, `r`, the quote and the backslash. -/
def escapes : List (UInt16 × UInt8) :=
  [(0x61, 7), (0x62, 8), (0x74, 9), (0x6E, 10), (0x76, 11), (0x66, 12), (0x72, 13), (0x22, 34),
    (0x5C, 92)]

def isOctal (unit : UInt16) : Bool := 0x30 ≤ unit.toNat && unit.toNat ≤ 0x37

/-- `Number.parseInt(digits, 8)`, which reads digits as far as they go. -/
def parseOctal (digits : Text) : Nat :=
  (digits.takeWhile isOctal).foldl (fun value digit => value * 8 + (digit.toNat - 0x30)) 0

/-- `escapes[next] ?? next.charCodeAt(0)`, as a byte. -/
def escapeOf (next : UInt16) : UInt8 :=
  ((escapes.find? fun escape => escape.1 = next).map Prod.snd).getD (UInt8.ofNat next.toNat)

/-- The bytes of what stands between the quotes. -/
def unquoteBody : Text → List UInt8
  | [] => []
  | unit :: body =>
    if unit ≠ 0x5C then encodeUnit unit ++ unquoteBody body
    else match body with
      | [] => [0]
      | next :: rest =>
        if isOctal next then
          UInt8.ofNat (parseOctal (next :: rest.take 2)) :: unquoteBody (rest.drop 2)
        else escapeOf next :: unquoteBody rest
termination_by body => body.length

/-- Git's C-style quoting of unusual paths. -/
def unquoteCPath (value : Text) : Text :=
  if value.head? ≠ some 0x22 || value.getLast? ≠ some 0x22 then value
  else Text.ofChars (Utf8.decodeText (unquoteBody (value.drop 1).dropLast))

def isSpaceUnit (unit : UInt16) : Bool := Text.isSpace (Char.ofNat unit.toNat)

/-- `text.trim()` -/
def trim (text : Text) : Text :=
  ((text.dropWhile isSpaceUnit).reverse.dropWhile isSpaceUnit).reverse

/-- `/^[0-9a-f]{40}$|^[0-9a-f]{64}$/` -/
def isTreeId (tree : Text) : Bool :=
  (tree.length = 40 || tree.length = 64) && tree.all fun unit =>
    0x30 ≤ unit.toNat && unit.toNat ≤ 0x39 || 0x61 ≤ unit.toNat && unit.toNat ≤ 0x66

/-- What a line lists; nothing where it has no tab, no status or no path. -/
def changeOf (line : Text) : Option SyncedFileChange :=
  if line.contains 0x09 then
    let status := trim (line.takeWhile (· ≠ 0x09))
    let path := unquoteCPath ((line.dropWhile (· ≠ 0x09)).drop 1)
    if status ≠ [] ∧ path ≠ [] then
      some ⟨path, if status.head? = some 0x44 then .deleted else .modified⟩
    else none
  else none

/-- The tree's id, and the changes that are listed after it. -/
def parseSnapshot (output : Text) : Option (Text × List SyncedFileChange) :=
  match Lines.lines 0x0A output ++ [Lines.rest 0x0A output] with
  | [] => none
  | first :: lines =>
    let tree := trim first
    if isTreeId tree then some (tree, lines.filterMap changeOf) else none

/-! ## What git prints -/

/-- The statuses of `diff-tree` where renames are not looked for. -/
inductive Status
  | added
  | modified
  | deleted
  | typeChanged
  deriving DecidableEq

def Status.letter : Status → Char
  | .added => 'A'
  | .modified => 'M'
  | .deleted => 'D'
  | .typeChanged => 'T'

def Status.kind : Status → Kind
  | .deleted => .deleted
  | _ => .modified

/-- A character that git quotes a path for, with `core.quotePath=false`. -/
def unusual (c : Char) : Bool := c.toNat < 0x20 || c.toNat = 0x7F || c = '"' || c = '\\'

/-- The letter of a character that has one. -/
def letterOf (c : Char) : Option Char :=
  ([(7, 'a'), (8, 'b'), (9, 't'), (10, 'n'), (11, 'v'), (12, 'f'), (13, 'r'), (34, '"'),
    (92, '\\')].find? fun letter => letter.1 = c.toNat).map Prod.snd

def octalDigit (value : Nat) : Char := Char.ofNat (0x30 + value % 8)

/-- A character as git writes it between quotes. -/
def quoteChar (c : Char) : List Char :=
  if unusual c then
    '\\' :: match letterOf c with
      | some letter => [letter]
      | none => [octalDigit (c.toNat / 64), octalDigit (c.toNat / 8), octalDigit c.toNat]
  else [c]

def quoteCPath (path : List Char) : List Char :=
  if path.any unusual then '"' :: path.flatMap quoteChar ++ ['"'] else path

/-- `<status>\t<path>` -/
def statusLine (listed : Status × List Char) : List Char :=
  listed.1.letter :: '\t' :: quoteCPath listed.2

/-- The output of the snapshot script. -/
def printed (tree : List Char) (listed : List (Status × List Char)) : List Char :=
  Lines.join '\n' (tree :: listed.map statusLine)

/-! ## Taking the quotes off -/

/-- A character as it is read between quotes: half of a pair is not read at all. -/
def seen (c : Char) : List Char :=
  if Text.Basic c then [c] else [Utf8.replacement, Utf8.replacement]

section

variable {c : Char} {rest : Text} {unit : UInt16}

theorem unquoteBody_unit (h : unit ≠ 0x5C) :
    unquoteBody (unit :: rest) = encodeUnit unit ++ unquoteBody rest := by
  rw [unquoteBody.eq_def]
  exact if_pos h

theorem unquoteBody_octal {first second third : UInt16} (h : isOctal first = true) :
    unquoteBody (0x5C :: first :: second :: third :: rest) =
      UInt8.ofNat (parseOctal [first, second, third]) :: unquoteBody rest := by
  rw [unquoteBody.eq_def]
  simp [h]

theorem unquoteBody_letter {letter : UInt16} (h : isOctal letter = false) :
    unquoteBody (0x5C :: letter :: rest) = escapeOf letter :: unquoteBody rest := by
  rw [unquoteBody.eq_def]
  simp [h]

theorem encodeUnit_basic (h : Text.Basic c) : encodeUnit (Text.unitOf c) = Utf8.encode [c] := by
  obtain ⟨hhigh, hlow⟩ := Text.unitOf_plain h
  rw [encodeUnit, hhigh, hlow, Text.char_unitOf h]
  rfl

theorem encodeUnit_half (h : (Text.isHigh unit || Text.isLow unit) = true) :
    encodeUnit unit = Utf8.encode [Utf8.replacement] := by
  rw [encodeUnit, if_pos h]

theorem toNat_of_unusual (h : unusual c = true) : c.toNat < 0x80 := by
  simp only [unusual, Bool.or_eq_true, decide_eq_true_eq] at h
  rcases h with ((h | h) | rfl) | rfl
  · omega
  · omega
  · decide
  · decide

theorem letter_read (n : Fin 0x80) (letter : Char) (h : letterOf (Char.ofNat n) = some letter) :
    Text.Basic letter ∧ isOctal (Text.unitOf letter) = false ∧
      [escapeOf (Text.unitOf letter)] = Utf8.encode [Char.ofNat n] := by
  have hall : ∀ n : Fin 0x80, (letterOf (Char.ofNat n)).all fun letter =>
      Text.Basic letter ∧ isOctal (Text.unitOf letter) = false ∧
        [escapeOf (Text.unitOf letter)] = Utf8.encode [Char.ofNat n] := by
    decide +kernel
  have hn := hall n
  rw [h] at hn
  exact of_decide_eq_true hn

theorem octal_read : ∀ n : Fin 0x80, unusual (Char.ofNat n) = true →
    letterOf (Char.ofNat n) = none →
      let digits := [octalDigit (n / 64), octalDigit (n / 8), octalDigit n]
      (digits.all fun digit => Text.Basic digit) ∧ isOctal (Text.unitOf (octalDigit (n / 64))) = true ∧
        [UInt8.ofNat (parseOctal (digits.map Text.unitOf))] = Utf8.encode [Char.ofNat n] := by
  decide +kernel

/-- **A character that is quoted is read back**, unless it takes two units. -/
theorem unquoteBody_quoteChar (c : Char) (rest : Text) :
    unquoteBody (Text.ofChars (quoteChar c) ++ rest) =
      Utf8.encode (seen c) ++ unquoteBody rest := by
  rcases h : unusual c with _ | _
  · rw [quoteChar, h, if_neg Bool.false_ne_true, seen]
    by_cases hbasic : Text.Basic c
    · have hunit : Text.unitOf c ≠ 0x5C := by
        intro heq
        have hchar := Text.char_unitOf hbasic
        rw [heq] at hchar
        rw [← hchar] at h
        exact absurd h (by decide)
      rw [if_pos hbasic, Text.ofChars_basic hbasic, Text.ofChars_nil, cons_append,
        nil_append, unquoteBody_unit hunit, encodeUnit_basic hbasic]
    · have hhigh := Text.isHigh_highOf hbasic
      have hlow := Text.isLow_lowOf hbasic
      have hne : Text.highOf c ≠ 0x5C ∧ Text.lowOf c ≠ 0x5C :=
        ⟨fun heq => absurd (heq ▸ hhigh) (by decide), fun heq => absurd (heq ▸ hlow) (by decide)⟩
      rw [if_neg hbasic, Text.ofChars_pair hbasic, Text.ofChars_nil, cons_append,
        cons_append, nil_append, unquoteBody_unit hne.1, unquoteBody_unit hne.2,
        encodeUnit_half (by rw [hhigh, Bool.true_or]), encodeUnit_half (by rw [hlow, Bool.or_true]),
        ← append_assoc]
      rfl
  · have hascii := toNat_of_unusual h
    have hbasic : Text.Basic c := Nat.lt_trans hascii (by decide)
    have hof : Char.ofNat c.toNat = c := Char.ofNat_toNat c
    rw [quoteChar, h, if_pos rfl, seen, if_pos hbasic, Text.ofChars_basic (by decide)]
    rcases hletter : letterOf c with _ | letter
    · have hread := octal_read ⟨c.toNat, hascii⟩ (by rw [hof]; exact h) (by rw [hof]; exact hletter)
      obtain ⟨hdigits, hoctal, hbyte⟩ := hread
      rw [hof] at hbyte
      simp only [all_cons, Bool.and_eq_true, decide_eq_true_eq] at hdigits
      rw [Text.ofChars_basic hdigits.1, Text.ofChars_basic hdigits.2.1,
        Text.ofChars_basic hdigits.2.2.1, Text.ofChars_nil, ← hbyte]
      exact unquoteBody_octal hoctal
    · obtain ⟨hletters, hoctal, hbyte⟩ :=
        letter_read ⟨c.toNat, hascii⟩ letter (by rw [hof]; exact hletter)
      rw [hof] at hbyte
      rw [Text.ofChars_basic hletters, Text.ofChars_nil, ← hbyte]
      exact unquoteBody_letter hoctal

theorem unquoteBody_quoted (path : List Char) :
    unquoteBody (Text.ofChars (path.flatMap quoteChar)) = Utf8.encode (path.flatMap seen) := by
  induction path with
  | nil => rw [unquoteBody.eq_def]; rfl
  | cons c path ih =>
    rw [flatMap_cons, Text.ofChars_append, unquoteBody_quoteChar, ih, flatMap_cons,
      Utf8.encode_append]

/-! ## Paths -/

/-- What a path is read back as. -/
def readBack (path : List Char) : List Char :=
  if path.any unusual then
    if path.head? = some '\uFEFF' then (path.flatMap seen).tail else path.flatMap seen
  else path

/-- **A path that is quoted can be read**: it has no character outside the basic plane, and does not
start with a byte-order mark. -/
def Readable (path : List Char) : Prop :=
  path.any unusual = true → (∀ c ∈ path, Text.Basic c) ∧ path.head? ≠ some '\uFEFF'

variable {path : List Char}

theorem seen_eq (h : ∀ c ∈ path, Text.Basic c) : path.flatMap seen = path := by
  induction path with
  | nil => rfl
  | cons c path ih =>
    rw [flatMap_cons, ih (forall_mem_cons.mp h).2, seen, if_pos (h c (.head _))]
    rfl

theorem basic_of_mem_seen (h : c ∈ path.flatMap seen) : Text.Basic c := by
  obtain ⟨d, -, hd⟩ := mem_flatMap.mp h
  rw [seen] at hd
  split at hd
  · next hbasic => exact mem_singleton.mp hd ▸ hbasic
  · have hc : c = Utf8.replacement := by simpa using hd
    rw [hc]
    decide

theorem head_seen : (path.flatMap seen).head? = some '\uFEFF' ↔ path.head? = some '\uFEFF' := by
  cases path with
  | nil => rfl
  | cons d path =>
    rw [flatMap_cons, seen]
    split
    · rfl
    · next h =>
      have hd : d ≠ '\uFEFF' := by
        rintro rfl
        exact h (by decide)
      simpa [hd] using (by decide : Utf8.replacement ≠ '\uFEFF')

theorem unquoteCPath_quoteCPath (path : List Char) :
    unquoteCPath (Text.ofChars (quoteCPath path)) = Text.ofChars (readBack path) := by
  rcases h : path.any unusual with _ | _
  · rw [quoteCPath, readBack, h, if_neg Bool.false_ne_true, if_neg Bool.false_ne_true,
      unquoteCPath, if_pos]
    rw [Bool.or_eq_true]
    refine .inl (decide_eq_true fun hhead => ?_)
    have hmem : '"' ∈ path :=
      (@Text.mem_ofChars path 0x22 (by decide)).mp (mem_of_mem_head? hhead)
    have hany : path.any unusual = true := any_eq_true.mpr ⟨'"', hmem, by decide⟩
    rw [h] at hany
    cases hany
  · have hquoted : Text.ofChars (quoteCPath path) =
        0x22 :: (Text.ofChars (path.flatMap quoteChar) ++ [0x22]) := by
      rw [quoteCPath, h, if_pos rfl, cons_append, Text.ofChars_basic (by decide),
        Text.ofChars_append]
      rfl
    have hlast : (0x22 :: (Text.ofChars (path.flatMap quoteChar) ++ [0x22])).getLast? =
        some 0x22 := by
      rw [← cons_append]
      exact List.getLast?_concat
    rw [hquoted, unquoteCPath, hlast, if_neg (by simp), drop_one, tail_cons,
      dropLast_concat, unquoteBody_quoted, Utf8.decodeText_encode_eq, readBack, h, if_pos rfl]
    simp only [head_seen]

theorem readBack_ne_nil (hpath : path ≠ []) : readBack path ≠ [] := by
  rw [readBack]
  split
  · next h =>
    obtain ⟨c, hc, hunusual⟩ := any_eq_true.mp h
    have hascii := toNat_of_unusual hunusual
    have hseen : c ∈ path.flatMap seen :=
      mem_flatMap.mpr ⟨c, hc, by
        rw [seen, if_pos (Nat.lt_trans hascii (by decide))]
        exact .head _⟩
    split
    · next hhead =>
      -- the mark is another character
      obtain ⟨rest, hrest⟩ := List.head?_eq_some_iff.mp hhead
      rw [hrest] at hseen ⊢
      rcases mem_cons.mp hseen with rfl | hmem
      · exact absurd hascii (by decide)
      · exact ne_nil_of_mem hmem
    · exact ne_nil_of_mem hseen
  · exact hpath

theorem readBack_eq_iff : readBack path = path ↔ Readable path := by
  rw [readBack, Readable]
  split
  · next h =>
    constructor
    · intro heq
      have hbasic : ∀ c ∈ path, Text.Basic c := by
        intro c hc
        rw [← heq] at hc
        split at hc
        · exact basic_of_mem_seen (mem_of_mem_tail hc)
        · exact basic_of_mem_seen hc
      refine fun _ => ⟨hbasic, fun hhead => ?_⟩
      rw [if_pos hhead, seen_eq hbasic] at heq
      obtain ⟨rest, rfl⟩ := List.head?_eq_some_iff.mp hhead
      exact cons_ne_self _ _ heq.symm
    · intro hreadable
      obtain ⟨hbasic, hhead⟩ := hreadable h
      rw [if_neg hhead, seen_eq hbasic]
  · next h => exact iff_of_true rfl fun hany => absurd hany h

/-! ## Lines -/

theorem newline_not_mem_quoteChar : ∀ n : Fin 0x80, '\n' ∉ quoteChar (Char.ofNat n) := by
  decide +kernel

theorem newline_not_mem_quoteCPath (path : List Char) : '\n' ∉ quoteCPath path := by
  rw [quoteCPath]
  split
  · have hbody : '\n' ∉ path.flatMap quoteChar := by
      intro hmem
      obtain ⟨c, -, hc⟩ := mem_flatMap.mp hmem
      by_cases hascii : c.toNat < 0x80
      · have hnot := newline_not_mem_quoteChar ⟨c.toNat, hascii⟩
        rw [Char.ofNat_toNat] at hnot
        exact hnot hc
      · rw [quoteChar, if_neg fun h => hascii (toNat_of_unusual h)] at hc
        obtain rfl := mem_singleton.mp hc
        exact hascii (by decide)
    simpa using hbody
  · next h => exact fun hmem => h (any_eq_true.mpr ⟨'\n', hmem, by decide⟩)

theorem newline_not_mem_statusLine (listed : Status × List Char) : '\n' ∉ statusLine listed := by
  obtain ⟨status, path⟩ := listed
  have hpath := newline_not_mem_quoteCPath path
  cases status <;> simpa [statusLine, Status.letter] using hpath

theorem ofChars_join (ls : List (List Char)) :
    Text.ofChars (Lines.join '\n' ls) = Lines.join 0x0A (ls.map Text.ofChars) := by
  induction ls with
  | nil => rfl
  | cons l ls ih =>
    rw [Lines.join_cons, Text.ofChars_append, map_cons, Lines.join_cons,
      Text.ofChars_basic (by decide), ih]
    rfl

theorem changeOf_statusLine (status : Status) (hpath : path ≠ []) :
    changeOf (Text.ofChars (statusLine (status, path))) =
      some ⟨Text.ofChars (readBack path), status.kind⟩ := by
  have hne : Text.ofChars (readBack path) ≠ [] := fun hnil =>
    readBack_ne_nil hpath (Text.ofChars_injective hnil)
  have hline : Text.ofChars (statusLine (status, path)) =
      Text.unitOf status.letter :: 0x09 :: Text.ofChars (quoteCPath path) := by
    rw [statusLine, Text.ofChars_basic (show Text.Basic status.letter by cases status <;> decide),
      Text.ofChars_basic (by decide)]
    rfl
  rw [hline, changeOf]
  cases status <;>
    simp [Text.unitOf, Status.letter, trim, isSpaceUnit, Text.isSpace, unquoteCPath_quoteCPath, hne,
      Status.kind]

theorem trim_treeId {tree : Text} (h : isTreeId tree = true) : trim tree = tree := by
  have hall : ∀ unit ∈ tree, isSpaceUnit unit = false := by
    intro unit hunit
    rw [isTreeId, Bool.and_eq_true, all_eq_true] at h
    have hrange := h.2 unit hunit
    simp only [Bool.or_eq_true, Bool.and_eq_true, decide_eq_true_eq] at hrange
    rw [isSpaceUnit, Text.isSpace, Text.toNat_ofNat_ascii (by omega)]
    simp only [Bool.or_eq_false_iff, Bool.and_eq_false_iff, beq_eq_false_iff_ne,
      decide_eq_false_iff_not]
    omega
  have hdrop : ∀ text : Text, (∀ unit ∈ text, isSpaceUnit unit = false) →
      text.dropWhile isSpaceUnit = text := by
    intro text htext
    cases text with
    | nil => rfl
    | cons unit text => rw [dropWhile_cons, htext unit (.head _), if_neg Bool.false_ne_true]
  have hback : ∀ unit ∈ tree.reverse, isSpaceUnit unit = false :=
    fun unit hunit => hall unit (mem_reverse.mp hunit)
  rw [trim, hdrop tree hall, hdrop tree.reverse hback, reverse_reverse]

/-- What is read of a snapshot: every line, with its path as it is read back. -/
theorem parseSnapshot_printed {tree : List Char} {listed : List (Status × List Char)}
    (htree : isTreeId (Text.ofChars tree) = true) (hnamed : ∀ entry ∈ listed, entry.2 ≠ []) :
    parseSnapshot (Text.ofChars (printed tree listed)) = some (Text.ofChars tree,
      listed.map fun entry => ⟨Text.ofChars (readBack entry.2), entry.1.kind⟩) := by
  have hclean : ∀ line ∈ (tree :: listed.map statusLine).map Text.ofChars,
      (0x0A : UInt16) ∉ line := by
    intro line hline hmem
    obtain ⟨chars, hchars, rfl⟩ := mem_map.mp hline
    have hnewline : '\n' ∈ chars := (@Text.mem_ofChars chars 0x0A (by decide)).mp hmem
    rcases mem_cons.mp hchars with rfl | hchars
    · rw [isTreeId, Bool.and_eq_true, all_eq_true] at htree
      exact absurd (htree.2 _ hmem) (by decide)
    · obtain ⟨entry, -, rfl⟩ := mem_map.mp hchars
      exact newline_not_mem_statusLine entry hnewline
  have hsplit := Lines.split_join hclean (not_mem_nil (a := 0x0A))
  rw [append_nil] at hsplit
  rw [parseSnapshot, printed, ofChars_join, Lines.lines, Lines.rest, hsplit]
  simp only [map_cons, cons_append, trim_treeId htree, htree, if_true]
  rw [filterMap_append, map_map, filterMap_map]
  have hlines : listed.filterMap (changeOf ∘ Text.ofChars ∘ statusLine) =
      listed.map fun entry => ⟨Text.ofChars (readBack entry.2), entry.1.kind⟩ := by
    rw [← filterMap_eq_map]
    exact filterMap_congr fun entry hentry =>
      changeOf_statusLine entry.1 (hnamed entry hentry)
  -- nothing follows the last line
  have hrest : [([] : Text)].filterMap changeOf = [] := rfl
  rw [hlines, hrest, append_nil]

/-- **A snapshot is read exactly**, where its quoted paths can be read and only there. -/
theorem parseSnapshot_exact_iff {tree : List Char} {listed : List (Status × List Char)}
    (htree : isTreeId (Text.ofChars tree) = true) (hnamed : ∀ entry ∈ listed, entry.2 ≠ []) :
    parseSnapshot (Text.ofChars (printed tree listed)) = some (Text.ofChars tree,
        listed.map fun entry => ⟨Text.ofChars entry.2, entry.1.kind⟩) ↔
      ∀ entry ∈ listed, Readable entry.2 := by
  rw [parseSnapshot_printed htree hnamed, Option.some.injEq, Prod.mk.injEq, map_inj_left]
  simp only [true_and, SyncedFileChange.mk.injEq, and_true, Text.ofChars_injective.eq_iff,
    readBack_eq_iff]

/-- A tree's id. -/
def someTree : List Char := List.replicate 40 'a'

theorem parseSnapshot_exact_iff_tabbed :
    parseSnapshot (Text.ofChars (printed someTree [(.deleted, "a\tb".toList)])) =
        some (Text.ofChars someTree, [⟨Text.ofChars "a\tb".toList, .deleted⟩]) ↔
      ∀ entry ∈ [(Status.deleted, "a\tb".toList)], Readable entry.2 :=
  parseSnapshot_exact_iff (by decide +kernel) (by decide)

/-- A tab and an emoji in one name: the emoji is not read back. -/
theorem parseSnapshot_emoji :
    parseSnapshot (Text.ofChars (printed someTree [(.added, ['a', '\t', Char.ofNat 0x1F600])])) ≠
      some (Text.ofChars someTree,
        [⟨Text.ofChars ['a', '\t', Char.ofNat 0x1F600], .modified⟩]) := by
  decide +kernel

end

end Catamorphic.SandboxSync
