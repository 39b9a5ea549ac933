import Catamorphic.Runner.Follow

/-!
# The lines that a follower matches

What a follower reads from one place on is text without gaps, however its pages are cut, so the
lines that it tests are those of the output from there on: the first that matches is the first of
them that does. From the middle of a line on, the first of them is the end of a line only; that is
where a skip may lead, and where a follower may be told to start.
-/

namespace Catamorphic.Runner.Follow

open Utf8 List Option Lines

section

variable (output : List UInt8)

/-- A place where a line starts. -/
def LineStart (p : Nat) : Prop := p = 0 ∨ output[p - 1]? = some newline

/-- Where the text from a place on starts: a byte order mark at the start of the output is none of
its text. -/
def textStart (s : Nat) : Nat := if s = 0 ∧ bom <+: output then 3 else s

/-- The bytes of the text from one place to another. -/
def body (s p : Nat) : List UInt8 := (output.take p).drop (textStart output s)

/-- The lines that lie between two places. -/
def linesRead (span : Nat × Nat) : List (List Char) :=
  (lines newline (body output span.1 span.2)).map decode

/-- The complete lines of the output from a place on. What follows the last newline is one when the
process has exited. -/
def completeLines (exited : Bool) (s : Nat) : List (List Char) :=
  linesRead output (s, output.length) ++
    let rest := rest newline (body output s output.length)
    if exited && rest ≠ [] then [decode rest] else []

end

variable {args : Args} {output : List UInt8}

/-! ## Reading on -/

/-- Lines were read from `s` on: what is left of the last one waits. -/
structure Reading (output : List UInt8) (s : Nat) (loop : Loop) : Prop where
  from_le : s ≤ loop.cursor
  text_le : loop.cursor = s ∨ textStart output s ≤ loop.cursor
  waits : loop.partialLine = decode (rest newline (body output s loop.cursor))
  boundary : Boundary (after .start (body output s loop.cursor)) output[loop.cursor]?

/-- A read starts where a text may be read from. -/
structure Readable (output : List UInt8) (p : Nat) : Prop where
  mark : p ≠ 0 → ¬ bom <+: output.drop p
  inside : ∀ b, output[p]? = some b → ¬ Continuation b

theorem textStart_zero_of_not_bom (h : ¬ bom <+: output) (s : Nat) : textStart output s = s := by
  rw [textStart, if_neg fun hs => h hs.2]

variable {s : Nat}

theorem textStart_pos (h : s ≠ 0) : textStart output s = s := by
  rw [textStart, if_neg fun hs => h hs.1]

theorem le_textStart (s : Nat) : s ≤ textStart output s := by
  unfold textStart
  split <;> omega

variable {p : Nat} {page : ProcessOutput} {exited : Bool}

theorem body_of_le (h : p ≤ textStart output s) : body output s p = [] := by
  rw [body, drop_eq_nil_iff, length_take]
  omega

theorem body_self (s : Nat) : body output s s = [] := body_of_le (le_textStart s)

theorem boundary_none (st : Utf8.State) : Boundary st none := .inr nofun

/-- **What a page adds to the text**: its chunk is what that decodes to. -/
theorem body_page {text : List UInt8} {size : Nat}
    (hread : Readable output p) (hle : s ≤ p) (hp : p ≤ output.length)
    (htext : p = s ∨ textStart output s ≤ p)
    (hbefore : Boundary (after .start (body output s p)) output[p]?)
    (hend : (page.exited && !page.more) = true → page.nextCursor = output.length)
    (hpage : PageAt output size exited p page [] text) :
    ∃ more, page.chunk = decode more ∧ body output s page.nextCursor = body output s p ++ more ∧
      (page.nextCursor = s ∨ textStart output s ≤ page.nextCursor) ∧
      Boundary (after .start (body output s p)) more.head? ∧
      ((page.exited && !page.more) = false →
        Boundary (after .start (body output s page.nextCursor)) output[page.nextCursor]?) := by
  have hnext : page.nextCursor = p + text.length := by
    rw [hpage.next, length_nil, Nat.zero_add]
  have hbytes : output.take page.nextCursor = output.take p ++ text := hpage.bytes
  have hprefix : text <+: output.drop p := by
    refine ⟨output.drop page.nextCursor, ?_⟩
    have hall : output.take p ++ (text ++ output.drop page.nextCursor) =
        output.take p ++ output.drop p := by
      rw [← append_assoc, ← hbytes, take_append_drop, take_append_drop]
    exact append_cancel_left hall
  by_cases hmark : p = 0 ∧ bom <+: output
  · -- the first page of an output that starts with a mark
    obtain ⟨rfl, hbom⟩ := hmark
    obtain rfl : s = 0 := Nat.le_zero.mp hle
    have hstart : textStart output 0 = 3 := if_pos ⟨rfl, hbom⟩
    have hnil : body output 0 0 = [] := body_self 0
    rw [hnil]
    rw [drop_zero] at hprefix
    by_cases hempty : text = []
    · subst hempty
      have hzero : page.nextCursor = 0 := hnext
      refine ⟨[], hpage.chunk, ?_, .inl hzero, .inl rfl, fun _ => ?_⟩
      · rw [hzero, hnil]
        rfl
      · rw [hzero, hnil]
        exact .inl rfl
    · have hlong : 3 ≤ text.length := by
        by_contra hshort
        have hlt : text.length < output.length := by
          have := hbom.length_le
          simp only [bom, length_cons] at this
          omega
        have hlast : (page.exited && !page.more) = false := by
          rw [← Bool.not_eq_true]
          intro h
          have := hend h
          omega
        have hboundary := hpage.boundary hlast hempty
        rw [hnext, Nat.zero_add] at hboundary
        obtain ⟨more, rfl⟩ := hbom
        have hpart : text = bom.take text.length := by
          rw [prefix_iff_eq_take.mp hprefix]
          rw [length_take, take_append_of_le_length (by simp [bom]; omega)]
          congr 1
          have := hprefix.length_le
          omega
        have hpos := length_pos_iff.mpr hempty
        have hlength : text.length = 1 ∨ text.length = 2 := by omega
        -- the mark's other bytes are left for the next page
        rcases hlength with hone | htwo
        · rw [hone] at hpart hboundary
          rw [hpart] at hboundary
          rcases hboundary with hstart | hnot
          · exact absurd hstart (by decide)
          · exact hnot 0xBB rfl (by decide)
        · rw [htwo] at hpart hboundary
          rw [hpart] at hboundary
          rcases hboundary with hstart | hnot
          · exact absurd hstart (by decide)
          · exact hnot 0xBF rfl (by decide)
      obtain ⟨more, rfl⟩ : bom <+: text := prefix_of_prefix_length_le hbom hprefix hlong
      have hafter : ∀ more, after .start (bom ++ more) = after .start more := by
        intro more
        rw [after_append]
        rfl
      have hbody : body output 0 page.nextCursor = more := by
        rw [body, hbytes, hstart]
        rfl
      refine ⟨more, ?_, ?_, .inr ?_, .inl rfl, fun hlast => ?_⟩
      · rw [hpage.chunk, decodeText, if_pos (List.isPrefixOf_iff_prefix.mpr ⟨more, rfl⟩)]
        rfl
      · rw [hbody]
        rfl
      · rw [hstart, hnext]
        omega
      · rw [hbody, ← hafter more]
        exact hpage.boundary hlast hempty
  · have hstart : textStart output s ≤ p := by
      rcases htext with rfl | htext
      · by_cases hzero : p = 0
        · have hno : ¬ bom <+: output := fun h => hmark ⟨hzero, h⟩
          exact Nat.le_of_eq (textStart_zero_of_not_bom hno p)
        · exact Nat.le_of_eq (textStart_pos hzero)
      · exact htext
    have hno : ¬ bom <+: text := by
      intro h
      by_cases hzero : p = 0
      · subst hzero
        exact hmark ⟨rfl, h.trans hprefix⟩
      · exact hread.mark hzero (h.trans hprefix)
    have hbody : body output s page.nextCursor = body output s p ++ text := by
      rw [body, hbytes, body, drop_append_of_le_length (by rw [length_take]; omega)]
    have hhead : Boundary (after .start (body output s p)) text.head? := by
      cases text with
      | nil => exact boundary_none _
      | cons b text =>
        obtain ⟨rest, hrest⟩ := hprefix
        have hb : output[p]? = some b := by
          rw [← List.head?_drop, ← hrest]
          rfl
        rw [hb] at hbefore
        exact hbefore
    refine ⟨text, by rw [hpage.chunk, decodeText_eq hno], hbody, .inr (by omega), hhead, ?_⟩
    intro hlast
    by_cases hempty : text = []
    · subst hempty
      rw [hbody, append_nil, hnext]
      exact hbefore
    · rw [hbody, after_append_boundary hhead hempty]
      exact hpage.boundary hlast hempty

/-! ## One turn -/

theorem testLine_eq (matched : Option (List Char)) (lines : List (List Char)) :
    lines.foldl (testLine args) matched = matched.or (lines.find? args.untilLine.test) := by
  induction lines generalizing matched with
  | nil => rw [foldl_nil, List.find?_nil, or_none]
  | cons line lines ih =>
    rw [foldl_cons, ih, List.find?_cons]
    rcases matched with _ | found
    · unfold testLine
      by_cases hline : args.untilLine.test line = true
      · simp [hline]
      · simp [hline]
    · rfl

variable {loop : Loop} {read : ProcessOutput} {cursor : Nat}

theorem take_matched : (loop.take args read).matched =
    loop.matched.or ((if read.chunk = [] then [] else
      lines '\n' (loop.partialLine ++ read.chunk)).find? args.untilLine.test) := by
  unfold Loop.take
  split
  · rw [List.find?_nil, or_none]
  · exact testLine_eq _ _

theorem take_cursor (loop : Loop) (read : ProcessOutput) :
    (loop.take args read).cursor = read.nextCursor := by
  unfold Loop.take
  split <;> rfl

theorem skip_matched (loop : Loop) (read : ProcessOutput) :
    (loop.skip args read).matched = loop.matched := by
  unfold Loop.skip
  split <;> rfl

theorem skip_none (h : skipTo args read = none) : loop.skip args read = loop := by
  rw [Loop.skip, h]

theorem skip_cursor (h : skipTo args read = some cursor) :
    (loop.skip args read).cursor = cursor := by
  rw [Loop.skip, h]

theorem skip_partialLine (h : skipTo args read = some cursor) :
    (loop.skip args read).partialLine = [] := by
  rw [Loop.skip, h]

theorem atEnd_cursor (loop : Loop) (read : ProcessOutput) :
    (loop.atEnd args read).cursor = loop.cursor := by
  unfold Loop.atEnd
  split <;> rfl

theorem atEnd_partialLine (loop : Loop) (read : ProcessOutput) :
    (loop.atEnd args read).partialLine = loop.partialLine := by
  unfold Loop.atEnd
  split <;> rfl

theorem atEnd_matched (loop : Loop) (read : ProcessOutput) : (loop.atEnd args read).matched =
    if read.exited && !read.more && loop.partialLine ≠ [] then
      testLine args loop.matched loop.partialLine
    else loop.matched := by
  unfold Loop.atEnd
  split <;> rfl

variable {line : List Char} {result : Result} {test : List Char → Bool} {turns : List Turn}

/-- What matched stays. -/
theorem turn_matched {turn : Turn} (h : loop.matched = some line) :
    (loop.turn args output turn).matched = some line := by
  have htake : (loop.take args (readOf output loop turn)).matched = some line := by
    rw [take_matched, h, some_or]
  rw [Loop.turn, atEnd_matched, skip_matched, htake]
  split <;> rfl

/-- **A page's lines are the lines that it adds to the text read.** -/
theorem take_page {s : Nat} {loop : Loop} {more : List UInt8}
    (hwaits : loop.partialLine = decode (rest newline (body output s loop.cursor)))
    (hchunk : page.chunk = decode more)
    (hbody : body output s page.nextCursor = body output s loop.cursor ++ more)
    (hboundary : Boundary (after .start (body output s loop.cursor)) more.head?) :
    (loop.take args page).partialLine = decode (rest newline (body output s page.nextCursor)) ∧
      (loop.matched = (linesRead output (s, loop.cursor)).find? args.untilLine.test →
        (loop.take args page).matched =
          (linesRead output (s, page.nextCursor)).find? args.untilLine.test) := by
  by_cases hempty : more = []
  · subst hempty
    rw [append_nil] at hbody
    have hnone : page.chunk = [] := hchunk
    rw [hbody, take_matched, if_pos hnone, List.find?_nil, or_none, Loop.take, if_pos hnone]
    exact ⟨hwaits, fun h => by rw [h, linesRead, linesRead, hbody]⟩
  · have hne : page.chunk ≠ [] := by rwa [hchunk, Ne, decode_eq_nil]
    have hsplit := @Lines.split_rest_append _ newline _ (body output s loop.cursor) more
    rw [← hbody] at hsplit
    have hrest : rest newline (body output s page.nextCursor) =
        rest newline (rest newline (body output s loop.cursor) ++ more) := by
      rw [rest, hsplit]
    have htext : split '\n' (loop.partialLine ++ page.chunk) =
        ((lines newline (rest newline (body output s loop.cursor) ++ more)).map decode,
          decode (rest newline (body output s page.nextCursor))) := by
      rw [hwaits, hchunk, ← decode_append (by rwa [← after_rest]), split_decode, hrest]
    have hlines : linesRead output (s, page.nextCursor) = linesRead output (s, loop.cursor) ++
        (lines newline
          (rest newline (body output s loop.cursor) ++ more)).map decode := by
      rw [linesRead, lines, hsplit, map_append]
      rfl
    rw [take_matched, if_neg hne, lines, htext, Loop.take, if_neg hne, htext, hlines,
      List.find?_append]
    exact ⟨rfl, fun h => by rw [h]⟩

theorem linesRead_take {q : Nat} (h : p ≤ q) :
    linesRead output (s, p) <+: linesRead output (s, q) := by
  obtain ⟨text, htext⟩ : output.take p <+: output.take q := take_prefix_take_left h
  obtain ⟨more, hmore⟩ : body output s p <+: body output s q := by
    rw [body, body, ← htext, drop_append]
    exact prefix_append _ _
  have hsplit := @Lines.split_rest_append _ newline _ (body output s p) more
  rw [hmore] at hsplit
  rw [linesRead, linesRead, lines, lines, hsplit, map_append]
  exact prefix_append _ _

theorem find_of_prefix {lines more : List (List Char)} (h : lines <+: more)
    (hline : lines.find? test = some line) : more.find? test = some line := by
  obtain ⟨rest, rfl⟩ := h
  rw [List.find?_append, hline, some_or]

theorem find_completeLines (hp : p ≤ output.length) (exited : Bool)
    (hline : (linesRead output (s, p)).find? test = some line) :
    (completeLines output exited s).find? test = some line :=
  find_of_prefix ((linesRead_take hp).trans (prefix_append _ _)) hline

/-- A turn that found the last page of the output, or one more, or skipped. -/
inductive Turned (args : Args) (output : List UInt8) (s : Nat) (loop : Loop)
  (read : ProcessOutput) :
    Prop
  | more : skipTo args read = none → (read.exited && !read.more) = false →
      Reading output s loop → loop.cursor = read.nextCursor →
      loop.matched = (linesRead output (s, read.nextCursor)).find? args.untilLine.test →
      Turned args output s loop read
  | last : skipTo args read = none → (read.exited && !read.more) = true →
      loop.matched = (completeLines output true s).find? args.untilLine.test →
      Turned args output s loop read
  | skip (cursor : Nat) : skipTo args read = some cursor → (read.exited && !read.more) = false →
      loop.cursor = cursor → loop.partialLine = [] → s < cursor →
      loop.matched = (linesRead output (s, read.nextCursor)).find? args.untilLine.test →
      Turned args output s loop read

theorem Reading.turn {s : Nat} {loop : Loop} {turn : Turn} (h : Reading output s loop)
    (hmatched : loop.matched = (linesRead output (s, loop.cursor)).find? args.untilLine.test)
    (hread : Readable output loop.cursor) (hle : loop.cursor ≤ turn.size)
    (hsize : turn.size ≤ output.length) (hexited : turn.exited = true → turn.size = output.length) :
    Turned args output s (loop.turn args output turn) (readOf output loop turn) ∧
      (readOf output loop turn).nextCursor ≤ turn.size ∧
      (loop.turn args output turn).cursor ≤ turn.size := by
  obtain ⟨lead, text, hpage⟩ := readProcessOutput_spec hle hsize turn.exited turn.maxBytes
  obtain rfl : lead = [] := hpage.lead_nil hread.inside
  have hend : ((readOf output loop turn).exited && !(readOf output loop turn).more) = true →
      (readOf output loop turn).nextCursor = output.length := by
    intro hlast
    rw [← hexited (hpage.status ▸ (Bool.and_eq_true_iff.mp hlast).1)]
    exact hpage.last hlast
  obtain ⟨more, hchunk, hbody, htext, hhead, hafter⟩ :=
    body_page hread h.from_le (Nat.le_trans hle hsize) h.text_le h.boundary hend hpage
  have hwithin : (readOf output loop turn).nextCursor ≤ turn.size := hpage.within
  have hsizeEq : (readOf output loop turn).outputBytes = turn.size := hpage.size_eq
  have hnext : loop.cursor ≤ (readOf output loop turn).nextCursor := by
    have := hpage.next
    unfold readOf
    omega
  unfold Loop.turn
  dsimp only
  generalize readOf output loop turn = read at *
  obtain ⟨hwaits, hfound⟩ := @take_page args _ _ _ _ _ h.waits hchunk hbody hhead
  have hfound := hfound hmatched
  have hcursor : (loop.take args read).cursor = read.nextCursor := take_cursor loop read
  rcases hskip : skipTo args read with _ | cursor
  · rw [skip_none hskip, atEnd_cursor, hcursor]
    refine ⟨?_, hwithin, hwithin⟩
    by_cases hlast : (read.exited && !read.more) = true
    · refine .last hskip hlast ?_
      have hall := hend hlast
      rw [hall] at hwaits hfound
      rw [atEnd_matched, hfound, hlast, hwaits, completeLines, List.find?_append]
      by_cases hrest : rest newline (body output s output.length) = []
      · rw [hrest]
        simp [decode_eq_nil]
      · rw [if_pos (by simpa [decode_eq_nil] using hrest), if_pos (by simpa using hrest)]
        exact testLine_eq _ [_]
    · rw [Bool.not_eq_true] at hlast
      refine .more hskip hlast ⟨?_, ?_, ?_, ?_⟩ ?_ ?_
      · rw [atEnd_cursor, hcursor]
        exact Nat.le_trans h.from_le hnext
      · rwa [atEnd_cursor, hcursor]
      · rw [atEnd_partialLine, atEnd_cursor, hcursor, hwaits]
      · rw [atEnd_cursor, hcursor]
        exact hafter hlast
      · rw [atEnd_cursor, hcursor]
      · rw [atEnd_matched, hlast, hfound]
        rfl
  · have hplace := hskip
    unfold skipTo at hplace
    split at hplace
    · next hbehind =>
      have hcursor := some.inj hplace
      have hlast : (read.exited && !read.more) = false := by
        rw [← Bool.not_eq_true]
        intro hlast
        have := hend hlast
        omega
      have hskipped := @atEnd_cursor args ((loop.take args read).skip args read) read
      rw [skip_cursor hskip] at hskipped
      refine ⟨.skip cursor hskip hlast hskipped ?_ ?_ ?_, hwithin, ?_⟩
      · rw [atEnd_partialLine, skip_partialLine hskip]
      · have := h.from_le
        omega
      · rw [atEnd_matched, hlast, skip_matched, hfound]
        rfl
      · rw [hskipped]
        omega
    · cases hplace

/-! ## A whole run -/

section

variable (args : Args) (output : List UInt8)

/-- Where the follower read, from each place that it went on from. -/
def spans : Nat → Loop → List Turn → List (Nat × Nat)
  | s, loop, [] => [(s, loop.cursor)]
  | s, loop, turn :: turns =>
    let read := readOf output loop turn
    match skipTo args read with
    | none => spans s (loop.turn args output turn) turns
    | some cursor => (s, read.nextCursor) :: spans cursor (loop.turn args output turn) turns

/-- Every read starts where a text may be read from, and every skip ends where a line starts. -/
def Clean : Loop → List Turn → Prop
  | _, [] => True
  | loop, turn :: turns => Readable output loop.cursor ∧
      (∀ cursor, skipTo args (readOf output loop turn) = some cursor → LineStart output cursor) ∧
      Clean (loop.turn args output turn) turns

/--
The line is a complete one of the output and the first that matches from a place on that the
follower went on from; no line that it read before that place matches.
-/
def MatchesFirst (spans : List (Nat × Nat)) (exited : Bool) (line : List Char) : Prop :=
  ∃ before s e later, spans = before ++ (s, e) :: later ∧
    (∀ span ∈ before, (linesRead output span).find? args.untilLine.test = none) ∧
    completeLines output exited s <:+ completeLines output exited 0 ∧
    (completeLines output exited s).find? args.untilLine.test = some line

end

theorem spans_head (s : Nat) (loop : Loop) (turns : List Turn) :
    ∃ e later, spans args output s loop turns = (s, e) :: later := by
  induction turns generalizing loop with
  | nil => exact ⟨_, [], rfl⟩
  | cons turn turns ih =>
    rw [spans]
    split
    · exact ih _
    · exact ⟨_, _, rfl⟩

theorem answer_none {turn : Turn} (h : answer args read turn loop = none) :
    (read.exited && !read.more) = false := by
  rw [← Bool.not_eq_true]
  intro hlast
  unfold answer at h
  simp [hlast] at h

theorem answer_some {turn : Turn} (h : answer args read turn loop = some result) :
    result.matched = loop.matched ∧ result.exited = read.exited := by
  unfold answer at h
  dsimp only at h
  split at h
  · cases h
    exact ⟨rfl, rfl⟩
  · cases h

/-- What matched is returned. -/
theorem Follows.matched
    (h : Follows args output loop turns result) (hline : loop.matched = some line) :
    result.matched = some line := by
  induction h with
  | done hanswer => rw [(answer_some hanswer).1, turn_matched hline]
  | next _ _ ih => exact ih (turn_matched hline)

/-- The complete lines from the start of a line on are some of all of them. -/
theorem completeLines_suffix (h : LineStart output s) (exited : Bool) :
    completeLines output exited s <:+ completeLines output exited 0 := by
  by_cases hpos : s = 0
  · subst hpos
    exact suffix_refl _
  · have h := h.resolve_left hpos
    obtain ⟨hlt, hnewline⟩ := List.getElem?_eq_some_iff.mp h
    have hsplit : output = output.take (s - 1) ++ newline :: output.drop s := by
      conv_lhs => rw [← take_append_drop (s - 1) output]
      rw [drop_eq_getElem_cons hlt, hnewline, Nat.sub_add_cancel (Nat.pos_of_ne_zero hpos)]
    have hstart : textStart output 0 ≤ s - 1 := by
      unfold textStart
      split
      · next hbom =>
        obtain ⟨more, hmore⟩ := hbom.2
        by_contra hshort
        rw [← hmore, List.getElem?_append_left (by simp [bom]; omega)] at h
        exact absurd (mem_of_getElem? h) (by decide)
      · exact Nat.zero_le _
    have hdrop : ∀ n, n ≤ s - 1 →
        output.drop n = (output.take (s - 1)).drop n ++ newline :: output.drop s := by
      intro n hn
      conv_lhs => rw [hsplit]
      rw [drop_append_of_le_length (by rw [length_take]; omega)]
    have hall : body output 0 output.length = (output.take (s - 1)).drop (textStart output 0) ++
        newline :: body output s output.length := by
      rw [body, body, take_length, textStart_pos hpos, hdrop _ hstart]
    refine ⟨(lines newline ((output.take (s - 1)).drop (textStart output 0)) ++
      [rest newline ((output.take (s - 1)).drop (textStart output 0))]).map decode, ?_⟩
    have hlines := @Lines.split_append_line _ newline _
      ((output.take (s - 1)).drop (textStart output 0))
      (body output s output.length)
    rw [← hall] at hlines
    simp only [completeLines, linesRead, lines, rest, hlines, map_append,
      map_cons, map_nil, append_assoc, cons_append, nil_append]

theorem matchesFirst_here {e : Nat} {later : List (Nat × Nat)} (hstart : LineStart output s)
    (hline : (completeLines output exited s).find? args.untilLine.test = some line) :
    MatchesFirst args output ((s, e) :: later) exited line :=
  ⟨[], s, e, later, rfl, nofun, completeLines_suffix hstart exited, hline⟩

theorem follows_first {loop : Loop}
    (h : Follows args output loop turns result) : ∀ {s least : Nat}, LineStart output s →
      Reading output s loop →
      loop.matched = (linesRead output (s, loop.cursor)).find? args.untilLine.test →
      loop.cursor ≤ least → Written args output loop least turns → Clean args output loop turns →
      ∀ {line}, result.matched = some line →
        MatchesFirst args output (spans args output s loop turns) result.exited line := by
  induction h with
  | @done loop turn result hanswer =>
    intro s least hstart hreading hmatched hleast hwritten hclean line hline
    obtain ⟨hleast', hsize, hexited, -⟩ := hwritten
    obtain ⟨hturned, hwithin, -⟩ := hreading.turn hmatched hclean.1
      (Nat.le_trans hleast hleast') hsize hexited
    obtain ⟨e, later, hspans⟩ := @spans_head args output s loop [turn]
    obtain ⟨hsame, hstatus⟩ := answer_some hanswer
    rw [hsame] at hline
    rw [hspans, hstatus]
    refine matchesFirst_here hstart ?_
    have hnext := Nat.le_trans hwithin hsize
    rcases hturned with ⟨-, -, -, -, hfound⟩ | ⟨-, hlast, hfound⟩ | ⟨_, -, -, -, -, -, hfound⟩
    · exact find_completeLines hnext _ (hfound ▸ hline)
    · rw [(Bool.and_eq_true_iff.mp hlast).1, ← hfound]
      exact hline
    · exact find_completeLines hnext _ (hfound ▸ hline)
  | @next loop turn turns result hanswer hfollows ih =>
    intro s least hstart hreading hmatched hleast hwritten hclean line hline
    obtain ⟨hleast', hsize, hexited, hrest⟩ := hwritten
    obtain ⟨hreadable, hskips, hcleanRest⟩ := hclean
    obtain ⟨hturned, hwithin, hcursor⟩ := hreading.turn hmatched hreadable
      (Nat.le_trans hleast hleast') hsize hexited
    have hnext := Nat.le_trans hwithin hsize
    have hmore := answer_none hanswer
    cases hturned with
    | more hskip hlast hreading' hat hfound =>
      rw [spans]
      simp only [hskip]
      exact ih hstart hreading' (hat ▸ hfound) hcursor hrest hcleanRest hline
    | last hskip hlast hfound =>
      rw [hmore] at hlast
      cases hlast
    | skip cursor hskip hlast hat hwaits hlt hfound =>
      rw [spans]
      simp only [hskip]
      rcases hnone : (linesRead output (s, (readOf output loop turn).nextCursor)).find?
        args.untilLine.test with _ | found
      · -- no line read matches: what is read from there on counts
        have hnil : body output cursor (loop.turn args output turn).cursor = [] := by
          rw [hat, body_self]
        have hreading' : Reading output cursor (loop.turn args output turn) := by
          refine ⟨Nat.le_of_eq hat.symm, .inl hat, ?_, ?_⟩
          · rw [hwaits, hnil]
            rfl
          · rw [hnil]
            exact .inl rfl
        have hfound' : (loop.turn args output turn).matched = (linesRead output
            (cursor, (loop.turn args output turn).cursor)).find? args.untilLine.test := by
          rw [hfound, hnone, linesRead, hnil]
          rfl
        obtain ⟨before, s', e, later, hspans, hbefore, hlines⟩ :=
          ih (hskips cursor hskip) hreading' hfound' hcursor hrest hcleanRest hline
        exact ⟨_ :: before, s', e, later, by rw [hspans, cons_append],
          forall_mem_cons.mpr ⟨hnone, hbefore⟩, hlines⟩
      · rw [hnone] at hfound
        cases (hfollows.matched hfound).symm.trans hline
        exact matchesFirst_here hstart (find_completeLines hnext _ hnone)

/-! ## The lines that a follower matches -/

/--
**A follower matches whole lines**, where every read starts where a text may be read from, and it
starts, and goes on after a skip, where a line starts: the line is a complete one of the output,
and none of those after the place that the follower went on from is passed over.
-/
theorem followProcess_wholeLines (args : Args) (output : List UInt8) (turns : List Turn)
    (result : Result) (line : List Char)
    (hfollows : Follows args output (.initial args) turns result)
    (hwritten : Written args output (.initial args) args.cursor turns)
    (hstart : LineStart output args.cursor)
    (hclean : Clean args output (.initial args) turns) (hline : result.matched = some line) :
    MatchesFirst args output (spans args output args.cursor (.initial args) turns)
      result.exited line := by
  have hnil : body output args.cursor (Loop.initial args).cursor = [] := body_self args.cursor
  refine follows_first hfollows hstart ⟨Nat.le_refl _, .inl rfl, ?_, ?_⟩ ?_ (Nat.le_refl _)
    hwritten hclean hline
  · rw [hnil]
    rfl
  · rw [hnil]
    exact .inl rfl
  · rw [linesRead, hnil]
    rfl

/-- A line that the test finds. -/
def readyArgs (cursor : Nat) : Args :=
  ⟨cursor, .line fun line => line = "ready".toList, 30000, 6⟩

theorem followProcess_wholeLines_ready :
    MatchesFirst (readyArgs 0) (Utf8.encode "ok\nready\n".toList) [(0, 9)] false "ready".toList :=
  followProcess_wholeLines (readyArgs 0) _ [⟨9, false, 64, false, false⟩]
    ⟨_, 9, false, some "ready".toList, false, false⟩ "ready".toList (.done rfl)
    ⟨by decide, by decide, nofun, trivial⟩ (.inl rfl)
    ⟨⟨nofun, by decide +kernel⟩, nofun, trivial⟩ rfl

/-- The output has no such line, but a follower that skips to the middle of one returns it. -/
theorem skipped_line_cut : ∃ result,
    Follows (readyArgs 0) (Utf8.encode "aaaanot ready\n".toList) (.initial (readyArgs 0))
      [⟨14, false, 4, false, false⟩, ⟨14, false, 64, false, false⟩] result ∧
    Written (readyArgs 0) (Utf8.encode "aaaanot ready\n".toList) (.initial (readyArgs 0)) 0
      [⟨14, false, 4, false, false⟩, ⟨14, false, 64, false, false⟩] ∧
    result.matched = some "ready".toList ∧
    ∀ exited, "ready".toList ∉ completeLines (Utf8.encode "aaaanot ready\n".toList) exited 0 := by
  refine ⟨_, .next rfl (.done rfl), ?_, rfl, by decide⟩
  exact ⟨by decide, by decide, nofun, by decide, by decide, nofun, trivial⟩

end Catamorphic.Runner.Follow
