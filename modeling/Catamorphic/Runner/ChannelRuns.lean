import Catamorphic.Runner.ChannelFrames

/-!
# Runs of a channel

The invariant over a channel's runs: a page takes a read on to where the page ends, and
an answer leaves the cursor at the start of the line the page ended in.
-/

namespace Catamorphic.Runner

open Utf8 Runs List Option Lines

variable {Frame : Type} {parseFrame : List Char → Option Frame} {output : List UInt8}

variable {p p' : Nat} {text : List UInt8}

/-! ## One page of a read -/

theorem text_prefix_drop (htake : output.take p' = output.take p ++ text)
    (hp : p ≤ output.length) : text <+: output.drop p := by
  have hlen : (output.take p).length = p := by rw [length_take]; omega
  have htext : text = (output.take p').drop p := by
    rw [htake]
    conv_rhs => rw [← hlen]
    simp
  rw [htext, drop_take]
  exact take_prefix _ _

theorem head_of_take (htake : output.take p' = output.take p ++ text)
    (hp : p ≤ output.length) {b : UInt8} (hb : text.head? = some b) : output[p]? = some b := by
  obtain ⟨more, hmore⟩ := text_prefix_drop htake hp
  rw [← List.head?_drop, ← hmore, List.head?_append, hb]
  rfl

variable {c : Nat}

/-- The decoder at the end of a page, by what the page has. -/
theorem after_incomplete (hcp : c ≤ p) (hp : p ≤ output.length)
    (htake : output.take p' = output.take p ++ text)
    (hb : Boundary (after .start (incomplete output c p)) text.head?) (htext : text ≠ []) :
    after .start (incomplete output c p') = after .start text := by
  have hlen : c ≤ (output.take p).length := by rw [length_take]; omega
  rw [incomplete, ← after_rest, htake, drop_append_of_le_length hlen]
  rw [incomplete, ← after_rest] at hb
  exact after_append_boundary hb htext

variable {s : State Frame} {l : Loop Frame} {page : ProcessOutput} {base : List Frame}

/-- **A page takes a read on, whether or not it is inside a skipped line.** -/
theorem LoopAt.readText (h : LoopAt parseFrame output s c p l)
    (hwritten : s.written ≤ output.length)
    (hc : rest newline (output.take c) = [] ∨ OverLong (rest newline (output.take c)))
    {lead text : List UInt8} (hpage : PageAt output s.written s.exited p page lead text)
    (hclean : l.skipped = none → StartsClean output c p) :
    (l.readText parseFrame page).position = page.nextCursor ∧
      (Reading parseFrame output s.frames c page.nextCursor (l.readText parseFrame page) ∨
        Skipping parseFrame output s.frames page.nextCursor (l.readText parseFrame page)) ∧
      ((page.exited && !page.more) = false → (l.readText parseFrame page).skipped = none →
        Boundary (after .start (incomplete output c page.nextCursor))
          output[page.nextCursor]?) := by
  have hp : p ≤ output.length := Nat.le_trans h.within hwritten
  have hpp : p ≤ page.nextCursor := by rw [hpage.next]; omega
  have hcp' : c ≤ page.nextCursor := Nat.le_trans h.from_ hpp
  unfold Loop.readText
  simp only [hpage.chunk]
  rcases h.reads with hr | hsk
  · -- outside a skipped line
    have hstart := hclean hr.skipped
    have hnot : ∀ b, output[p]? = some b → ¬ Continuation b := by
      intro b hb
      rcases h.boundary hr.skipped with hst | hnc
      · exact hstart.notStray hst b hb
      · exact hnc b hb
    have htake := hpage.bytes
    rw [hpage.lead_nil hnot, nil_append] at htake
    have hnobom : ¬ bom <+: text :=
      fun hbom => hstart.noBom (hbom.trans (text_prefix_drop htake hp))
    have hhead : Boundary (after .start (incomplete output c p)) text.head? :=
      .inr (fun b hb => hnot b (head_of_take htake hp hb))
    have hpass : ∀ t, Loop.passOver { l with position := (page.nextCursor : Int) } t =
        ({ l with position := (page.nextCursor : Int) }, t) := by
      intro t
      simp only [Loop.passOver, hr.skipped]
    rw [hpass, decodeText_eq hnobom]
    have hr₀ : Reading parseFrame output s.frames c p
        { l with position := (page.nextCursor : Int) } :=
      { hr with }
    obtain ⟨hr', hpos⟩ := hr₀.takeText h.from_ hc hpp htake hhead
    refine ⟨by rw [Loop.dropLong_position, hpos], hr'.dropLong hcp' hc, ?_⟩
    intro hlast hskip
    by_cases htext : text = []
    · have hsame : page.nextCursor = p := by
        rw [hpage.next, hpage.lead_nil hnot, htext]
        rfl
      rw [hsame]
      exact h.boundary hr.skipped
    · rw [after_incomplete h.from_ hp htake hhead htext]
      exact hpage.boundary hlast htext
  · -- inside a skipped line
    have hsk₀ : Skipping parseFrame output s.frames p
        { l with position := (page.nextCursor : Int) } :=
      { hsk with }
    by_cases hnl : newline ∈ text
    · obtain ⟨line, later, rfl, hline⟩ := eq_append_cons_of_mem hnl
      obtain ⟨q, hq⟩ : ∃ q, q = p + (lead ++ (line ++ [newline])).length := ⟨_, rfl⟩
      have hplen : (output.take p).length = p := by rw [length_take]; omega
      have hwhole : output.take page.nextCursor =
          (output.take p ++ (lead ++ (line ++ [newline]))) ++ later := by
        rw [hpage.bytes]
        simp
      have hqle : q ≤ page.nextCursor := by
        have hnext := hpage.next
        simp only [length_append, length_cons, length_nil] at hnext hq
        omega
      have hq' : output.take q = output.take p ++ (lead ++ (line ++ [newline])) := by
        rw [← Nat.min_eq_left hqle, ← take_take, hwhole]
        exact take_left' (by rw [length_append, hplen, hq])
      obtain ⟨hlater, hr₁, hinc, hpos₁⟩ :=
        hsk₀.passOver_end h.from_ hq' hq hpage.lead_newline hline
      rw [hlater]
      have hcq : c ≤ q := by rw [hq]; exact Nat.le_trans h.from_ (Nat.le_add_right _ _)
      have htake : output.take page.nextCursor = output.take q ++ later := by rw [hq', hwhole]
      obtain ⟨hr', hpos⟩ := hr₁.takeText hcq hc hqle htake (by rw [hinc]; exact .inl rfl)
      refine ⟨by rw [Loop.dropLong_position, hpos, hpos₁], hr'.dropLong hcp' hc, ?_⟩
      intro hlast _
      have hafter : after .start (incomplete output c page.nextCursor) =
          after .start (line ++ newline :: later) := by
        have hlen : c ≤ (output.take p).length := by rw [hplen]; exact h.from_
        rw [incomplete, ← after_rest, hpage.bytes, drop_append_of_le_length hlen,
          ← append_assoc, ← append_assoc, after_newline, after_newline]
      rw [hafter]
      exact hpage.boundary hlast (by simp)
    · obtain ⟨hnil, hsk', hpos⟩ := hsk₀.passOver_inside hpage.bytes hpage.lead_newline hnl
      have hsame : ∀ l' : Loop Frame, Loop.takeText parseFrame l' [] = l' := by
        intro l'
        simp [Loop.takeText, split]
      rw [hnil, hsame, hsk'.dropLong]
      refine ⟨hpos, .inr hsk', fun _ hskip => ?_⟩
      have hsome := hsk'.skipped
      rw [hskip] at hsome
      cases hsome

/-! ## The answer of a read -/

/-- **An answer outside a skipped line leaves the cursor at the start of the page's last line.** -/
theorem Reading.answer (h : Reading parseFrame output base c p l)
    (hpos : l.position = p) (hcp : c ≤ p) (hp : p ≤ output.length)
    (hc : rest newline (output.take c) = [] ∨ OverLong (rest newline (output.take c)))
    (hend : EndsClean output c p) :
    ∃ c' : Nat, l.next = c' ∧ c' ≤ p ∧ c' + (incomplete output c p).length = p ∧
      Delivered parseFrame (lines newline (output.take c')) (base ++ l.frames) ∧
      (rest newline (output.take c') = [] ∨ OverLong (rest newline (output.take c'))) ∧
      (newline ∈ (output.take p).drop c → c < c') := by
  have hmid := join_split newline ((output.take p).drop c)
  have hmidlen : ((output.take p).drop c).length = p - c := by
    rw [length_drop, length_take]
    omega
  obtain ⟨ls, hls⟩ : ∃ ls, ls = lines newline ((output.take p).drop c) := ⟨_, rfl⟩
  obtain ⟨inc, hinc⟩ : ∃ inc, inc = incomplete output c p := ⟨_, rfl⟩
  have hinc' : rest newline ((output.take p).drop c) = inc := hinc.symm
  rw [← hls, hinc'] at hmid
  have hlen : (join newline ls).length + inc.length = p - c := by
    rw [← hmidlen, ← hmid, length_append]
  obtain ⟨c', hc'⟩ : ∃ c', c' = c + (join newline ls).length := ⟨_, rfl⟩
  have hclen : (output.take c).length = c := by rw [length_take]; omega
  have hwhole : output.take p = (output.take c ++ join newline ls) ++ inc := by
    rw [take_eq_append hcp, ← hmid, append_assoc]
  have htake : output.take c' = output.take c ++ join newline ls := by
    have hle : c' ≤ p := by omega
    rw [← Nat.min_eq_left hle, ← take_take, hwhole]
    exact take_left' (by rw [length_append, hclen, hc'])
  have hno : newline ∉ inc := hinc' ▸ not_mem_rest _
  refine ⟨c', ?_, by omega, by rw [← hinc]; omega, ?_, ?_, ?_⟩
  · have hbytes : l.partialBytes = inc.length := by rw [h.bytes, hinc]; exact hend
    simp only [Loop.next, h.skipped, isNone_none, if_true, hbytes]
    omega
  · have hlines : lines newline (output.take p) = lines newline (output.take c') := by
      rw [hwhole, ← htake, lines, split_append_of_nil (lines_eq_nil_iff.mpr hno)]
    rw [← hlines]
    exact h.delivered
  · rw [htake]
    cases hl : ls with
    | nil => simpa using hc
    | cons l₀ ls' =>
      have hjoin : split newline (join newline ls ++ []) = (ls, []) := by
        refine split_join ?_ not_mem_nil
        rw [hls]
        exact not_mem_lines _
      rw [append_nil] at hjoin
      have hcons : lines newline (join newline ls) = l₀ :: ls' := by
        rw [lines, hjoin, hl]
      left
      rw [← hl, rest, split_append_of_cons hcons]
      exact congrArg Prod.snd hjoin
  · intro hnl
    have hne : ls ≠ [] := by
      rw [hls]
      exact fun h0 => absurd hnl (lines_eq_nil_iff.mp h0)
    obtain ⟨l₀, ls', rfl⟩ := exists_cons_of_ne_nil hne
    rw [join_cons, length_append, length_cons] at hc'
    omega

variable {frames : List Frame}

/-- The last line, over-long or not there at all, needs no frame. -/
theorem delivered_allLines (h : Delivered parseFrame (lines newline output) frames)
    (hlast : rest newline output = [] ∨ OverLong (rest newline output)) :
    Delivered parseFrame (allLines output) frames := by
  unfold allLines
  split
  · rwa [append_nil]
  · rename_i hne
    have hlong := hlast.resolve_left hne
    have hdel : Delivered parseFrame _ (frames ++ []) := .long [] hlong h
    rwa [append_nil] at hdel

/-- **At the end of the output every line is returned.** -/
theorem finish_delivered (h : Reading parseFrame output base c output.length l ∨
      Skipping parseFrame output base output.length l) (hcp : c ≤ output.length)
    (hc : rest newline (output.take c) = [] ∨ OverLong (rest newline (output.take c))) :
    Delivered parseFrame (allLines output) (base ++ (l.finish parseFrame).frames) ∧
      (l.finish parseFrame).next = l.position ∧ (l.finish parseFrame).skipped = none := by
  rcases h with hr | hsk
  · have hdel := hr.delivered
    rw [take_length] at hdel
    have hlast := rest_take hcp hc
    rw [take_length] at hlast
    by_cases hbytes : 0 < l.partialBytes
    · -- the last line has bytes of its own
      have hne : incomplete output c output.length ≠ [] := by
        intro h0
        rw [hr.bytes, h0] at hbytes
        exact absurd hbytes (Nat.lt_irrefl 0)
      have hfin : (l.finish parseFrame).frames =
          l.frames ++ (frameOf parseFrame (incomplete output c output.length)).toList := by
        simp only [Loop.finish, hr.skipped, if_pos hbytes]
        rw [hr.text, Loop.take_frames]
      obtain ⟨hpos, _, _, hskip, _⟩ := Loop.take_rest parseFrame l l.partialText
      refine ⟨?_, ?_, ?_⟩
      · rw [hfin, ← append_assoc]
        by_cases hrest : rest newline output = []
        · exfalso
          rcases hlast with hl | ⟨part, hpart, hlong⟩
          · exact hne (hl.symm.trans hrest)
          · rw [hrest, prefix_nil] at hpart
            rw [hpart] at hlong
            exact absurd hlong (Nat.not_lt_zero _)
        · unfold allLines
          rw [if_neg hrest]
          rcases hlast with hl | hl
          · rw [hl]
            exact .line _ hdel
          · exact .long _ hl hdel
      · simp only [Loop.finish, hr.skipped, if_pos hbytes, Loop.next]
        omega
      · simp only [Loop.finish, hr.skipped, if_pos hbytes, hskip]
    · have hinc : incomplete output c output.length = [] := by
        have hz : l.partialBytes = 0 := by omega
        rw [hr.bytes] at hz
        exact decode_eq_nil.mp (byteLength_eq_zero.mp hz)
      rw [hinc] at hlast
      refine ⟨?_, ?_, ?_⟩
      · simp only [Loop.finish, hr.skipped, if_neg hbytes]
        exact delivered_allLines hdel hlast
      · simp only [Loop.finish, hr.skipped, if_neg hbytes, Loop.next, if_true]
        omega
      · simp only [Loop.finish, hr.skipped, if_neg hbytes]
  · obtain ⟨bytes, hbytes⟩ := isSome_iff_exists.mp hsk.skipped
    have hz : ¬ 0 < l.partialBytes := by rw [hsk.bytes]; exact Nat.lt_irrefl 0
    have hdel := hsk.delivered
    have hlong := hsk.long
    rw [take_length] at hdel hlong
    refine ⟨?_, ?_, ?_⟩
    · simp only [Loop.finish, hbytes, if_neg hz]
      exact delivered_allLines hdel (.inr hlong)
    · simp only [Loop.finish, hbytes, if_neg hz, Loop.next]
      omega
    · simp only [Loop.finish, hbytes, if_neg hz]

/-! ## The steps of a channel -/

/-- A read inside a page that is not the last answers. -/
theorem inv_answer (hinv : Inv parseFrame output s) (hs : AtLine parseFrame output s c)
    (hreport : s.reportedExit = false) (hlast : (page.exited && !page.more) = false)
    (hpos : l.position = p) (hcp : c ≤ p) (hp : p ≤ s.written)
    (hreads : Reading parseFrame output s.frames c p l ∨ Skipping parseFrame output s.frames p l)
    (hend : l.skipped = none → EndsClean output c p) : Inv parseFrame output (s.answer l page) ∧
      (newline ∈ (output.take p).drop c ∨ (l.skipped.isSome ∧ c < p) →
        s.cursor < (s.answer l page).cursor) := by
  have hplen : p ≤ output.length := Nat.le_trans hp hinv.written
  have hreport' : (s.answer l page).reportedExit = false := by
    simp only [State.answer, hreport, hlast, Bool.false_and, Bool.or_self]
  rcases hreads with hr | hsk
  · obtain ⟨c', hnext, hc', _, hdel, hline, hgrow⟩ :=
      hr.answer hpos hcp hplen hs.line (hend hr.skipped)
    refine ⟨⟨hinv.written, hinv.exited, .inl ⟨hreport', c', ⟨hnext, ?_, hdel, hline⟩, ?_, ?_⟩⟩, ?_⟩
    · exact Nat.le_trans hc' hp
    · intro q bytes hq
      simp [State.answer, hr.skipped] at hq
    · intro l' hl'
      cases hl'
    · intro h
      have hlt : c < c' := by
        refine h.elim hgrow (fun hsome => ?_)
        rw [hr.skipped] at hsome
        exact absurd hsome.1 (by simp)
      show s.cursor < l.next
      rw [hnext, hs.cursor]
      exact_mod_cast hlt
  · obtain ⟨bytes, hbytes⟩ := isSome_iff_exists.mp hsk.skipped
    have hnext : l.next = p := by
      simp only [Loop.next, hbytes, isNone_some, Bool.false_eq_true, if_false, hpos]
    refine ⟨⟨hinv.written, hinv.exited, .inl ⟨hreport', p,
      ⟨hnext, hp, hsk.delivered, .inr hsk.long⟩, ?_, ?_⟩⟩, ?_⟩
    · intro q bytes' _ _
      exact hsk.long
    · intro l' hl'
      cases hl'
    · intro h
      have hlt : c < p := by
        rcases h with h | h
        · by_contra hge
          rw [drop_eq_nil_of_le (by rw [length_take]; omega)] at h
          cases h
        · exact h.2
      show s.cursor < l.next
      rw [hnext, hs.cursor]
      exact_mod_cast hlt

/-- A read goes on after a page. -/
theorem inv_continue (hinv : Inv parseFrame output s) (hs : AtLine parseFrame output s c)
    (hreport : s.reportedExit = false)
    (hskipping : ∀ q bytes, s.skipping = some (q, bytes) → q = s.cursor →
      OverLong (rest newline (output.take c))) (hl : LoopAt parseFrame output s c p l) :
    Inv parseFrame output { s with loop := some l } := by
  refine ⟨hinv.written, hinv.exited, .inl ⟨hreport, c, { hs with }, hskipping, ?_⟩⟩
  intro l' hl'
  have hsame : l = l' := some.inj hl'
  subst hsame
  exact ⟨p, { hl with }⟩

/-- The page after the end of the output: nothing more. -/
theorem finish_start (parseFrame : List Char → Option Frame) (page : ProcessOutput)
    (hchunk : page.chunk = []) (hnext : page.nextCursor = p) :
    (Loop.readText parseFrame (Loop.start (p : Int) none) page).finish parseFrame =
      Loop.start (p : Int) none := by
  have hlong : ¬ RUNNER_LINE_MAX_BYTES < 0 := Nat.not_lt_zero _
  simp only [Loop.readText, hchunk, Loop.passOver, Loop.start, Loop.takeText, split, byteLength_nil,
    Loop.dropLong, if_neg hlong, Loop.finish,
    Nat.lt_irrefl, if_false, hnext]

/-- What a page may lead to: the end of the output, more pages, or nothing more for now. -/
theorem Loop.onPage_cases (parseFrame : List Char → Option Frame) (l : Loop Frame)
    (page : ProcessOutput) (timeLeft : Bool) : ((page.exited && !page.more) = true ∧
      l.onPage parseFrame page timeLeft = ((l.readText parseFrame page).finish parseFrame, true)) ∨
    ((page.exited && !page.more) = false ∧ page.more = true ∧ ∃ answers,
      l.onPage parseFrame page timeLeft = ({ l.readText parseFrame page with
            pages := (l.readText parseFrame page).pages + 1 }, answers) ∧
      (answers = true → (l.readText parseFrame page).Incomplete = false ∨
        (l.readText parseFrame page).skipped.isSome = true)) ∨
    ((page.exited && !page.more) = false ∧ page.more = false ∧ ∃ answers,
      l.onPage parseFrame page timeLeft = (l.readText parseFrame page, answers)) := by
  unfold Loop.onPage
  by_cases hlast : (page.exited && !page.more) = true
  · exact .inl ⟨hlast, by simp only [if_pos hlast]⟩
  · right
    simp only [if_neg hlast]
    have hlast' : (page.exited && !page.more) = false := Bool.not_eq_true _ ▸ hlast
    by_cases hmore : page.more = true
    · simp only [if_pos hmore]
      refine .inl ⟨hlast', hmore, _, rfl, ?_⟩
      intro hans
      rcases Bool.or_eq_true_iff.mp hans with h | h
      · left
        simpa [Loop.Incomplete] using h
      · exact .inr (Bool.and_eq_true_iff.mp h).1
    · simp only [if_neg hmore]
      refine .inr ⟨hlast', Bool.not_eq_true _ ▸ hmore, ?_⟩
      split
      · exact ⟨true, rfl⟩
      · exact ⟨_, rfl⟩

/-- The state after a page. -/
def State.afterPage (s : State Frame) (page : ProcessOutput) (result : Loop Frame × Bool) :
    State Frame :=
  if result.2 then s.answer result.1 page else { s with loop := some result.1 }

variable {s' : State Frame} {maxBytes : Nat} {timeLeft : Bool}

theorem step_page (h : step parseFrame output s (.page maxBytes timeLeft) = some s') :
    ∃ l, s.loop = some l ∧ s' = s.afterPage (s.nextPage output l maxBytes)
      (l.onPage parseFrame (s.nextPage output l maxBytes) timeLeft) := by
  simp only [step] at h
  cases hloop : s.loop with
  | none => rw [hloop] at h; cases h
  | some l =>
    rw [hloop] at h
    refine ⟨l, rfl, ?_⟩
    unfold State.afterPage
    simp only at h
    split at h <;> rename_i hans
    · rw [if_pos hans]
      exact (some.inj h).symm
    · rw [if_neg hans]
      exact (some.inj h).symm

section

variable (hinv : Inv parseFrame output s)
include hinv

/-- A page that is not the last: the read goes on, or answers past the lines that are there. -/
theorem inv_page_more (hs : AtLine parseFrame output s c) (hreport : s.reportedExit = false)
    (hskipping : ∀ q bytes, s.skipping = some (q, bytes) → q = s.cursor →
      OverLong (rest newline (output.take c))) (hlast : (page.exited && !page.more) = false)
    (hl : LoopAt parseFrame output s c page.nextCursor l)
    (hend : l.skipped = none → EndsClean output c page.nextCursor) (answers : Bool)
    (hprogress : answers = true → newline ∈ (output.take s.written).drop c →
      newline ∈ (output.take page.nextCursor).drop c ∨ (l.skipped.isSome ∧ c < page.nextCursor)) :
    Inv parseFrame output (s.afterPage page (l, answers)) ∧
      ((s.afterPage page (l, answers)).loop = none → newline ∈ (output.take s.written).drop c →
        s.cursor < (s.afterPage page (l, answers)).cursor) := by
  cases answers with
  | true =>
    obtain ⟨hinv', hprog⟩ :=
      inv_answer hinv hs hreport hlast hl.position hl.from_ hl.within hl.reads hend
    exact ⟨hinv', fun _ hnl => hprog (hprogress rfl hnl)⟩
  | false =>
    exact ⟨inv_continue hinv hs hreport hskipping hl, fun hnone => by cases hnone⟩

/-- The last page: every line is returned. -/
theorem inv_page_last (hs : AtLine parseFrame output s c)
    (hexited : s.exited = true) (hend : page.nextCursor = output.length)
    (hl : LoopAt parseFrame output s c page.nextCursor l) :
    Inv parseFrame output (s.answer (l.finish parseFrame) page) ∧
      (newline ∈ (output.take s.written).drop c →
        s.cursor < (s.answer (l.finish parseFrame) page).cursor) := by
  rw [hend] at hl
  obtain ⟨hdel, hnext, hnone⟩ := finish_delivered hl.reads hl.from_ hs.line
  have hcur : (s.answer (l.finish parseFrame) page).cursor = output.length :=
    hnext.trans hl.position
  refine ⟨⟨hinv.written, hinv.exited, .inr ⟨⟨hexited, hcur, hdel⟩, ?_, ?_⟩⟩, ?_⟩
  · simp only [State.answer, hnone, map_none]
  · intro l' hl'
    cases hl'
  · intro hnl
    have hlt : c < output.length := by
      by_contra hge
      rw [drop_eq_nil_of_le (by rw [length_take]; omega)] at hnl
      cases hnl
    rw [hcur, hs.cursor]
    exact_mod_cast hlt

/-- A page read from a line's start. -/
theorem inv_page_atLine
    (hclean : Clean parseFrame output s (.page maxBytes timeLeft)) (hloop : s.loop = some l)
    (hs : AtLine parseFrame output s c) (hreport : s.reportedExit = false)
    (hskipping : ∀ q bytes, s.skipping = some (q, bytes) → q = s.cursor →
      OverLong (rest newline (output.take c))) (hl : LoopAt parseFrame output s c p l)
    (hs' : s' = s.afterPage (s.nextPage output l maxBytes)
      (l.onPage parseFrame (s.nextPage output l maxBytes) timeLeft)) :
    Inv parseFrame output s' ∧ (s'.loop = none →
      newline ∈ (output.take s.written).drop c → s.cursor < s'.cursor) := by
  obtain ⟨hstarts, hends⟩ := hclean l hloop
  have hcursor : s.cursor.toNat = c := by rw [hs.cursor, Int.toNat_natCast]
  have hposition : l.position.toNat = p := by rw [hl.position, Int.toNat_natCast]
  rw [hcursor, hposition] at hstarts
  rw [hcursor] at hends
  obtain ⟨lead, text, hpage⟩ : ∃ lead text,
      PageAt output s.written s.exited p (s.nextPage output l maxBytes) lead text := by
    have hspec := readProcessOutput_spec hl.within hinv.written s.exited maxBytes
    simpa only [State.nextPage, hl.position] using hspec
  generalize s.nextPage output l maxBytes = page at *
  obtain ⟨hpos, hreads, hbound⟩ := hl.readText hinv.written hs.line hpage hstarts
  have hcp : c ≤ page.nextCursor := Nat.le_trans hl.from_ (by rw [hpage.next]; omega)
  subst hs'
  rcases Loop.onPage_cases parseFrame l page timeLeft with
    ⟨hlast, hres⟩ | ⟨hlast, hmore, answers, hres, hans⟩ | ⟨hlast, hmore, answers, hres⟩
  · rw [hres]
    have hexited : s.exited = true := hpage.status ▸ (Bool.and_eq_true_iff.mp hlast).1
    have hend : page.nextCursor = output.length := by
      rw [hpage.last hlast, hinv.exited hexited]
    have hnone : output[page.nextCursor]? = none := by
      rw [hend]
      exact List.getElem?_eq_none (Nat.le_refl _)
    obtain ⟨hinv', hprog⟩ := inv_page_last hinv hs hexited hend
      ⟨hpos, hcp, hpage.within, fun _ => hnone ▸ .inr (fun b hb => by cases hb), hreads⟩
    exact ⟨hinv', fun _ => hprog⟩
  · rw [hres]
    have hgt : p < page.nextCursor := hpage.more hmore
    have hl' : LoopAt parseFrame output s c page.nextCursor
        { l.readText parseFrame page with
          pages := (l.readText parseFrame page).pages + 1 } := by
      refine ⟨hpos, hcp, hpage.within, hbound hlast, ?_⟩
      rcases hreads with h | h
      · exact .inl { h with }
      · exact .inr ⟨h.delivered, h.text, h.bytes, h.skipped, h.long⟩
    refine inv_page_more hinv hs hreport hskipping hlast hl' (hends hlast) answers ?_
    -- the page got on, and answered with no line incomplete
    intro hanswers _
    rcases hreads with h | h
    · left
      by_contra hno
      have hinc : incomplete output c page.nextCursor =
          (output.take page.nextCursor).drop c := rest_eq_self hno
      have hz : (l.readText parseFrame page).partialBytes = 0 := by
        have hnot := (hans hanswers).resolve_right (by simp [h.skipped])
        simpa [Loop.Incomplete, h.skipped] using hnot
      rw [h.bytes, byteLength_eq_zero, decode_eq_nil, hinc] at hz
      have hlen := congrArg List.length hz
      rw [length_drop, length_take, length_nil] at hlen
      have hwithin := hpage.within
      have hwritten := hinv.written
      have hfrom := hl.from_
      omega
    · exact .inr ⟨h.skipped, Nat.lt_of_le_of_lt hl.from_ hgt⟩
  · rw [hres]
    refine inv_page_more hinv hs hreport hskipping hlast
      ⟨hpos, hcp, hpage.within, hbound hlast, hreads⟩ (hends hlast) answers (fun _ hnl => .inl ?_)
    -- what is left after the page has no line's end
    rw [take_eq_append hpage.within, drop_append, mem_append] at hnl
    exact hnl.resolve_right (fun h => hpage.caught_up hmore (mem_of_mem_drop h))

/-- A page read when everything was returned: nothing more. -/
theorem inv_page_drained (hd : Drained parseFrame output s)
    (hs' : s' = s.afterPage (s.nextPage output (.start s.cursor none) maxBytes)
      ((Loop.start s.cursor none).onPage parseFrame
        (s.nextPage output (.start s.cursor none) maxBytes) timeLeft)) :
    Inv parseFrame output s' := by
  have hwritten := hinv.exited hd.exited
  obtain ⟨lead, text, hpage⟩ : ∃ lead text, PageAt output s.written s.exited output.length
      (s.nextPage output (.start s.cursor none) maxBytes) lead text := by
    have hspec := readProcessOutput_spec (Nat.le_of_eq hwritten.symm) hinv.written s.exited
      maxBytes
    simpa only [State.nextPage, Loop.start, hd.cursor] using hspec
  generalize s.nextPage output (.start s.cursor none) maxBytes = page at *
  have hwithin := hpage.within
  have hsum := hpage.next
  have hnext : page.nextCursor = output.length := by omega
  have htext : text = [] := length_eq_zero_iff.mp (by omega)
  have hchunk : page.chunk = [] := by
    rw [hpage.chunk, htext]
    rfl
  have hfin := finish_start parseFrame page hchunk hnext
  rw [hd.cursor] at hs'
  rcases Loop.onPage_cases parseFrame (.start (output.length : Int) none) page
    timeLeft with ⟨_, hres⟩ | ⟨_, hmore, _⟩ | ⟨hlast, hmore, _⟩
  · rw [hres, hfin] at hs'
    subst hs'
    have hcur : (s.answer (Loop.start (output.length : Int) none) page).cursor =
        output.length := by
      simp [State.answer, Loop.next, Loop.start]
    refine ⟨hinv.written, hinv.exited, .inr ⟨⟨hd.exited, hcur, ?_⟩, rfl, ?_⟩⟩
    · simpa [State.afterPage, State.answer, Loop.start] using hd.delivered
    · intro l' hl'
      cases hl'
  · have := hpage.more hmore
    omega
  · rw [hpage.status, hd.exited, hmore] at hlast
    cases hlast

/-- **A page keeps the invariant, and an answer gets past a line that is there.** -/
theorem inv_page (hclean : Clean parseFrame output s (.page maxBytes timeLeft))
    (hstep : step parseFrame output s (.page maxBytes timeLeft) = some s') :
    Inv parseFrame output s' ∧ (s'.loop = none →
      newline ∈ (output.take s.written).drop s.cursor.toNat → s.cursor < s'.cursor) := by
  obtain ⟨l, hloop, hs'⟩ := step_page hstep
  rcases hinv.place with ⟨hreport, c, hs, hskipping, hloops⟩ | ⟨hd, _, hloops⟩
  · obtain ⟨p, hl⟩ := hloops l hloop
    have hcursor : s.cursor.toNat = c := by rw [hs.cursor, Int.toNat_natCast]
    rw [hcursor]
    exact inv_page_atLine hinv hclean hloop hs hreport hskipping hl hs'
  · rw [hloops l hloop] at hs'
    refine ⟨inv_page_drained hinv hd hs', fun _ hnl => ?_⟩
    rw [hd.cursor, Int.toNat_natCast, drop_eq_nil_of_le (by rw [length_take]; omega)] at hnl
    cases hnl

/-- A new read, from the last cursor. -/
theorem inv_begin
    (hstep : step parseFrame output s .begin = some s') : Inv parseFrame output s' := by
  simp only [step] at hstep
  split at hstep
  · rw [← some.inj hstep]
    refine ⟨hinv.written, hinv.exited, ?_⟩
    rcases hinv.place with ⟨hreport, c, hs, hskipping, _⟩ | ⟨hd, hskip, _⟩
    · refine .inl ⟨hreport, c, { hs with }, hskipping, ?_⟩
      intro l hl
      have hsame : Loop.start s.cursor s.skipping = l := some.inj hl
      subst hsame
      have hinc : incomplete output c c = [] := by
        rw [incomplete, drop_eq_nil_of_le (by rw [length_take]; omega)]
        rfl
      refine ⟨c, ⟨hs.cursor, Nat.le_refl c, hs.le, fun _ => ?_, ?_⟩⟩
      · rw [hinc]
        exact .inl rfl
      · have hdel : Delivered parseFrame (lines newline (output.take c))
            (s.frames ++ []) := by rw [append_nil]; exact hs.delivered
        cases hsk : s.skipping with
        | none => exact .inl ⟨hdel, by rw [hinc]; rfl, by rw [hinc]; rfl, rfl⟩
        | some skip =>
          obtain ⟨at_, bytes⟩ := skip
          by_cases hat : at_ = s.cursor
          · refine .inr ⟨hdel, rfl, rfl, ?_, hskipping at_ bytes hsk hat⟩
            simp [Loop.start, hat]
          · refine .inl ⟨hdel, by rw [hinc]; rfl, by rw [hinc]; rfl, ?_⟩
            simp [Loop.start, hat]
    · refine .inr ⟨⟨hd.exited, hd.cursor, hd.delivered⟩, hskip, ?_⟩
      intro l hl
      rw [← some.inj hl, hskip]
  · cases hstep

end

/-- **Every event keeps the invariant.** -/
theorem inv_step {e : Event} (hinv : Inv parseFrame output s) (hclean : Clean parseFrame output s e)
    (hstep : step parseFrame output s e = some s') : Inv parseFrame output s' := by
  cases e with
  | begin => exact inv_begin hinv hstep
  | page maxBytes timeLeft => exact (inv_page hinv hclean hstep).1
  | write bytes =>
    simp only [step] at hstep
    split at hstep
    · rename_i h
      obtain ⟨hrunning, hle⟩ := h
      rw [← some.inj hstep]
      refine ⟨hle, fun hex => absurd (hrunning.symm.trans hex) (by simp), ?_⟩
      rcases hinv.place with ⟨hreport, c, hs, hskipping, hloops⟩ | ⟨hd, _⟩
      · refine .inl ⟨hreport, c, ⟨hs.cursor, Nat.le_trans hs.le (Nat.le_add_right _ _),
          hs.delivered, hs.line⟩, hskipping, fun l hl => ?_⟩
        obtain ⟨p, hp⟩ := hloops l hl
        exact ⟨p, hp.position, hp.from_, Nat.le_trans hp.within (Nat.le_add_right _ _),
          hp.boundary, hp.reads⟩
      · exact absurd (hrunning.symm.trans hd.exited) (by simp)
    · cases hstep
  | exit =>
    simp only [step] at hstep
    split at hstep
    · rename_i hall
      rw [← some.inj hstep]
      refine ⟨hinv.written, fun _ => hall, ?_⟩
      rcases hinv.place with ⟨hreport, c, hs, hskipping, hloops⟩ | ⟨hd, hskip, hloops⟩
      · refine .inl ⟨hreport, c, { hs with }, hskipping,
          fun l hl => ?_⟩
        obtain ⟨p, hp⟩ := hloops l hl
        exact ⟨p, hp.position, hp.from_, hp.within, hp.boundary, hp.reads⟩
      · exact .inr ⟨⟨rfl, hd.cursor, hd.delivered⟩, hskip, hloops⟩
    · cases hstep
  | fail =>
    rw [← some.inj hstep]
    refine ⟨hinv.written, hinv.exited, ?_⟩
    rcases hinv.place with ⟨hreport, c, hs, hskipping, _⟩ | ⟨hd, hskip, _⟩
    · exact .inl ⟨hreport, c, { hs with }, hskipping,
        fun l hl => by cases hl⟩
    · exact .inr ⟨⟨hd.exited, hd.cursor, hd.delivered⟩, hskip, fun l hl => by cases hl⟩
  | reattach =>
    rw [← some.inj hstep]
    refine ⟨hinv.written, hinv.exited, ?_⟩
    rcases hinv.place with ⟨hreport, c, hs, _, _⟩ | ⟨hd, _, _⟩
    · exact .inl ⟨hreport, c, { hs with },
        fun q bytes hq => (by cases hq), fun l hl => (by cases hl)⟩
    · exact .inr ⟨⟨hd.exited, hd.cursor, hd.delivered⟩, rfl, fun l hl => by cases hl⟩

theorem inv_init : Inv parseFrame output (.init : State Frame) where
  written := Nat.zero_le _
  exited := by intro h; cases h
  place := .inl ⟨rfl, 0, ⟨rfl, Nat.le_refl 0, .nil, .inl rfl⟩, fun q bytes hq => (by cases hq),
    fun l hl => (by cases hl)⟩

theorem Inv.served (h : Inv parseFrame output s) : Served parseFrame output s := by
  rcases h.place with ⟨hreport, c, hs, _⟩ | ⟨hd, _⟩
  · exact ⟨.inl ⟨c, hs⟩, fun hr => absurd (hreport.symm.trans hr) (by simp)⟩
  · exact ⟨.inr hd, fun _ => hd⟩

/--
**Frames are returned exactly once, in the order of the output.**

In a run whose pages start and end clean, the frames returned so far are in every state
those of the lines before the cursor, and the cursor lies at the start of a line (inside
an over-long line at most); once a read has reported the exit, every line was returned.
And an answer always gets past a line that is there to read.
-/
theorem frames_returned_once {s : State Frame}
    (h : Reach (step parseFrame output) (Clean parseFrame output) .init s) :
    Served parseFrame output s ∧ ∀ maxBytes timeLeft s',
      Clean parseFrame output s (.page maxBytes timeLeft) →
      step parseFrame output s (.page maxBytes timeLeft) = some s' → s'.loop = none →
      newline ∈ (output.take s.written).drop s.cursor.toNat → s.cursor < s'.cursor := by
  have hinv : Inv parseFrame output s :=
    h.invariant inv_init (fun _ _ _ => inv_step)
  exact ⟨hinv.served, fun _ _ _ hclean hstep => (inv_page hinv hclean hstep).2⟩

/-! ## Two outputs -/

/-- A frame line, and a diagnostic that is written in two parts. -/
def plainOutput : List UInt8 := [0x1E, 0x7B, 0x7D, 0x0A, 0x68, 0x69, 0x0A]

/-- A frame line, and bytes that are no UTF-8. -/
def junkOutput : List UInt8 := [0x1E, 0x7B, 0x7D, 0x0A, 0xFF, 0xFF, 0xFF]

/-- A frame, and a diagnostic line cut by the page: two clean reads. -/
theorem frames_returned_once_plain :
    ∃ s : State (List Char), Reach (step some plainOutput) (Clean some plainOutput) .init s ∧
      s.frames = [['{', '}']] ∧ Served some plainOutput s := by
  have hrun : (execOk (step some plainOutput) (Clean some plainOutput) (.init : State (List Char))
      [.write 5, .begin, .page 1024 true, .write 2, .begin, .page 1024 true]).map
        (fun s => s.frames) = some [['{', '}']] := by
    decide +kernel
  obtain ⟨s, hs, hframes⟩ := map_eq_some_iff.mp hrun
  exact ⟨s, reach_of_execOk hs, hframes, (frames_returned_once (reach_of_execOk hs)).1⟩

theorem Delivered.of_no_lines {lines : List (List UInt8)} (h : Delivered parseFrame lines frames)
    (hnone : lines = []) : frames = [] := by
  cases h with
  | nil => rfl
  | line => simp at hnone
  | long => simp at hnone

/--
Bytes that are no UTF-8 move the cursor: U+FFFD is two bytes longer than the byte it
stands for, so the first read answers with a cursor before the frame it returned, and the
second read returns the frame again.
-/
theorem junk_moves_cursor :
    ¬ ∀ (Frame : Type) (parseFrame : List Char → Option Frame) (output : List UInt8)
        (s : State Frame), Reach (step parseFrame output) anyEvent .init s →
      Served parseFrame output s := by
  intro hclaim
  have hrun : (exec (step some junkOutput) (.init : State (List Char))
      [.write 7, .begin, .page 1024 true, .begin, .page 1024 true]).map
        (fun s => (s.frames, s.cursor)) = some ([['{', '}'], ['{', '}']], 0) := by
    decide +kernel
  obtain ⟨s, hs, hend⟩ := map_eq_some_iff.mp hrun
  obtain ⟨hframes, hcursor⟩ := Prod.mk.inj hend
  rcases (hclaim _ _ _ s (reach_of_exec hs)).place with ⟨c, hc⟩ | hd
  · have hzero : c = 0 := by have := hc.cursor; omega
    have hnone := hc.delivered
    rw [hzero] at hnone
    rw [hnone.of_no_lines rfl] at hframes
    cases hframes
  · have := hd.cursor
    rw [hcursor] at this
    cases this

end Catamorphic.Runner
