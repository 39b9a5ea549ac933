import Catamorphic.Runner.Channel
import Mathlib

/-!
# Every frame line is returned once

Whatever a runner prints beside its frames, and wherever pages are cut and readers
change, the frames returned so far are those of the lines before the cursor, in order,
and the cursor lies at the start of a line. Only a line longer than any frame may be
skipped.

A channel counts the bytes of an incomplete line in its decoded text. So this needs that
no page starts with a byte-order mark or a stray continuation byte, which decoding drops,
and that a line a page leaves incomplete decodes to a text of its own length.
-/

namespace Catamorphic.Runner

open Utf8 Runs List Option Lines

section

variable {Frame : Type} (parseFrame : List Char → Option Frame) (output : List UInt8)

/-- The frame on a line of output. -/
def frameOf (line : List UInt8) : Option Frame := (framePayload (decode line)).bind parseFrame

/-- A line some beginning of which is already longer than a runner's longest. -/
def OverLong (line : List UInt8) : Prop :=
  ∃ part, part <+: line ∧ RUNNER_LINE_MAX_BYTES < byteLength (decode part)

/-- The frames returned for some lines: each line's own, once; any for an over-long line. -/
inductive Delivered : List (List UInt8) → List Frame → Prop
  | nil : Delivered [] []
  | line {lines : List (List UInt8)} {frames : List Frame} (line : List UInt8) :
      Delivered lines frames →
      Delivered (lines ++ [line]) (frames ++ (frameOf parseFrame line).toList)
  | long {lines : List (List UInt8)} {frames : List Frame} {line : List UInt8}
      (extra : List Frame) : OverLong line → Delivered lines frames →
      Delivered (lines ++ [line]) (frames ++ extra)

/-- Every line, the last one also where the output ends without a newline. -/
def allLines : List (List UInt8) :=
  lines newline output ++
    (if rest newline output = [] then [] else [rest newline output])

/-- The bytes of the line a read from `c` is inside of at `p`. -/
def incomplete (c p : Nat) : List UInt8 := rest newline ((output.take p).drop c)

/-- Decoding drops nothing at the start of a page. -/
structure StartsClean (c p : Nat) : Prop where
  noBom : ¬ bom <+: output.drop p
  notStray : after .start (incomplete output c p) = .start → ∀ b ∈ output[p]?, ¬ Continuation b

/-- The line a page leaves incomplete decodes to a text of its own length. -/
def EndsClean (c p : Nat) : Prop :=
  byteLength (decode (incomplete output c p)) = (incomplete output c p).length

/-- What the channel relies on, page by page; nothing inside a line it skips. -/
def Clean (s : State Frame) : Event → Prop
  | .page maxBytes _ => ∀ l, s.loop = some l →
      (l.skipped = none → StartsClean output s.cursor.toNat l.position.toNat) ∧
        (((s.nextPage output l maxBytes).exited && !(s.nextPage output l maxBytes).more) = false →
          (l.readText parseFrame (s.nextPage output l maxBytes)).skipped = none →
          EndsClean output s.cursor.toNat (s.nextPage output l maxBytes).nextCursor)
  | _ => True

instance (c p : Nat) : Decidable (StartsClean output c p) :=
  decidable_of_iff (¬ bom <+: output.drop p ∧
      (after .start (incomplete output c p) = .start → ∀ b ∈ output[p]?, ¬ Continuation b))
    ⟨fun h => ⟨h.1, h.2⟩, fun h => ⟨h.noBom, h.notStray⟩⟩

instance (c p : Nat) : Decidable (EndsClean output c p) := inferInstanceAs (Decidable (_ = _))

instance (s : State Frame) (e : Event) : Decidable (Clean parseFrame output s e) :=
  match e, hl : s.loop with
  | .page maxBytes timeLeft, none => .isTrue (fun l h => by rw [hl] at h; cases h)
  | .page maxBytes timeLeft, some l =>
    decidable_of_iff
      ((l.skipped = none → StartsClean output s.cursor.toNat l.position.toNat) ∧
        (((s.nextPage output l maxBytes).exited && !(s.nextPage output l maxBytes).more) = false →
          (l.readText parseFrame (s.nextPage output l maxBytes)).skipped = none →
          EndsClean output s.cursor.toNat (s.nextPage output l maxBytes).nextCursor))
      ⟨fun h l' hl' => by
        rw [hl, some.injEq] at hl'
        exact hl' ▸ h, fun h => h l hl⟩
  | .write _, _ => .isTrue trivial
  | .exit, _ => .isTrue trivial
  | .begin, _ => .isTrue trivial
  | .fail, _ => .isTrue trivial
  | .reattach, _ => .isTrue trivial

/-- The frames are those of the lines before the cursor, which lies at the start of a
line or inside an over-long one. -/
structure AtLine (s : State Frame) (c : Nat) : Prop where
  cursor : s.cursor = c
  le : c ≤ s.written
  delivered : Delivered parseFrame (lines newline (output.take c)) s.frames
  line : rest newline (output.take c) = [] ∨ OverLong (rest newline (output.take c))

/-- The runner is gone, and every line of its output was returned. -/
structure Drained (s : State Frame) : Prop where
  exited : s.exited = true
  cursor : s.cursor = output.length
  delivered : Delivered parseFrame (allLines output) s.frames

/-- What is promised of every state: the place of the cursor, and that nothing is left
when a read has reported the exit. -/
structure Served (s : State Frame) : Prop where
  place : (∃ c, AtLine parseFrame output s c) ∨ Drained parseFrame output s
  reported : s.reportedExit = true → Drained parseFrame output s

/-- A read outside a skipped line, come to `p`. -/
structure Reading (base : List Frame) (c p : Nat) (l : Loop Frame) : Prop where
  delivered : Delivered parseFrame (lines newline (output.take p)) (base ++ l.frames)
  text : l.partialText = decode (incomplete output c p)
  bytes : l.partialBytes = byteLength (decode (incomplete output c p))
  skipped : l.skipped = none

/-- A read inside a skipped line, come to `p`. -/
structure Skipping (base : List Frame) (p : Nat) (l : Loop Frame) : Prop where
  delivered : Delivered parseFrame (lines newline (output.take p)) (base ++ l.frames)
  text : l.partialText = []
  bytes : l.partialBytes = 0
  skipped : l.skipped.isSome
  long : OverLong (rest newline (output.take p))

/-- A read from `c` that goes on. -/
structure LoopAt (s : State Frame) (c p : Nat) (l : Loop Frame) : Prop where
  position : l.position = p
  from_ : c ≤ p
  within : p ≤ s.written
  boundary : l.skipped = none → Boundary (after .start (incomplete output c p)) output[p]?
  reads : Reading parseFrame output s.frames c p l ∨ Skipping parseFrame output s.frames p l

/-- The invariant of a channel and its readers. -/
structure Inv (s : State Frame) : Prop where
  written : s.written ≤ output.length
  exited : s.exited = true → s.written = output.length
  /-- At a line, with a read that goes on from there; or done. -/
  place : (s.reportedExit = false ∧ ∃ c, AtLine parseFrame output s c ∧
      (∀ q bytes, s.skipping = some (q, bytes) → q = s.cursor →
        OverLong (rest newline (output.take c))) ∧
      ∀ l, s.loop = some l → ∃ p, LoopAt parseFrame output s c p l) ∨
    (Drained parseFrame output s ∧ s.skipping = none ∧
      ∀ l, s.loop = some l → l = .start s.cursor none)

end

variable {Frame : Type} {parseFrame : List Char → Option Frame} {output : List UInt8}

/-! ## Lines of the output -/

theorem OverLong.append {s : List UInt8} (h : OverLong s) (t : List UInt8) : OverLong (s ++ t) := by
  obtain ⟨part, hpart, hlong⟩ := h
  exact ⟨part, hpart.trans (prefix_append s t), hlong⟩

variable {c p : Nat}

theorem take_eq_append (h : c ≤ p) : output.take p = output.take c ++ (output.take p).drop c := by
  have htake : (output.take p).take c = output.take c := by
    rw [take_take, Nat.min_eq_left h]
  rw [← htake, take_append_drop]

/-- The line at `p` is the part of it this read has, or is over-long. -/
theorem rest_take (hcp : c ≤ p)
    (hc : rest newline (output.take c) = [] ∨ OverLong (rest newline (output.take c))) :
    rest newline (output.take p) = incomplete output c p ∨
      OverLong (rest newline (output.take p)) := by
  rw [take_eq_append hcp]
  cases hls : lines newline ((output.take p).drop c) with
  | cons l ls =>
    left
    rw [rest, split_append_of_cons hls]
    rfl
  | nil =>
    rw [rest, split_append_of_nil hls]
    rcases hc with h | h
    · left
      rw [h, nil_append]
      rfl
    · exact .inr (h.append _)

/-! ## One line of text -/

namespace Loop

theorem take_frames (l : Loop Frame) (line : List UInt8) :
    (take parseFrame l (decode line)).frames = l.frames ++ (frameOf parseFrame line).toList := by
  unfold take frameOf
  cases hp : framePayload (decode line) with
  | none =>
    simp only [bind_none, toList_none, append_nil]
    split <;> rfl
  | some payload =>
    simp only [bind_some]
    cases parseFrame payload <;> simp

theorem take_rest (parseFrame : List Char → Option Frame) (l : Loop Frame) (line : List Char) :
    (take parseFrame l line).position = l.position ∧
      (take parseFrame l line).partialText = l.partialText ∧
      (take parseFrame l line).partialBytes = l.partialBytes ∧
      (take parseFrame l line).skipped = l.skipped ∧
      (take parseFrame l line).pages = l.pages := by
  unfold take
  split
  · split <;> exact ⟨rfl, rfl, rfl, rfl, rfl⟩
  · split <;> exact ⟨rfl, rfl, rfl, rfl, rfl⟩

/-- Lines one after the other. -/
theorem foldl_take (base : List Frame) (lines : List (List UInt8)) :
    ∀ (done : List (List UInt8)) (l : Loop Frame), Delivered parseFrame done (base ++ l.frames) →
      let l' := (lines.map decode).foldl (take parseFrame) l
      Delivered parseFrame (done ++ lines) (base ++ l'.frames) ∧
        l'.position = l.position ∧ l'.partialText = l.partialText ∧
        l'.partialBytes = l.partialBytes ∧ l'.skipped = l.skipped := by
  induction lines with
  | nil => intro done l h; simpa using h
  | cons line lines ih =>
    intro done l h
    obtain ⟨hpos, htext, hbytes, hskip, _⟩ := take_rest parseFrame l (decode line)
    have hone : Delivered parseFrame (done ++ [line])
        (base ++ (take parseFrame l (decode line)).frames) := by
      rw [take_frames, ← append_assoc]
      exact .line line h
    obtain ⟨hdel, hpos', htext', hbytes', hskip'⟩ := ih _ _ hone
    refine ⟨by simpa using hdel, hpos'.trans hpos, htext'.trans htext, hbytes'.trans hbytes,
      hskip'.trans hskip⟩

end Loop

variable {p' : Nat} {l : Loop Frame}

/-! ## The text of a page -/

section

variable {base : List Frame} (h : Reading parseFrame output base c p l) (hcp : c ≤ p)
  (hc : rest newline (output.take c) = [] ∨ OverLong (rest newline (output.take c)))
include h hcp hc

/-- **A page's text takes a read on to where the page ends.** -/
theorem Reading.takeText {text : List UInt8}
    (hpp : p ≤ p') (htake : output.take p' = output.take p ++ text)
    (hb : Boundary (after .start (incomplete output c p)) text.head?) :
    Reading parseFrame output base c p' (l.takeText parseFrame (decode text)) ∧
      (l.takeText parseFrame (decode text)).position = l.position := by
  have hdrop : (output.take p').drop c = (output.take p).drop c ++ text := by
    rw [htake, drop_append]
    have : c - (output.take p).length = 0 ∨ text = [] := by
      by_cases hlen : c ≤ (output.take p).length
      · left; omega
      · right
        have hl : output.length < c := by
          rw [length_take] at hlen
          omega
        have h₁ : output.take p' = output := take_of_length_le (by omega)
        have h₂ : output.take p = output := take_of_length_le (by omega)
        rw [h₁, h₂] at htake
        simpa using htake
    rcases this with h0 | h0
    · rw [h0, drop_zero]
    · rw [h0]; simp
  unfold Loop.takeText
  simp only [split_decode]
  cases hls : lines newline text with
  | nil =>
    have hrest : rest newline text = text :=
      rest_eq_self (lines_eq_nil_iff.mp hls)
    have hinc' : incomplete output c p' = incomplete output c p ++ text := by
      rw [incomplete, hdrop, rest, split_append_of_nil hls, hrest]
      rfl
    have hdec : decode (incomplete output c p') = decode (incomplete output c p) ++ decode
      text := by
      rw [hinc', decode_append hb]
    simp only [map_nil]
    refine ⟨⟨?_, ?_, ?_, h.skipped⟩, trivial⟩
    · rw [htake, lines, split_append_of_nil hls]
      exact h.delivered
    · rw [hdec, hrest, h.text]
    · rw [hdec, hrest, h.bytes, byteLength_append]
  | cons first later =>
    have hinc' : incomplete output c p' = rest newline text := by
      rw [incomplete, hdrop, rest, split_append_of_cons hls]
    have hlines' : lines newline (output.take p') =
        (lines newline (output.take p) ++
          [rest newline (output.take p) ++ first]) ++ later := by
      rw [htake, lines, split_append_of_cons hls]
      simp
    -- the first line begins on earlier pages
    have hjoined : text = first ++ newline :: (join newline later ++ rest newline text) := by
      conv_lhs => rw [← join_split newline text, hls]
      simp
    have hfirst : decode (incomplete output c p ++ first) =
        decode (incomplete output c p) ++ decode first := by
      refine decode_append ?_
      cases hf : first with
      | nil => exact .inr (fun b hb => by cases hb)
      | cons b bs =>
        rw [hjoined, hf] at hb
        exact hb
    have hone : Delivered parseFrame
        (lines newline (output.take p) ++ [rest newline (output.take p) ++ first])
        (base ++ (Loop.take parseFrame l (l.partialText ++ decode first)).frames) := by
      rw [h.text, ← hfirst, Loop.take_frames, ← append_assoc]
      rcases rest_take hcp hc with hr | hr
      · rw [hr]
        exact .line _ h.delivered
      · exact .long _ (hr.append first) h.delivered
    obtain ⟨hpos, _, _, hskip, _⟩ :=
      Loop.take_rest parseFrame l (l.partialText ++ decode first)
    obtain ⟨hdel, hpos', htext', hbytes', hskip'⟩ := Loop.foldl_take base later _
      { Loop.take parseFrame l (l.partialText ++ decode first) with
        partialText := [], partialBytes := 0 } hone
    simp only [map_cons]
    refine ⟨⟨?_, ?_, ?_, ?_⟩, hpos'.trans hpos⟩
    · rw [hlines']
      exact hdel
    · rw [htext', hinc', nil_append]
    · rw [hbytes', hinc', Nat.zero_add]
    · rw [hskip']
      exact hskip.trans h.skipped

theorem Reading.dropLong :
    Reading parseFrame output base c p l.dropLong ∨ Skipping parseFrame output base p
      l.dropLong := by
  unfold Loop.dropLong
  split
  · rename_i hlong
    right
    refine ⟨h.delivered, rfl, rfl, rfl, ?_⟩
    rcases rest_take hcp hc with hr | hr
    · exact ⟨incomplete output c p, hr ▸ prefix_refl _, h.bytes ▸ hlong⟩
    · exact hr
  · exact .inl h

end

section

variable {base : List Frame} (h : Skipping parseFrame output base p l)
include h

theorem Skipping.dropLong : l.dropLong = l := by
  have hshort : ¬ RUNNER_LINE_MAX_BYTES < l.partialBytes := by rw [h.bytes]; exact Nat.not_lt_zero _
  rw [Loop.dropLong, if_neg hshort]

omit h in
theorem Loop.dropLong_position (l : Loop Frame) : l.dropLong.position = l.position := by
  unfold Loop.dropLong
  split <;> rfl

/-- A skipped line goes on through the page. -/
theorem Skipping.passOver_inside {lead text : List UInt8}
    (htake : output.take p' = output.take p ++ (lead ++ text)) (hlead : newline ∉ lead)
    (htext : newline ∉ text) : (l.passOver (decodeText text)).2 = [] ∧
      Skipping parseFrame output base p' (l.passOver (decodeText text)).1 ∧
      (l.passOver (decodeText text)).1.position = l.position := by
  obtain ⟨bytes, hbytes⟩ := isSome_iff_exists.mp h.skipped
  have hnil : lines newline (lead ++ text) = [] := by
    rw [lines_eq_nil_iff, mem_append]
    exact fun hm => hm.elim hlead htext
  have hall : ∀ ch ∈ decodeText text, decide (ch ≠ '\n') = true := by
    intro ch hch
    exact decide_eq_true (fun he => not_mem_decodeText htext (he ▸ hch))
  have hdrop : (decodeText text).dropWhile (fun ch => decide (ch ≠ '\n')) = [] :=
    dropWhile_eq_nil_iff.mpr hall
  simp only [Loop.passOver, hbytes, hdrop]
  refine ⟨trivial, ⟨?_, h.text, h.bytes, rfl, ?_⟩, trivial⟩
  · rw [htake, lines, split_append_of_nil hnil]
    exact h.delivered
  · rw [htake, rest, split_append_of_nil hnil]
    exact h.long.append _

/-- A skipped line ends on the page. -/
theorem Skipping.passOver_end {lead line later : List UInt8} (hcp : c ≤ p)
    (htake : output.take p' = output.take p ++ (lead ++ (line ++ [newline])))
    (hp : p' = p + (lead ++ (line ++ [newline])).length) (hlead : newline ∉ lead)
    (hline : newline ∉ line) :
    (l.passOver (decodeText (line ++ newline :: later))).2 = decode later ∧
      Reading parseFrame output base c p' (l.passOver (decodeText (line ++ newline :: later))).1 ∧
      incomplete output c p' = [] ∧
      (l.passOver (decodeText (line ++ newline :: later))).1.position = l.position := by
  obtain ⟨bytes, hbytes⟩ := isSome_iff_exists.mp h.skipped
  obtain ⟨text, htext, hdec⟩ := decodeText_newline hline later
  have hall : ∀ ch ∈ text, decide (ch ≠ '\n') = true := by
    intro ch hch
    exact decide_eq_true (fun he => htext (he ▸ hch))
  have hdrop : (text ++ '\n' :: decode later).dropWhile (fun ch => decide (ch ≠ '\n')) =
      '\n' :: decode later := by
    rw [dropWhile_append_of_pos hall]
    simp
  have hnl : newline ∉ lead ++ line := by
    rw [mem_append]
    exact fun hm => hm.elim hlead hline
  have hsplit : split newline (lead ++ (line ++ [newline])) = ([lead ++ line], []) := by
    rw [← append_assoc]
    exact split_line hnl []
  have hlines : lines newline (lead ++ (line ++ [newline])) = [lead ++ line] := by
    rw [lines, hsplit]
  have hinc : incomplete output c p' = [] := by
    have hlen : c ≤ (output.take p).length := by
      have hp' : (output.take p').length ≤ output.length := by
        rw [length_take]; exact Nat.min_le_right _ _
      have hpl := congrArg List.length htake
      simp only [length_append, length_take, length_cons] at hpl hp' ⊢
      omega
    rw [incomplete, htake, drop_append_of_le_length hlen, rest, split_append_of_cons hlines]
    exact congrArg Prod.snd hsplit
  simp only [Loop.passOver, hbytes, hdec, hdrop]
  refine ⟨trivial, ⟨?_, ?_, ?_, rfl⟩, hinc, trivial⟩
  · rw [htake, lines, split_append_of_cons hlines]
    have hlong : Delivered parseFrame _ ((base ++ l.frames) ++ []) :=
      .long [] (h.long.append (lead ++ line)) h.delivered
    rw [append_nil] at hlong
    exact hlong
  · rw [hinc, h.text]
    rfl
  · rw [hinc, h.bytes]
    rfl

end

end Catamorphic.Runner
