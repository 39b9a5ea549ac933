import Catamorphic.Lib.Utf8

/-!
# Reading a process's output

A background process's output is a growing file of bytes. A read answers with the text
from a byte cursor on and the cursor of the next read. Where the bytes read end inside a
character, that character is left for the next read; where they start inside one, they
are passed over up to the next character.
-/

namespace Catamorphic.Runner

open Utf8 List

/-- The largest number of bytes per read, and the smallest: the longest character. -/
def PROCESS_READ_MAX_BYTES : Nat := 1024 * 1024
def PROCESS_READ_MIN_BYTES : Nat := 4

/--
The bytes to leave out at the end, from the last byte back over at most `fuel` of them:
continuation bytes, then a first byte whose character is longer than what is there.
-/
def cutBack : (fuel back : Nat) → List UInt8 → Nat
  | 0, _, _ => 0
  | _ + 1, _, [] => 0
  | fuel + 1, back, b :: before =>
    if Continuation b then cutBack fuel (back + 1) before
    else if back < charLength b then back else 0

/-- `decodeUtf8Prefix`: the text, and how many bytes it was decoded from. -/
def decodeUtf8Prefix (bytes : List UInt8) (final : Bool) : List Char × Nat :=
  let len := if final then bytes.length else bytes.length - cutBack 4 1 bytes.reverse
  (decodeText (bytes.take len), len)

/-- Continuation bytes at the start, at most three. -/
def leadBytes (bytes : List UInt8) : Nat :=
  ((bytes.take 3).takeWhile (fun b => decide (Continuation b))).length

structure ProcessChunk where
  chunk : List Char
  cursor : Nat
  nextCursor : Nat
deriving DecidableEq, Repr

def decodeProcessChunk (bytes : List UInt8) (cursor maxBytes : Nat) (final : Bool) :
    ProcessChunk :=
  let lead := leadBytes (bytes.take maxBytes)
  let decoded := decodeUtf8Prefix ((bytes.take maxBytes).drop lead) final
  { chunk := decoded.1, cursor := cursor + lead, nextCursor := cursor + lead + decoded.2 }

structure ProcessOutput where
  chunk : List Char
  nextCursor : Nat
  /-- More output already waits past `nextCursor`. -/
  more : Bool
  /-- All output written so far. -/
  outputBytes : Nat
  exited : Bool
deriving DecidableEq, Repr

/--
`readProcessOutput` of a process that has written `size` bytes of `output`. A cursor
below zero or past the end is moved to the nearest place there is.
-/
def readProcessOutput (output : List UInt8) (size : Nat) (exited : Bool) (cursor : Int)
    (maxBytes : Nat) : ProcessOutput :=
  let limit := min (max maxBytes PROCESS_READ_MIN_BYTES) PROCESS_READ_MAX_BYTES
  let cursor := min cursor.toNat size
  let length := min (size - cursor) limit
  let more := decide (length < size - cursor)
  let decoded := decodeProcessChunk ((output.drop cursor).take length) cursor length
    (exited && !more)
  { chunk := decoded.chunk, nextCursor := decoded.nextCursor, more, outputBytes := size, exited }

/-! ## Where a read ends -/

theorem cutBack_conts {conts before : List UInt8} {first : UInt8}
    (hconts : ∀ c ∈ conts, Continuation c) (hfirst : ¬ Continuation first) :
    ∀ {fuel back : Nat}, conts.length < fuel → cutBack fuel back (conts ++ first :: before) =
        if back + conts.length < charLength first then back + conts.length else 0 := by
  induction conts with
  | nil =>
    intro fuel back hfuel
    cases fuel with
    | zero => simp at hfuel
    | succ fuel => simp [cutBack, hfirst]
  | cons c conts ih =>
    intro fuel back hfuel
    cases fuel with
    | zero => simp at hfuel
    | succ fuel =>
      have hc : Continuation c := hconts c mem_cons_self
      rw [cons_append, cutBack, if_pos hc, ih (List.forall_mem_cons.mp hconts).2
          (by simpa using hfuel), length_cons]
      have : back + 1 + conts.length = back + (conts.length + 1) := by omega
      rw [this]

/-- A cut is made at the first byte of a longer character. -/
theorem cutBack_pos {fuel back : Nat} {s : List UInt8} (hback : 0 < back)
    (h : cutBack fuel back s ≠ 0) :
    ∃ conts first before, s = conts ++ first :: before ∧ (∀ c ∈ conts, Continuation c) ∧
      ¬ Continuation first ∧ cutBack fuel back s = back + conts.length ∧
      back + conts.length < charLength first := by
  induction fuel generalizing back s with
  | zero => exact absurd rfl h
  | succ fuel ih =>
    cases s with
    | nil => exact absurd rfl h
    | cons b before =>
      by_cases hb : Continuation b
      · rw [cutBack, if_pos hb] at h ⊢
        obtain ⟨conts, first, rest, rfl, hconts, hfirst, hcut, hlt⟩ :=
          ih (Nat.succ_pos back) h
        refine ⟨b :: conts, first, rest, rfl, ?_, hfirst, ?_, ?_⟩
        · intro c hc
          rcases mem_cons.mp hc with rfl | hc
          · exact hb
          · exact hconts c hc
        · rw [hcut, length_cons]
          omega
        · rw [length_cons]
          omega
      · rw [cutBack, if_neg hb] at h ⊢
        split at h
        · rename_i hlt
          exact ⟨[], b, before, rfl, by simp, hb, by simp [hlt], by simpa using hlt⟩
        · exact absurd rfl h

theorem charLength_le (b : UInt8) : charLength b ≤ 4 := by
  unfold charLength
  split_ifs <;> omega

/-- What is cut off, less than four bytes, is the start of one character. -/
theorem cutBack_spec (s : List UInt8) :
    cutBack 4 1 s.reverse ≤ 3 ∧ cutBack 4 1 s.reverse ≤ s.length ∧
      newline ∉ s.drop (s.length - cutBack 4 1 s.reverse) ∧
      (cutBack 4 1 s.reverse ≠ 0 →
        ∃ b, s[s.length - cutBack 4 1 s.reverse]? = some b ∧ ¬ Continuation b) := by
  by_cases hcut : cutBack 4 1 s.reverse = 0
  · rw [hcut]
    simp
  · obtain ⟨conts, first, before, hs, hconts, hfirst, hk, hlt⟩ := cutBack_pos Nat.one_pos hcut
    have hbytes : s = before.reverse ++ first :: conts.reverse := by
      rw [← reverse_reverse s, hs]
      simp
    have hlen : s.length - cutBack 4 1 s.reverse = before.reverse.length := by
      rw [hk]
      conv_lhs => rw [hbytes]
      simp only [length_append, length_cons, length_reverse]
      omega
    have hfour := charLength_le first
    refine ⟨by omega, ?_, ?_, fun _ => ⟨first, ?_, hfirst⟩⟩
    · have hle := congrArg List.length hs
      simp only [length_reverse, length_append, length_cons] at hle
      omega
    · rw [hlen]
      conv => rhs; rw [hbytes]
      rw [drop_left, mem_cons, mem_reverse]
      rintro (h | h)
      · rw [← h] at hlt
        exact absurd hlt (by simp [charLength, newline])
      · exact newline_not_continuation (hconts _ h)
    · rw [hlen]
      conv_lhs => rw [hbytes]
      simp

/--
**A read that is not the last ends between characters, or before a byte that starts one.**
-/
theorem decodeUtf8Prefix_boundary (bytes : List UInt8) :
    after .start (bytes.take (decodeUtf8Prefix bytes false).2) = .start ∨
      ∃ b, bytes[(decodeUtf8Prefix bytes false).2]? = some b ∧ ¬ Continuation b := by
  simp only [decodeUtf8Prefix, Bool.false_eq_true, if_false]
  by_cases hcut : cutBack 4 1 bytes.reverse = 0
  · rw [hcut, Nat.sub_zero, take_length]
    left
    cases hst : after .start bytes with
    | start => rfl
    | more owed bits lower upper =>
      -- the walk back would have found the character the bytes end in
      obtain ⟨before, first, conts, rfl, hconts, hfirst, hlen⟩ := after_more hst
      have hle := charLength_le first
      rw [reverse_append, reverse_cons, append_assoc, singleton_append,
        cutBack_conts (fun c hc => hconts c (mem_reverse.mp hc)) hfirst
          (by rw [length_reverse]; omega), length_reverse, if_pos (by omega)] at hcut
      omega
  · exact .inr ((cutBack_spec bytes).2.2.2 hcut)

theorem leadBytes_eq_zero {bytes : List UInt8} (h : ∀ b, bytes.head? = some b → ¬ Continuation b) :
    leadBytes bytes = 0 := by
  cases bytes with
  | nil => rfl
  | cons b bytes =>
    have hb := h b rfl
    simp [leadBytes, hb]

theorem leadBytes_le (bytes : List UInt8) : leadBytes bytes ≤ 3 ∧ leadBytes bytes ≤
    bytes.length := by
  unfold leadBytes
  have h₁ := takeWhile_prefix (l := bytes.take 3) (fun b => decide (Continuation b))
  have h₂ := h₁.length_le
  rw [length_take] at h₂
  omega

/-- No byte passed over is a newline. -/
theorem newline_not_mem_lead (bytes : List UInt8) : newline ∉ bytes.take (leadBytes bytes) := by
  intro h
  have hpre : (bytes.take 3).takeWhile (fun b => decide (Continuation b)) <+: bytes :=
    (List.takeWhile_prefix _).trans (List.take_prefix 3 bytes)
  rw [leadBytes, ← prefix_iff_eq_take.mp hpre] at h
  have hall := all_eq_true.mp all_takeWhile newline h
  exact newline_not_continuation (of_decide_eq_true hall)

/-! ## One page of a process's output -/

/--
What a page read at `p` is: the bytes `lead` it passes over, and the text of the bytes
`text` after them, up to `page.nextCursor`.
-/
structure PageAt (output : List UInt8) (size : Nat) (exited : Bool) (p : Nat)
    (page : ProcessOutput) (lead text : List UInt8) : Prop where
  chunk : page.chunk = decodeText text
  next : page.nextCursor = p + (lead.length + text.length)
  bytes : output.take page.nextCursor = output.take p ++ (lead ++ text)
  within : page.nextCursor ≤ size
  status : page.exited = exited
  size_eq : page.outputBytes = size
  /-- What is passed over is no line's end. -/
  lead_newline : newline ∉ lead
  /-- Nothing is passed over before a byte that starts a character. -/
  lead_nil : (∀ b, output[p]? = some b → ¬ Continuation b) → lead = []
  /-- The page ends where a text may be cut, unless it is the last. -/
  boundary : (page.exited && !page.more) = false → text ≠ [] →
    Boundary (after .start text) output[page.nextCursor]?
  /-- The last page ends at the end. -/
  last : (page.exited && !page.more) = true → page.nextCursor = size
  /-- With more output waiting, a page gets on. -/
  more : page.more = true → p < page.nextCursor
  /-- Without, what is left is the start of a character at most. -/
  caught_up : page.more = false → newline ∉ (output.take size).drop page.nextCursor

theorem readProcessOutput_spec {output : List UInt8} {size p : Nat} (hp : p ≤ size)
    (hsize : size ≤ output.length) (exited : Bool) (maxBytes : Nat) :
    ∃ lead text, PageAt output size exited p
      (readProcessOutput output size exited p maxBytes) lead text := by
  have hmin : min (p : Int).toNat size = p := by
    exact Nat.min_eq_left hp
  have hlimit : 4 ≤ min (max maxBytes PROCESS_READ_MIN_BYTES) PROCESS_READ_MAX_BYTES := by
    simp only [PROCESS_READ_MIN_BYTES, PROCESS_READ_MAX_BYTES]
    omega
  simp only [readProcessOutput, hmin]
  generalize min (max maxBytes PROCESS_READ_MIN_BYTES) PROCESS_READ_MAX_BYTES = limit at hlimit ⊢
  obtain ⟨len, hlen⟩ : ∃ len, len = min (size - p) limit := ⟨_, rfl⟩
  obtain ⟨bytes, hbytes⟩ : ∃ bytes, bytes = (output.drop p).take len := ⟨_, rfl⟩
  have hblen : bytes.length = len := by
    rw [hbytes, length_take, length_drop]
    omega
  have htake : bytes.take len = bytes := by rw [← hblen, take_length]
  rw [← hlen, ← hbytes]
  simp only [decodeProcessChunk, htake]
  obtain ⟨hlead₃, hleadle⟩ := leadBytes_le bytes
  have hleadnl := newline_not_mem_lead bytes
  have hleadnil := @leadBytes_eq_zero bytes
  generalize leadBytes bytes = k at hlead₃ hleadle hleadnl hleadnil ⊢
  obtain ⟨rest, hrest⟩ : ∃ rest, rest = bytes.drop k := ⟨_, rfl⟩
  have hrestlen : rest.length = len - k := by
    rw [hrest, length_drop, hblen]
  rw [← hrest]
  obtain ⟨hcut₃, hcutle, hcutnl, _⟩ := cutBack_spec rest
  -- the part of `rest` that is decoded
  obtain ⟨final, hfinal⟩ : ∃ final, final = (exited && !decide (len < size - p)) := ⟨_, rfl⟩
  rw [← hfinal]
  obtain ⟨e, he⟩ : ∃ e, e = (decodeUtf8Prefix rest final).2 := ⟨_, rfl⟩
  have hele : e ≤ rest.length ∧ rest.length - e ≤ 3 ∧ newline ∉ rest.drop e ∧
      (final = true → e = rest.length) := by
    rw [he]
    cases final with
    | true => simp [decodeUtf8Prefix]
    | false =>
      simp only [decodeUtf8Prefix, Bool.false_eq_true, if_false]
      exact ⟨by omega, by omega, hcutnl, by simp⟩
  have htext : (decodeUtf8Prefix rest final).1 = decodeText (rest.take e) := by
    rw [he]
    rfl
  rw [htext, ← he]
  have hlentext : (rest.take e).length = e := by rw [length_take]; omega
  have hlenlead : (bytes.take (k)).length = k := by
    rw [length_take]; omega
  have hnext : p + k + e =
      p + ((bytes.take (k)).length + (rest.take e).length) := by
    rw [hlentext, hlenlead]; omega
  have hsplit : bytes.take (k + e) =
      bytes.take (k) ++ rest.take e := by
    rw [hrest, take_add]
  have hupto : output.take (p + k + e) =
      output.take p ++ (bytes.take (k) ++ rest.take e) := by
    rw [← hsplit, Nat.add_assoc, take_add, hbytes, take_take]
    congr 2
    omega
  have hget : ∀ i, i < rest.length → output[p + k + i]? = rest[i]? := by
    intro i hi
    rw [hrest, List.getElem?_drop, hbytes, List.getElem?_take, if_pos (by omega),
      List.getElem?_drop, Nat.add_assoc]
  refine ⟨bytes.take (k), rest.take e, ?_⟩
  refine { chunk := rfl, next := hnext, bytes := hupto, within := ?_, status := rfl,
           size_eq := rfl, lead_newline := hleadnl, lead_nil := ?_,
           boundary := ?_, last := ?_, more := ?_, caught_up := ?_ }
  · show p + k + e ≤ size
    omega
  · intro hhead
    rw [hleadnil ?_, take_zero]
    intro b hb
    refine hhead b ?_
    rw [hbytes, List.head?_take] at hb
    split at hb
    · cases hb
    · rwa [List.head?_drop] at hb
  · intro hlast _
    have hf : final = false := by rw [hfinal]; exact hlast
    rw [hf] at he
    show Boundary (after .start (rest.take e)) output[p + k + e]?
    rcases decodeUtf8Prefix_boundary rest with h | ⟨b, hb, hcont⟩
    · rw [← he] at h
      exact .inl h
    · rw [← he] at hb
      have hlt : e < rest.length := (List.getElem?_eq_some_iff.mp hb).1
      refine .inr (fun c hc => ?_)
      rw [hget e hlt, hb, Option.some.injEq] at hc
      exact hc ▸ hcont
  · intro hlast
    have hf : final = true := by rw [hfinal]; exact hlast
    have hmore : ¬ len < size - p := by
      intro hlt
      rw [hfinal] at hf
      simp [hlt] at hf
    have := hele.2.2.2 hf
    show p + k + e = size
    omega
  · intro hmore
    have hlt : len < size - p := of_decide_eq_true hmore
    show p < p + k + e
    omega
  · intro hmore
    have hnot : ¬ len < size - p := of_decide_eq_false hmore
    show newline ∉ (output.take size).drop (p + k + e)
    have hwhole : (output.take size).drop (p + k + e) = rest.drop e := by
      rw [hrest, drop_drop, hbytes, drop_take, drop_take, drop_drop]
      congr 1
      · omega
      · congr 1
        omega
    rw [hwhole]
    exact hele.2.2.1

end Catamorphic.Runner
