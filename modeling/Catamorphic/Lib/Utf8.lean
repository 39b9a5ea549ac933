import Catamorphic.Lib.Lines
import Mathlib.Algebra.GroupWithZero.Nat
import Mathlib.Data.List.Induction

/-!
# Decoding UTF-8 as `TextDecoder` does

The decoder reads one byte at a time and never fails: where the bytes are not UTF-8 it
writes U+FFFD for each maximal part of a character and starts again at the byte that did
not fit. `decodeText` is `new TextDecoder("utf-8").decode`, which drops a byte-order mark
at the start; `byteLength` is the length of a text written back as UTF-8.
-/

namespace Catamorphic.Utf8

open List Lines Char

/-- Between characters, or inside one: the bytes owed after the next one, the bits so
far, and the range the next byte must lie in. -/
inductive State where
  | start
  | more (owed bits lower upper : Nat)
deriving DecidableEq, Repr

/-- What is written for bytes that are no character. -/
def replacement : Char := ofNat 0xFFFD

/-- The first byte of a character. -/
def startByte (b : UInt8) : List Char × State :=
  let n := b.toNat
  if n ≤ 0x7F then ([ofNat n], .start)
  else if n < 0xC2 then ([replacement], .start)
  else if n ≤ 0xDF then ([], .more 0 (n % 0x20) 0x80 0xBF)
  else if n = 0xE0 then ([], .more 1 0 0xA0 0xBF)
  else if n = 0xED then ([], .more 1 0xD 0x80 0x9F)
  else if n ≤ 0xEF then ([], .more 1 (n % 0x10) 0x80 0xBF)
  else if n = 0xF0 then ([], .more 2 0 0x90 0xBF)
  else if n ≤ 0xF3 then ([], .more 2 (n % 0x08) 0x80 0xBF)
  else if n = 0xF4 then ([], .more 2 4 0x80 0x8F)
  else ([replacement], .start)

/-- One byte: what is written, and the state after it. -/
def byte : State → UInt8 → List Char × State
  | .start, b => startByte b
  | .more owed bits lower upper, b =>
    if lower ≤ b.toNat ∧ b.toNat ≤ upper then
      let bits := bits * 0x40 + b.toNat % 0x40
      match owed with
      | 0 => ([ofNat bits], .start)
      | owed + 1 => ([], .more owed bits 0x80 0xBF)
    else (replacement :: (startByte b).1, (startByte b).2)

/-- The end of the input. -/
def finish : State → List Char
  | .start => []
  | .more .. => [replacement]

def decodeFrom : State → List UInt8 → List Char
  | st, [] => finish st
  | st, b :: bs => (byte st b).1 ++ decodeFrom (byte st b).2 bs

def decode (bytes : List UInt8) : List Char := decodeFrom .start bytes

/-- The byte-order mark. -/
def bom : List UInt8 := [0xEF, 0xBB, 0xBF]

/-- `new TextDecoder("utf-8").decode(bytes)` -/
def decodeText (bytes : List UInt8) : List Char :=
  decode (if bom.isPrefixOf bytes then bytes.drop 3 else bytes)

/-- `Buffer.byteLength(text)` -/
def byteLength (text : List Char) : Nat := (text.map utf8Size).sum

/-- The newline byte. -/
def newline : UInt8 := 0x0A

/-- `(byte & 0xc0) === 0x80` -/
def Continuation (b : UInt8) : Prop := 0x80 ≤ b.toNat ∧ b.toNat < 0xC0

instance (b : UInt8) : Decidable (Continuation b) := inferInstanceAs (Decidable (_ ∧ _))

@[simp] theorem byteLength_nil : byteLength [] = 0 := rfl

@[simp] theorem byteLength_append (s t : List Char) :
    byteLength (s ++ t) = byteLength s + byteLength t := by simp [byteLength]

theorem byteLength_eq_zero {s : List Char} : byteLength s = 0 ↔ s = [] := by
  cases s with
  | nil => simp
  | cons c cs =>
    have := utf8Size_pos c
    simp only [byteLength, map_cons, sum_cons, reduceCtorEq, iff_false]
    omega

theorem decodeText_eq {bytes : List UInt8} (h : ¬ bom <+: bytes) :
    decodeText bytes = decode bytes := by
  rw [decodeText, if_neg (fun hp => h (List.isPrefixOf_iff_prefix.mp hp))]

/-! ## Decoding in parts -/

/-- What is written before the input ends. -/
def written : State → List UInt8 → List Char
  | _, [] => []
  | st, b :: bs => (byte st b).1 ++ written (byte st b).2 bs

/-- The state after some bytes. -/
def after (st : State) (bytes : List UInt8) : State := bytes.foldl (fun st b => (byte st b).2) st

theorem after_append (st : State) (s t : List UInt8) :
    after st (s ++ t) = after (after st s) t := by simp [after]

theorem decodeFrom_eq (st : State) (s : List UInt8) :
    decodeFrom st s = written st s ++ finish (after st s) := by
  induction s generalizing st with
  | nil => rfl
  | cons b s ih => simp only [decodeFrom, written, ih, append_assoc, after, foldl_cons]

theorem decodeFrom_append (st : State) (s t : List UInt8) :
    decodeFrom st (s ++ t) = written st s ++ decodeFrom (after st s) t := by
  induction s generalizing st with
  | nil => rfl
  | cons b s ih =>
    simp only [cons_append, decodeFrom, written, ih, append_assoc, after, foldl_cons]

/-- The states the decoder comes to: no range takes a byte that is not a continuation,
and no bits are those of a one-byte character. -/
def Sound : State → Prop
  | .start => True
  | .more owed bits lower upper => 0x80 ≤ lower ∧ upper < 0xC0 ∧
      (if owed = 0 then 2 ≤ bits else 2 ≤ bits * 0x40 + (lower - 0x80))

theorem startByte_sound (b : UInt8) : Sound (startByte b).2 := by
  unfold startByte
  simp only
  repeat' split
  all_goals first | trivial | (simp [Sound]; try omega)

variable {st : State}

theorem byte_sound (h : Sound st) (b : UInt8) : Sound (byte st b).2 := by
  cases st with
  | start => exact startByte_sound b
  | more owed bits lower upper =>
    by_cases hin : lower ≤ b.toNat ∧ b.toNat ≤ upper
    · obtain ⟨hl, hu, hbits⟩ := h
      cases owed with
      | zero => simp only [byte, if_pos hin, Sound]
      | succ owed =>
        simp only [Nat.succ_ne_zero, if_false] at hbits
        simp only [byte, if_pos hin]
        refine ⟨Nat.le_refl _, by omega, ?_⟩
        split <;> omega
    · simp only [byte, if_neg hin]
      exact startByte_sound b

theorem after_sound {st : State} (h : Sound st) (s : List UInt8) : Sound (after st s) := by
  induction s generalizing st with
  | nil => exact h
  | cons b s ih => exact ih (byte_sound h b)

variable {b : UInt8}

/-- A byte that continues nothing ends what came before it. -/
theorem byte_of_not_continuation (h : Sound st) (hb : ¬ Continuation b) :
    byte st b = (finish st ++ (startByte b).1, (startByte b).2) := by
  cases st with
  | start => rfl
  | more owed bits lower upper =>
    have hout : ¬ (lower ≤ b.toNat ∧ b.toNat ≤ upper) := by
      intro hin
      exact hb ⟨Nat.le_trans h.1 hin.1, Nat.lt_of_le_of_lt hin.2 h.2.1⟩
    simp only [byte, if_neg hout]
    rfl

/-- A place where a text may be cut: between characters, or before a byte that continues none. -/
def Boundary (st : State) (next : Option UInt8) : Prop :=
  st = .start ∨ ∀ b, next = some b → ¬ Continuation b

variable {s : List UInt8} {t : List UInt8}

/-- **At a boundary two texts decode one after the other.** -/
theorem decode_append (h : Boundary (after .start s) t.head?) :
    decode (s ++ t) = decode s ++ decode t := by
  unfold decode
  rw [decodeFrom_append, decodeFrom_eq .start s, append_assoc]
  rcases h with h | h
  · rw [h]; rfl
  · cases t with
    | nil => rw [decodeFrom_eq]; simp [written, decodeFrom, finish, after]
    | cons b t =>
      have hb := byte_of_not_continuation (@after_sound .start trivial s)
        (h b rfl)
      rw [decodeFrom, hb, decodeFrom]
      simp [byte]

/-- The state after a boundary does not depend on what came before it. -/
theorem after_append_boundary (h : Boundary (after .start s) t.head?) (ht : t ≠ []) :
    after .start (s ++ t) = after .start t := by
  rw [after_append]
  rcases h with h | h
  · rw [h]
  · obtain ⟨b, t, rfl⟩ := exists_cons_of_ne_nil ht
    have hb := byte_of_not_continuation (@after_sound .start trivial s) (h b rfl)
    simp only [after, foldl_cons] at hb ⊢
    rw [hb]
    rfl

/-- A byte writes something or leaves the decoder inside a character. -/
theorem byte_writes (st : State) (b : UInt8) : (byte st b).1 ≠ [] ∨ (byte st b).2 ≠ .start := by
  have hstart : (startByte b).1 ≠ [] ∨ (startByte b).2 ≠ .start := by
    unfold startByte
    simp only
    repeat' split
    all_goals simp
  cases st with
  | start => exact hstart
  | more owed bits lower upper =>
    by_cases hin : lower ≤ b.toNat ∧ b.toNat ≤ upper
    · cases owed <;> simp [byte, hin]
    · simp [byte, hin]

theorem decodeFrom_eq_nil (h : decodeFrom st s = []) : st = .start ∧ s = [] := by
  induction s generalizing st with
  | nil => cases st <;> simp [decodeFrom, finish] at h ⊢
  | cons b s ih =>
    rw [decodeFrom, append_eq_nil_iff] at h
    obtain ⟨hst, _⟩ := ih h.2
    exact ((byte_writes st b).elim (fun hn => hn h.1) (fun hn => hn hst)).elim

theorem decode_eq_nil : decode s = [] ↔ s = [] :=
  ⟨fun h => (decodeFrom_eq_nil h).2, fun h => by rw [h]; rfl⟩

/-- The bytes of a character, by its first byte. -/
def charLength (b : UInt8) : Nat :=
  if 0xF0 ≤ b.toNat then 4 else if 0xE0 ≤ b.toNat then 3 else if 0xC0 ≤ b.toNat then 2 else 1

theorem startByte_more {owed bits lower upper : Nat}
    (h : (startByte b).2 = .more owed bits lower upper) :
    ¬ Continuation b ∧ charLength b = owed + 2 := by
  unfold startByte at h
  simp only at h
  unfold Continuation charLength
  repeat' split at h
  all_goals cases h
  all_goals refine ⟨by omega, ?_⟩
  all_goals split_ifs <;> omega

/-- **Inside a character, its first byte is a few continuation bytes back.** -/
theorem after_more {owed bits lower upper : Nat} (h : after .start s = .more owed bits lower upper)
    : ∃ before first conts, s = before ++ first :: conts ∧ (∀ c ∈ conts, Continuation c) ∧
      ¬ Continuation first ∧ charLength first = conts.length + owed + 2 := by
  induction s using List.reverseRecOn generalizing owed bits lower upper with
  | nil => cases h
  | append_singleton s b ih =>
    rw [after_append] at h
    simp only [after, foldl_cons, foldl_nil] at h
    cases hs : after .start s with
    | start =>
      rw [after] at hs
      rw [hs] at h
      obtain ⟨hb, hlen⟩ := startByte_more h
      exact ⟨s, b, [], rfl, by simp, hb, by simpa using hlen⟩
    | more owed' bits' lower' upper' =>
      have hsound := @after_sound .start trivial s
      rw [hs] at hsound
      rw [after] at hs
      rw [hs] at h
      by_cases hin : lower' ≤ b.toNat ∧ b.toNat ≤ upper'
      · obtain ⟨before, first, conts, rfl, hconts, hfirst, hlen⟩ := ih hs
        cases owed' with
        | zero => simp [byte, if_pos hin] at h
        | succ owed' =>
          simp only [byte, if_pos hin, State.more.injEq] at h
          refine ⟨before, first, conts ++ [b], by simp, ?_, hfirst, ?_⟩
          · intro c hc
            rcases mem_append.mp hc with hc | hc
            · exact hconts c hc
            · rw [mem_singleton.mp hc]
              exact ⟨Nat.le_trans hsound.1 hin.1, Nat.lt_of_le_of_lt hin.2 hsound.2.1⟩
          · simp only [length_append, length_singleton]
            omega
      · simp only [byte, if_neg hin] at h
        obtain ⟨hb, hlen⟩ := startByte_more h
        exact ⟨s, b, [], rfl, by simp, hb, by simpa using hlen⟩

/-! ## Lines -/

theorem newline_not_continuation : ¬ Continuation newline := by decide

@[simp] theorem startByte_newline : startByte newline = (['\n'], .start) := by decide

theorem ofNat_eq_newline {n : Nat} (h : '\n' = ofNat n) : n = 10 := by
  have hval := congrArg toNat h
  have hten : '\n'.toNat = 10 := rfl
  by_cases hn : n.isValidChar
  · have hchar : (ofNat n).toNat = n := by
      rw [ofNat, dif_pos hn]
      rfl
    omega
  · have hchar : (ofNat n).toNat = 0 := by
      rw [ofNat, dif_neg hn]
      rfl
    omega

/-- A newline byte is written as a newline, and only a newline byte is. -/
theorem newline_of_mem_startByte (h : '\n' ∈ (startByte b).1) : b = newline := by
  unfold startByte at h
  simp only at h
  have hrepl : '\n' ≠ replacement := by decide
  split at h
  · exact UInt8.toNat_inj.mp (ofNat_eq_newline (mem_singleton.mp h))
  · repeat' split at h
    all_goals simp [hrepl] at h

theorem newline_of_mem_byte (hst : Sound st) (h : '\n' ∈ (byte st b).1) : b = newline := by
  cases st with
  | start => exact newline_of_mem_startByte h
  | more owed bits lower upper =>
    by_cases hin : lower ≤ b.toNat ∧ b.toNat ≤ upper
    · cases owed with
      | zero =>
        obtain ⟨_, _, hbits⟩ := hst
        simp only [if_true] at hbits
        simp only [byte, if_pos hin, mem_singleton] at h
        have hten := ofNat_eq_newline h
        omega
      | succ owed => simp [byte, if_pos hin] at h
    · simp only [byte, if_neg hin, mem_cons] at h
      rcases h with h | h
      · exact absurd h (by decide)
      · exact newline_of_mem_startByte h

theorem newline_mem_of_decodeFrom {st : State} (hst : Sound st) {s : List UInt8}
    (h : '\n' ∈ decodeFrom st s) : newline ∈ s := by
  induction s generalizing st with
  | nil => cases st <;> simp [decodeFrom, finish, replacement] at h
  | cons b s ih =>
    rw [decodeFrom, mem_append] at h
    rcases h with h | h
    · rw [newline_of_mem_byte hst h]
      exact mem_cons_self
    · exact mem_cons_of_mem _ (ih (byte_sound hst b) h)

theorem not_mem_decode (h : newline ∉ s) : '\n' ∉ decode s :=
  fun hm => h (@newline_mem_of_decodeFrom .start trivial s hm)

/-- Decoding splits at a newline. -/
theorem decode_newline (s t : List UInt8) :
    decode (s ++ newline :: t) = decode s ++ '\n' :: decode t := by
  rw [decode_append (.inr (fun b hb => by
    rw [List.head?_cons, Option.some.injEq] at hb
    subst hb
    exact newline_not_continuation))]
  simp [decode, decodeFrom, byte]

theorem decode_join (ls : List (List UInt8)) (r : List UInt8) :
    decode (join newline ls ++ r) = join '\n' (ls.map decode) ++ decode r := by
  induction ls with
  | nil => rfl
  | cons l ls ih =>
    rw [join_cons, append_assoc, cons_append, decode_newline, ih]
    simp

/-- **The lines of the decoded text are the decoded lines.** -/
theorem split_decode (s : List UInt8) : split '\n' (decode s) =
      ((lines newline s).map decode, decode (rest newline s)) := by
  conv_lhs => rw [← join_split newline s, decode_join]
  refine split_join ?_ (not_mem_decode (not_mem_rest s))
  intro l hl
  obtain ⟨r, hr, rfl⟩ := mem_map.mp hl
  exact not_mem_decode (not_mem_lines s r hr)

/-- A byte-order mark dropped at the start leaves the lines after the first as they are. -/
theorem decodeText_newline (hs : newline ∉ s) (t : List UInt8) :
    ∃ line, '\n' ∉ line ∧ decodeText (s ++ newline :: t) = line ++ '\n' :: decode t := by
  unfold decodeText
  by_cases hbom : bom.isPrefixOf (s ++ newline :: t) = true
  · have hlen : 3 ≤ s.length := by
      by_contra hlt
      obtain ⟨u, hu⟩ := isPrefixOf_iff_prefix.mp hbom
      have hget := congrArg (fun l => l[s.length]?) hu
      simp only [List.getElem?_append_right (Nat.le_refl _), Nat.sub_self]
        at hget
      rw [List.getElem?_append_left (by simpa [bom] using hlt)] at hget
      have hmem : newline ∈ bom := mem_of_getElem? hget
      exact absurd hmem (by decide)
    refine ⟨decode (s.drop 3), not_mem_decode (fun h => hs (mem_of_mem_drop h)), ?_⟩
    rw [if_pos hbom, drop_append_of_le_length hlen, decode_newline]
  · exact ⟨decode s, not_mem_decode hs, by rw [if_neg hbom, decode_newline]⟩

theorem not_mem_decodeText (hs : newline ∉ s) : '\n' ∉ decodeText s := by
  unfold decodeText
  split
  · exact not_mem_decode (fun h => hs (mem_of_mem_drop h))
  · exact not_mem_decode hs

/-- After a line the decoder is between characters. -/
theorem after_newline (s t : List UInt8) : after .start (s ++ newline :: t) = after .start t := by
  rw [after_append_boundary (.inr (fun b hb => by
    rw [List.head?_cons, Option.some.injEq] at hb
    subst hb
    exact newline_not_continuation)) (by simp)]
  simp [after, byte]

theorem after_rest (s : List UInt8) : after .start s = after .start (rest newline s) := by
  conv_lhs => rw [← join_split newline s]
  induction lines newline s with
  | nil => rfl
  | cons l ls ih =>
    rw [join_cons, append_assoc, cons_append, after_newline]
    exact ih

end Catamorphic.Utf8
