import Catamorphic.Git.Gateway
import Mathlib.Data.List.TakeWhile

/-!
# What the remote updates

The remote's receive-pack reads the forwarded bytes for itself, and reads them strictly:
four hexadecimal digits a length, one newline off a line's end, a ref up to the first NUL.
The gateway reads text. A push it forwards is reviewed as it should be exactly where the
two readings meet: the bytes are framed as git frames them, and no line starts with a
byte-order mark or holds bytes that are not UTF-8 before its first NUL.
-/

namespace Catamorphic.Git.Gateway

open List

/-! ## How git reads a push -/

/-- A ref update as receive-pack reads it. -/
structure Update where
  oldId : Bytes
  newId : Bytes
  ref : Bytes
deriving DecidableEq, Repr

def byteHex (b : UInt8) : Option Nat := hexDigit (Char.ofNat b.toNat)

/-- The length a pkt-line's header gives: four hexadecimal digits and nothing else. -/
def pktLength (header : Bytes) : Option Nat :=
  match header with
  | [a, b, c, d] => do return hexFrom 0 [← byteHex a, ← byteHex b, ← byteHex c, ← byteHex d]
  | _ => none

/-- The pkt-lines up to the flush, and what follows it; `none` where git gives up. -/
def packets (buffer : Bytes) : Option (List Bytes × Bytes) :=
  if _h : 4 ≤ buffer.length then
    match pktLength (buffer.take 4) with
    | none => none
    | some size =>
      if size = 0 then some ([], buffer.drop 4)
      else if _hs : size < 4 then none
      else if buffer.length < size then none
      else (packets (buffer.drop size)).map fun found =>
        ((buffer.take size).drop 4 :: found.1, found.2)
  else none
termination_by buffer.length
decreasing_by
  rw [length_drop]
  omega

/-- A C string: what stands before the first NUL. -/
def cString (bytes : Bytes) : Bytes := bytes.takeWhile (· ≠ 0)

def isHexByte (b : UInt8) : Bool := (byteHex b).isSome

/-- One line: an update, or `some none` for a shallow commit. -/
def readUpdate (raw : Bytes) : Option (Option Update) :=
  let line := cString (Lines.chomp Utf8.newline raw)
  if (Utf8.encode "shallow ".toList).isPrefixOf line then
    if 40 ≤ ((line.drop 8).takeWhile isHexByte).length then some none else none
  else
    match takeId isHexByte line with
    | some (oldId, 0x20 :: second) =>
      match takeId isHexByte second with
      | some (newId, 0x20 :: ref) => some (some ⟨oldId, newId, ref⟩)
      | _ => none
    | _ => none

def readUpdates : List Bytes → Option (List Update)
  | [] => some []
  | line :: lines =>
    match readUpdate line, readUpdates lines with
    | some update, some updates => some (update.toList ++ updates)
    | _, _ => none

/-- **The ref updates receive-pack reads from a request body.** -/
def gitUpdates (body : Bytes) : Option (List Update) := (packets body).bind (readUpdates ·.1)

def RefUpdate.bytes (u : RefUpdate) : Update :=
  ⟨Utf8.encode u.oldId, Utf8.encode u.newId, Utf8.encode u.ref⟩

/-! ## What a review is for -/

/-- A text is of a glob's form: `*` stands for any text. -/
inductive Glob : List Char → List Char → Prop where
  | nil : Glob [] []
  | lit (c : Char) {pattern text : List Char} : Glob pattern text → Glob (c :: pattern) (c :: text)
  | star (any : List Char) {pattern text : List Char} :
      Glob pattern text → Glob ('*' :: pattern) (any ++ text)

/-- One command was reviewed against some push rules and the advertised default branch. -/
structure Allowed (push : Option (List (List Char))) (branch : Option (List Char))
    (c : RefUpdate) : Prop where
  keeps : ∃ d ∈ c.newId, d ≠ '0'
  spares : ∃ b, branch = some b ∧ c.ref ≠ b
  matched : ∃ pattern ∈ push.getD DEFAULT_PUSH_PATTERNS, Glob (fullPattern pattern) c.ref

variable (gunzip : Stream → Stream)

/-- **A forwarded push is what was reviewed.** -/
structure Reviewed (env : Env) (request : Request) (commands : List RefUpdate) (out : Stream) :
    Prop where
  updates : gitUpdates out.chunks.flatten = some (commands.map RefUpdate.bytes)
  allowed : ∃ branch, defaultBranch env = .ok branch ∧
    ∀ c ∈ commands, Allowed env.push branch c
  granted : ∃ branch push, defaultBranch env = .ok branch ∧ env.access = .granted push ∧
    ∀ c ∈ commands, Allowed push branch c
  unchanged : out.chunks.flatten = (decoded gunzip request).chunks.flatten ∧
    out.broken = (decoded gunzip request).broken

/-- A line is text as far as git reads it, without a byte-order mark. -/
def TextLine (line : Bytes) : Prop :=
  ¬ Utf8.bom <+: line ∧ ∃ text, cString line = Utf8.encode text

/-- **A body that both can read**: it is framed as git frames it, and its lines are text. -/
def Readable (body : Bytes) : Prop :=
  ∃ lines rest, packets body = some (lines, rest) ∧ ∀ line ∈ lines, TextLine line

/-! ## Lengths -/

section Lengths

variable {c : Char} {b : UInt8} {v : Nat} {header : Bytes}

/-- A hexadecimal digit is none of what `parseInt` skips or stops at. -/
theorem hexDigit_spec (h : hexDigit c = some v) :
    c.toNat < 0x80 ∧ Text.isSpace c = false ∧ c ≠ '-' ∧ c ≠ '+' ∧ c ≠ 'x' ∧ c ≠ 'X' := by
  have hrange : (0x30 ≤ c.toNat ∧ c.toNat ≤ 0x39) ∨ (0x61 ≤ c.toNat ∧ c.toNat ≤ 0x66) ∨
      (0x41 ≤ c.toNat ∧ c.toNat ≤ 0x46) := by
    simp only [hexDigit] at h
    split at h
    · exact .inl ‹_›
    · split at h
      · exact .inr (.inl ‹_›)
      · split at h
        · exact .inr (.inr ‹_›)
        · cases h
  have differs : ∀ d : Char, (d.toNat < 0x30 ∨ (0x39 < d.toNat ∧ d.toNat < 0x41) ∨
      (0x46 < d.toNat ∧ d.toNat < 0x61) ∨ 0x66 < d.toNat) → c ≠ d := by
    rintro d hd rfl
    omega
  refine ⟨by omega, ?_, differs _ (by decide), differs _ (by decide), differs _ (by decide),
    differs _ (by decide)⟩
  simp only [Text.isSpace, Bool.or_eq_false_iff, Bool.and_eq_false_iff, decide_eq_false_iff_not,
    beq_eq_false_iff_ne]
  omega

theorem byteHex_ascii (h : byteHex b = some v) : b.toNat < 0x80 := by
  by_cases hval : b.toNat.isValidChar
  · have := (hexDigit_spec h).1
    rwa [Char.ofNat, dif_pos hval] at this
  · have hlt : b.toNat < 0x100 := b.toNat_lt
    omega

theorem pktLength_spec {n : Nat} (h : pktLength header = some n) :
    ∃ a b c d w x y z, header = [a, b, c, d] ∧ byteHex a = some w ∧ byteHex b = some x ∧
      byteHex c = some y ∧ byteHex d = some z ∧ n = hexFrom 0 [w, x, y, z] := by
  unfold pktLength at h
  split at h
  · rename_i a b c d
    cases ha : byteHex a with
    | none => simp [ha] at h
    | some w =>
      cases hb : byteHex b with
      | none => simp [hb] at h
      | some x =>
        cases hc : byteHex c with
        | none => simp [hc] at h
        | some y =>
          cases hd : byteHex d with
          | none => simp [hd] at h
          | some z =>
            simp only [ha, hb, hc, hd, Option.pure_def, Option.bind_eq_bind,
              Option.bind_some, Option.some.injEq] at h
            exact ⟨a, b, c, d, w, x, y, z, rfl, ha, hb, hc, hd, h.symm⟩
  · cases h

theorem withoutPrefix_eq {d : Char} {rest : List Char} (hx : d ≠ 'x') (hX : d ≠ 'X') :
    withoutPrefix (c :: d :: rest) = c :: d :: rest := by
  by_cases hc : c = '0'
  · subst hc
    simp [withoutPrefix, hx, hX]
  · unfold withoutPrefix
    split
    · rename_i heq
      exact absurd (List.cons.inj heq).1 hc
    · rfl

/-- **A length git reads, the gateway reads as the same number.** -/
theorem parseInt16_of_pktLength {n : Nat} (h : pktLength header = some n) :
    parseInt16 (Utf8.decodeText header) = some (n : Int) := by
  obtain ⟨a, b, c, d, w, x, y, z, rfl, ha, hb, hc, hd, rfl⟩ := pktLength_spec h
  have hbom : ¬ Utf8.bom <+: [a, b, c, d] := by
    rintro ⟨t, ht⟩
    have hfirst : a = 0xEF := (List.cons.inj ht).1.symm
    have := byteHex_ascii ha
    rw [hfirst] at this
    exact absurd this (by decide)
  have hdec : Utf8.decodeText [a, b, c, d] = [Char.ofNat a.toNat, Char.ofNat b.toNat,
      Char.ofNat c.toNat, Char.ofNat d.toNat] := by
    rw [Utf8.decodeText_eq hbom, Utf8.decode_cons_ascii (byteHex_ascii ha),
      Utf8.decode_cons_ascii (byteHex_ascii hb), Utf8.decode_cons_ascii (byteHex_ascii hc),
      Utf8.decode_cons_ascii (byteHex_ascii hd), Utf8.decode_eq_nil.mpr rfl]
  obtain ⟨-, hspace, hminus, hplus, -, -⟩ := hexDigit_spec ha
  obtain ⟨-, -, -, -, hx, hX⟩ := hexDigit_spec hb
  rw [byteHex] at ha hb hc hd
  have hdigits : leadingDigits (withoutPrefix [Char.ofNat a.toNat, Char.ofNat b.toNat,
      Char.ofNat c.toNat, Char.ofNat d.toNat]) = [w, x, y, z] := by
    rw [withoutPrefix_eq hx hX]
    simp only [leadingDigits, ha, hb, hc, hd]
  have hsign : ∀ s : Char, Char.ofNat a.toNat ≠ s →
      ([Char.ofNat a.toNat, Char.ofNat b.toNat, Char.ofNat c.toNat, Char.ofNat d.toNat].head? =
        some s) = False := fun s hs => by simp [hs]
  rw [hdec, parseInt16]
  simp only [dropWhile_cons, hspace, Bool.false_eq_true, if_false, hsign _ hminus,
    hsign _ hplus, or_self, hdigits, hexFrom]
  simp

end Lengths

variable {buffer : Bytes} {rest : Bytes} {α : Type}

/-! ## Framing -/

theorem readPktSection_flush (hlen : 4 ≤ buffer.length)
    (h : parseInt16 (Utf8.decodeText (buffer.take 4)) = some 0) :
    readPktSection buffer = .ok (some ([], buffer.drop 4)) := by
  rw [readPktSection, dif_pos hlen, h]
  simp only [if_true]

theorem readPktSection_line {buffer rest : Bytes} {lines : List Bytes} {n : Nat} (hn : 4 ≤ n)
    (hlen : n ≤ buffer.length) (h : parseInt16 (Utf8.decodeText (buffer.take 4)) = some (n : Int))
    (hrest : readPktSection (buffer.drop n) = .ok (some (lines, rest))) :
    readPktSection buffer = .ok (some ((buffer.take n).drop 4 :: lines, rest)) := by
  rw [readPktSection, dif_pos (Nat.le_trans hn hlen), h]
  simp only [Int.toNat_natCast]
  rw [if_neg (by omega), dif_neg (by omega), if_neg (by omega), hrest]

/-- A section that was read starts with a flush, or with a line and a section. -/
theorem readPktSection_cases {lines : List Bytes}
    (h : readPktSection buffer = .ok (some (lines, rest))) :
    (4 ≤ buffer.length ∧ parseInt16 (Utf8.decodeText (buffer.take 4)) = some 0 ∧ lines = [] ∧
      rest = buffer.drop 4) ∨
    ∃ n lines', 4 ≤ n ∧ n ≤ buffer.length ∧
      parseInt16 (Utf8.decodeText (buffer.take 4)) = some (n : Int) ∧
      readPktSection (buffer.drop n) = .ok (some (lines', rest)) ∧
      lines = (buffer.take n).drop 4 :: lines' := by
  rw [readPktSection] at h
  split at h
  · rename_i hlen
    split at h
    · cases h
    · rename_i size hsize
      split at h
      · rename_i hzero
        obtain ⟨rfl, rfl⟩ := Prod.mk.inj (Option.some.inj (Except.ok.inj h))
        exact .inl ⟨hlen, by rw [hsize, hzero], rfl, rfl⟩
      · split at h
        · cases h
        · split at h
          · cases h
          · split at h
            · cases h
            · cases h
            · rename_i lines' rest' hrest
              obtain ⟨rfl, rfl⟩ := Prod.mk.inj (Option.some.inj (Except.ok.inj h))
              have hcast : (size.toNat : Int) = size := Int.toNat_of_nonneg (by omega)
              exact .inr ⟨size.toNat, lines', by omega, by omega, by rw [hsize, hcast], hrest, rfl⟩
  · cases h

/-- More bytes after the flush change nothing before it. -/
theorem readPktSection_append {lines : List Bytes} (more : Bytes)
    (h : readPktSection buffer = .ok (some (lines, rest))) :
    readPktSection (buffer ++ more) = .ok (some (lines, rest ++ more)) := by
  induction hk : buffer.length using Nat.strongRecOn generalizing buffer lines with
  | ind k ih =>
    rcases readPktSection_cases h with ⟨hlen, hsize, rfl, rfl⟩
      | ⟨n, lines', hn, hle, hsize, hrest, rfl⟩
    · rw [← take_append_of_le_length hlen] at hsize
      rw [readPktSection_flush (by rw [length_append]; omega) hsize,
        drop_append_of_le_length hlen]
    · have hhead : (buffer ++ more).take 4 = buffer.take 4 :=
        take_append_of_le_length (Nat.le_trans hn hle)
      have hih := ih (buffer.drop n).length (by rw [length_drop]; omega) hrest rfl
      rw [← drop_append_of_le_length hle] at hih
      rw [readPktSection_line hn (by rw [length_append]; omega) (by rw [hhead, hsize]) hih,
        take_append_of_le_length hle]

/-- **What git reads as pkt-lines, the gateway reads as the same lines.** -/
theorem readPktSection_of_packets {lines : List Bytes} (h : packets buffer = some (lines, rest)) :
    readPktSection buffer = .ok (some (lines, rest)) := by
  induction hk : buffer.length using Nat.strongRecOn generalizing buffer lines with
  | ind k ih =>
    rw [packets] at h
    split at h
    · rename_i hlen
      split at h
      · cases h
      · rename_i size hsize
        have hint := parseInt16_of_pktLength hsize
        split at h
        · rename_i hzero
          obtain ⟨rfl, rfl⟩ := Prod.mk.inj (Option.some.inj h)
          exact readPktSection_flush hlen (by rw [hint, hzero]; rfl)
        · split at h
          · cases h
          · split at h
            · cases h
            · obtain ⟨inner, hinner, heq⟩ := Option.map_eq_some_iff.mp h
              obtain ⟨rfl, rfl⟩ := Prod.mk.inj heq
              exact readPktSection_line (by omega) (by omega) hint
                (ih (buffer.drop size).length (by rw [length_drop]; omega) hinner rfl)
    · cases h

/-! ## Ids -/

/-- The text before the first NUL. -/
def cText (text : List Char) : List Char := text.takeWhile (· ≠ '\x00')

theorem takeId_append {hex : α → Bool} {id rest : List α} (hid : ∀ x ∈ id, hex x = true)
    (hlen : id.length = 40 ∨ id.length = 64) (hrest : ∀ x ∈ rest.head?, hex x = false) :
    takeId hex (id ++ rest) = some (id, rest) := by
  have hstop : rest.takeWhile hex = [] ∧ rest.dropWhile hex = rest := by
    cases rest with
    | nil => exact ⟨rfl, rfl⟩
    | cons x xs => simp [hrest x rfl]
  have htake : (id ++ rest).takeWhile hex = id := by
    rw [takeWhile_append_of_pos hid, hstop.1, append_nil]
  have hdrop : (id ++ rest).dropWhile hex = rest := by
    rw [dropWhile_append_of_pos hid, hstop.2]
  simp only [takeId, htake, hdrop, if_pos hlen]

theorem takeId_spec {hex : α → Bool} {s id rest : List α} (h : takeId hex s = some (id, rest)) :
    s = id ++ rest ∧ (∀ x ∈ id, hex x = true) ∧ (id.length = 40 ∨ id.length = 64) := by
  simp only [takeId] at h
  split at h
  · obtain ⟨rfl, rfl⟩ := Prod.mk.inj (Option.some.inj h)
    exact ⟨takeWhile_append_dropWhile.symm, fun x => mem_takeWhile_imp, ‹_›⟩
  · cases h

theorem isHex_spec {c : Char} (h : isHex c = true) :
    (0x30 ≤ c.toNat ∧ c.toNat ≤ 0x39) ∨ (0x61 ≤ c.toNat ∧ c.toNat ≤ 0x66) := by
  simpa [isHex] using h

theorem toNat_asciiByte {c : Char} (h : c.toNat < 0x80) :
    Char.ofNat (UInt8.ofNat c.toNat).toNat = c := by
  rw [Utf8.toNat_ofNat_byte (by omega), Char.ofNat_toNat]

/-- An id is written as hexadecimal bytes, one a digit. -/
theorem encode_id {id : List Char} (h : ∀ c ∈ id, isHex c = true) :
    (∀ b ∈ Utf8.encode id, isHexByte b = true) ∧ (Utf8.encode id).length = id.length := by
  induction id with
  | nil => simp
  | cons c id ih =>
    obtain ⟨hhex, hlen⟩ := ih (forall_mem_cons.mp h).2
    have hrange := isHex_spec (h c mem_cons_self)
    have hascii : c.toNat < 0x80 := by omega
    rw [Utf8.encode_cons, Utf8.encodeChar_ascii hascii, singleton_append]
    have hdigit : isHexByte (UInt8.ofNat c.toNat) = true := by
      rw [isHexByte, byteHex, toNat_asciiByte hascii]
      simp only [hexDigit]
      rcases hrange with hr | hr
      · rw [if_pos hr]
        rfl
      · rw [if_neg (by omega), if_pos hr]
        rfl
    refine ⟨fun b hb => ?_, by simp [hlen]⟩
    rcases mem_cons.mp hb with rfl | hb
    · exact hdigit
    · exact hhex b hb

variable {raw : Bytes}

/-! ## One line -/

/-- A line that starts with a byte-order mark is nothing git reads. -/
theorem readUpdate_bom (h : Utf8.bom <+: raw) : readUpdate raw = none := by
  obtain ⟨more, rfl⟩ := h
  have hhead : ∃ rest, cString (Lines.chomp Utf8.newline (Utf8.bom ++ more)) = 0xEF :: rest := by
    have hne : (0xEF : UInt8) ≠ Utf8.newline := by decide
    obtain ⟨ys, hys⟩ := Lines.chomp_cons hne (0xBB :: 0xBF :: more)
    exact ⟨cString ys, by rw [show Utf8.bom ++ more = 0xEF :: 0xBB ::
      0xBF :: more from rfl, hys]; rfl⟩
  obtain ⟨rest, hrest⟩ := hhead
  have hnothex : isHexByte 0xEF = false := by decide
  have hpre : (Utf8.encode "shallow ".toList).isPrefixOf (0xEF :: rest) = false := by
    rfl
  simp only [readUpdate, hrest, hpre, takeId, takeWhile_cons, hnothex]
  simp

variable {c : RefUpdate} {text : List Char}

/-- What the gateway reads as one command. -/
theorem readCommand_spec (h : readCommand text = some c) :
    text = c.oldId ++ ' ' :: (c.newId ++ ' ' :: c.ref) ∧ (∀ d ∈ c.oldId, isHex d = true) ∧
      (c.oldId.length = 40 ∨ c.oldId.length = 64) ∧ (∀ d ∈ c.newId, isHex d = true) ∧
      (c.newId.length = 40 ∨ c.newId.length = 64) ∧ c.ref ≠ [] ∧ '\x00' ∉ c.ref := by
  unfold readCommand at h
  split at h
  · rename_i oldId second hold
    split at h
    · rename_i newId ref hnew
      split at h
      · rename_i hvalid
        obtain ⟨-, hlen, -, hname⟩ := hvalid
        obtain ⟨rfl, holdHex, holdLen⟩ := takeId_spec hold
        obtain ⟨rfl, hnewHex, hnewLen⟩ := takeId_spec hnew
        cases h
        refine ⟨rfl, holdHex, holdLen, hnewHex, hnewLen, ?_, ?_⟩
        · rintro rfl
          exact absurd hlen (by decide)
        · intro hnul
          simp only [isValidRefName, Bool.and_eq_true, Bool.not_eq_true', any_eq_false]
            at hname
          exact hname.1.2 _ hnul (by decide)
      · cases h
    · cases h
  · cases h

theorem cString_append {s t : Bytes} (h : ∀ b ∈ s, b ≠ 0) : cString (s ++ t) = s ++ cString t :=
  takeWhile_append_of_pos (fun b hb => by simpa using h b hb)

theorem cString_newline (s : Bytes) : cString (s ++ [Utf8.newline]) = cString s ∨
      cString (s ++ [Utf8.newline]) = cString s ++ [Utf8.newline] := by
  rw [cString, takeWhile_append]
  split
  · rename_i hlen
    have hs : s.takeWhile (· ≠ 0) = s := (List.takeWhile_prefix _).eq_of_length hlen
    exact .inr (by rw [cString, hs]; rfl)
  · exact .inl rfl

theorem cText_append {s t : List Char} (h : ∀ c ∈ s, c ≠ '\x00') : cText (s ++ t) = s ++ cText t :=
  takeWhile_append_of_pos (fun c hc => by simpa using h c hc)

theorem cText_eq_self {s : List Char} (h : '\x00' ∉ s) : cText s = s :=
  takeWhile_eq_self_iff.mpr (fun _ hc => decide_eq_true (fun heq => h (heq ▸ hc)))

theorem lineText_eq (h : ¬ Utf8.bom <+: raw) :
    lineText raw = Lines.chomp '\n' (Utf8.decode raw) := by
  rw [lineText, Utf8.decodeText_eq h]

/-- What the gateway reads of a line as a command: all of it, or for the first command what
stands before the NUL. -/
def piece (first : Bool) (text : List Char) : List Char := if first then cText text else text

theorem piece_prefix (first : Bool) (text : List Char) : ∃ tail, text = piece first text ++
    tail := by
  cases first
  · exact ⟨[], (append_nil _).symm⟩
  · exact ⟨_, (@takeWhile_append_dropWhile _ (· ≠ '\x00') text).symm⟩

/-- Git reads ids, spaces and a ref as an update. -/
theorem readUpdate_of_line {oldId newId ref : Bytes}
    (h : cString (Lines.chomp Utf8.newline raw) = oldId ++ 0x20 :: (newId ++ 0x20 :: ref))
    (hold : ∀ b ∈ oldId, isHexByte b = true) (holdLen : oldId.length = 40 ∨ oldId.length = 64)
    (hnew : ∀ b ∈ newId, isHexByte b = true) (hnewLen : newId.length = 40 ∨ newId.length = 64) :
    readUpdate raw = some (some ⟨oldId, newId, ref⟩) := by
  have hspace : ∀ rest : Bytes, ∀ x ∈ (0x20 :: rest).head?, isHexByte x = false := by
    intro rest x hx
    cases hx
    decide
  have hshallow : (Utf8.encode "shallow ".toList).isPrefixOf
      (oldId ++ 0x20 :: (newId ++ 0x20 :: ref)) = false := by
    cases oldId with
    | nil => simp at holdLen
    | cons b rest =>
      have hb : b ≠ 0x73 := by
        rintro rfl
        exact absurd (hold 0x73 mem_cons_self) (by decide)
      rw [show Utf8.encode "shallow ".toList =
        0x73 :: [0x68, 0x61, 0x6C, 0x6C, 0x6F, 0x77, 0x20] from rfl, cons_append,
        isPrefixOf_cons_cons, beq_eq_false_iff_ne.mpr (Ne.symm hb), Bool.false_and]
  simp only [readUpdate, h, hshallow, Bool.false_eq_true, if_false,
    takeId_append hold holdLen (hspace _), takeId_append hnew hnewLen (hspace _)]

/-- The two ids of a command, as they are written in front of the ref. -/
def idsOf (c : RefUpdate) : List Char := c.oldId ++ ' ' :: (c.newId ++ [' '])

theorem mem_idsOf (hold : ∀ d ∈ c.oldId, isHex d = true) (hnew : ∀ d ∈ c.newId, isHex d = true)
    {d : Char} (h : d ∈ idsOf c) : d.toNat < 0x80 ∧ d ≠ '\x00' := by
  have hhex : ∀ d, isHex d = true → d.toNat < 0x80 ∧ d ≠ '\x00' := by
    intro d hd
    have hrange := isHex_spec hd
    refine ⟨by omega, ?_⟩
    rintro rfl
    exact absurd hd (by decide)
  simp only [idsOf, mem_append, mem_cons, not_mem_nil, or_false] at h
  rcases h with h | rfl | h | rfl
  · exact hhex d (hold d h)
  · decide
  · exact hhex d (hnew d h)
  · decide

theorem encode_idsOf (c : RefUpdate) : Utf8.encode (idsOf c) =
    Utf8.encode c.oldId ++ 0x20 :: (Utf8.encode c.newId ++ [0x20]) := by
  rw [idsOf, Utf8.encode_append, Utf8.encode_cons, Utf8.encode_append]
  rfl

/-- Text without a NUL is written without a zero byte. -/
theorem encode_ne_zero (h : ∀ c ∈ text, c ≠ '\x00') : ∀ b ∈ Utf8.encode text, b ≠ 0 := by
  rintro b hb rfl
  obtain ⟨c, hc, hmem⟩ := mem_flatMap.mp hb
  exact h c hc (Utf8.mem_encodeChar (by decide) hmem)

variable {first : Bool}

/-- **A line the gateway reads as a command is read by git as one with the same ids.** The ref is
what follows them, up to the newline or the first NUL. -/
theorem readUpdate_of_command (hbom : ¬ Utf8.bom <+: raw)
    (h : readCommand (piece first (lineText raw)) = some c) :
    ∃ s, raw = Utf8.encode (idsOf c) ++ s ∧ (∀ b ∈ Utf8.encode (idsOf c), b ≠ 0) ∧
      c.ref = cText (Lines.chomp '\n' (Utf8.decode s)) ∧
      readUpdate raw = some (some ⟨Utf8.encode c.oldId, Utf8.encode c.newId,
        cString (Lines.chomp Utf8.newline s)⟩) := by
  obtain ⟨htext, holdHex, holdLen, hnewHex, hnewLen, hne, hnul⟩ := readCommand_spec h
  rw [lineText_eq hbom] at htext
  have hids := fun {d : Char} => mem_idsOf (d := d) holdHex hnewHex
  have hsplit : c.oldId ++ ' ' :: (c.newId ++ ' ' :: c.ref) = idsOf c ++ c.ref := by simp [idsOf]
  rw [hsplit] at htext
  -- The ids are ASCII, so the bytes they were read from are theirs.
  obtain ⟨tail, htail⟩ := piece_prefix first (Lines.chomp '\n' (Utf8.decode raw))
  obtain ⟨last, hlast⟩ := Lines.chomp_prefix '\n' (Utf8.decode raw)
  obtain ⟨s, rfl, hs⟩ : ∃ s, raw = Utf8.encode (idsOf c) ++ s ∧
      Utf8.decode s = c.ref ++ (tail ++ last) :=
    Utf8.decode_eq_append (fun d hd => (hids hd).1)
      (by rw [hlast, htail, htext]; simp only [append_assoc])
  have hdec : Utf8.decode s ≠ [] := fun hd => hne (append_eq_nil_iff.mp (hs ▸ hd)).1
  have hsne : s ≠ [] := fun hnil => hdec (Utf8.decode_eq_nil.mpr hnil)
  have hnonul : ∀ b ∈ Utf8.encode (idsOf c), b ≠ 0 := encode_ne_zero (fun d hd => (hids hd).2)
  refine ⟨s, rfl, hnonul, ?_, ?_⟩
  · rw [Utf8.decode_encode_append, Lines.chomp_append _ hdec] at htext
    cases first with
    | true =>
      rw [piece, if_pos rfl, cText_append (fun d hd => (hids hd).2)] at htext
      exact (append_cancel_left htext).symm
    | false =>
      rw [append_cancel_left htext, cText_eq_self hnul]
  · obtain ⟨oldHex, oldLen⟩ := encode_id holdHex
    obtain ⟨newHex, newLen⟩ := encode_id hnewHex
    refine readUpdate_of_line ?_ oldHex (by rwa [oldLen]) newHex (by rwa [newLen])
    rw [Lines.chomp_append _ hsne, cString_append hnonul, encode_idsOf]
    simp

/-- What a text is decoded from before its first NUL, git and the gateway chomp and end alike. -/
theorem cString_chomp {s : Bytes} (h : cString s = Utf8.encode text) :
    cString (Lines.chomp Utf8.newline s) =
      Utf8.encode (cText (Lines.chomp '\n' (Utf8.decode s))) := by
  have hzero : ∀ b ∈ Utf8.encode text, b ≠ 0 := by
    intro b hb
    rw [← h] at hb
    simpa using mem_takeWhile_imp hb
  have hnul : ∀ c ∈ text, c ≠ '\x00' := by
    rintro c hc rfl
    exact hzero 0 (mem_flatMap.mpr ⟨_, hc, by decide⟩) rfl
  have hs : s = Utf8.encode text ++ s.dropWhile (· ≠ 0) := by
    rw [← h, cString, takeWhile_append_dropWhile]
  cases hd : s.dropWhile (· ≠ 0) with
  | nil =>
    rw [hd, append_nil] at hs
    have hsub : ∀ c ∈ Lines.chomp '\n' text, c ≠ '\x00' := by
      intro c hc
      obtain ⟨tail, htail⟩ := Lines.chomp_prefix '\n' text
      exact hnul c (by rw [htail]; exact mem_append_left _ hc)
    rw [hs, Utf8.decode_encode, Utf8.chomp_encode,
      cText_eq_self (fun hmem => hsub _ hmem rfl), ← append_nil (Utf8.encode _),
      cString_append (encode_ne_zero hsub)]
    rfl
  | cons z rest =>
    have hz : z = 0 := by
      have hhead := List.head?_dropWhile_not (· ≠ (0 : UInt8)) s
      rw [hd] at hhead
      simpa using hhead
    subst hz
    rw [hd] at hs
    have hbyte : (0 : UInt8) ≠ Utf8.newline := by decide
    have hchar : '\x00' ≠ '\n' := by decide
    obtain ⟨ys, hys⟩ := Lines.chomp_cons hbyte rest
    obtain ⟨zs, hzs⟩ := Lines.chomp_cons hchar (Utf8.decode rest)
    have hdec : Utf8.decode (0 :: rest) = '\x00' :: Utf8.decode rest :=
      Utf8.decode_cons_ascii (by decide) rest
    rw [hs, Lines.chomp_append _ (cons_ne_nil _ _), hys, cString_append hzero,
      Utf8.decode_encode_append, hdec, Lines.chomp_append _ (cons_ne_nil _ _), hzs,
      cText_append hnul]
    simp [cString, cText]

/-- A shallow line of the gateway's is one of git's, and is text. -/
theorem readUpdate_of_shallow (hbom : ¬ Utf8.bom <+: raw) (h : isShallow (lineText raw) = true) :
    readUpdate raw = some none ∧ TextLine raw := by
  rw [lineText_eq hbom] at h
  simp only [isShallow, Bool.and_eq_true] at h
  obtain ⟨hpre, hid⟩ := h
  obtain ⟨body, hbody⟩ := isPrefixOf_iff_prefix.mp hpre
  have hdrop : (Lines.chomp '\n' (Utf8.decode raw)).drop 8 = body := by
    rw [← hbody]
    rfl
  rw [hdrop] at hid
  split at hid
  · rename_i id rest htake
    obtain ⟨rfl, hhex, hlen⟩ := takeId_spec htake
    obtain rfl : rest = [] := by simpa using hid
    rw [append_nil] at hbody
    have hascii : ∀ c ∈ "shallow ".toList ++ id, c.toNat < 0x80 ∧ c ≠ '\x00' := by
      intro c hc
      rcases mem_append.mp hc with hc | hc
      · have hlit : ∀ c ∈ ['s', 'h', 'a', 'l', 'l', 'o', 'w', ' '],
            c.toNat < 0x80 ∧ c ≠ '\x00' := by simp
        exact hlit c hc
      · have hrange := isHex_spec (hhex c hc)
        refine ⟨by omega, ?_⟩
        rintro rfl
        exact absurd hrange (by decide)
    -- All of the line is ASCII, so its bytes are those of its text.
    have hall : ∀ c ∈ Utf8.decode raw, c.toNat < 0x80 ∧ c ≠ '\x00' := by
      intro c hc
      rcases Lines.chomp_cases '\n' (Utf8.decode raw) with hl | hl
      · rw [← hl, ← hbody] at hc
        exact hascii c hc
      · rw [hl, ← hbody] at hc
        rcases mem_append.mp hc with hc | hc
        · exact hascii c hc
        · obtain rfl := mem_singleton.mp hc
          decide
    obtain ⟨s, hraw, hs⟩ := Utf8.decode_eq_append (fun c hc => (hall c hc).1)
      (append_nil (Utf8.decode raw)).symm
    rw [Utf8.decode_eq_nil.mp hs, append_nil] at hraw
    have hcstr : cString raw = Utf8.encode (Utf8.decode raw) := by
      have hz := @cString_append _ [] (encode_ne_zero (fun c hc => (hall c hc).2))
      rw [append_nil] at hz
      conv_lhs => rw [hraw, hz]
      exact append_nil _
    have hline : cString (Lines.chomp Utf8.newline raw) =
        Utf8.encode "shallow ".toList ++ Utf8.encode id := by
      rw [cString_chomp hcstr, ← hbody, cText_eq_self (fun hm => (hascii _ hm).2 rfl),
        Utf8.encode_append]
    obtain ⟨hbytes, hcount⟩ := encode_id hhex
    have htakeAll : ((Utf8.encode "shallow ".toList ++ Utf8.encode id).drop 8).takeWhile isHexByte =
        Utf8.encode id := by
      exact takeWhile_eq_self_iff.mpr hbytes
    refine ⟨?_, hbom, _, hcstr⟩
    rw [readUpdate, hline, if_pos (List.isPrefixOf_iff_prefix.mpr (prefix_append _ _)),
      htakeAll, if_pos (by rw [hcount]; omega)]
  · exact absurd hid Bool.false_ne_true

/-- A command's line is text as far as its ref goes, where git reads the same ref. -/
theorem textLine_iff_of_command (hbom : ¬ Utf8.bom <+: raw)
    (h : readCommand (piece first (lineText raw)) = some c) :
    TextLine raw ↔ readUpdate raw = some (some c.bytes) := by
  obtain ⟨s, rfl, hnonul, href, hread⟩ := readUpdate_of_command hbom h
  rw [hread]
  constructor
  · rintro ⟨-, text, htext⟩
    rw [cString_append hnonul] at htext
    have hdec := congrArg Utf8.decode htext
    rw [Utf8.decode_encode_append, Utf8.decode_encode] at hdec
    rw [← hdec, Utf8.encode_append] at htext
    rw [cString_chomp (append_cancel_left htext), ← href]
    rfl
  · intro heq
    have hbytes : cString (Lines.chomp Utf8.newline s) = Utf8.encode c.ref :=
      congrArg Update.ref (Option.some.inj (Option.some.inj heq))
    refine ⟨hbom, ?_⟩
    rw [cString_append hnonul]
    rcases Lines.chomp_cases Utf8.newline s with hs | hs
    · exact ⟨idsOf c ++ c.ref, by rw [Utf8.encode_append, ← hbytes, hs]⟩
    · rcases cString_newline (Lines.chomp Utf8.newline s) with hc | hc
      · exact ⟨idsOf c ++ c.ref, by rw [Utf8.encode_append, ← hbytes, hs, hc, ← hs]⟩
      · refine ⟨idsOf c ++ (c.ref ++ ['\n']), ?_⟩
        rw [Utf8.encode_append, Utf8.encode_append, ← hbytes, hs, hc, ← hs]
        rfl

/-! ## All lines -/

/-- The lines the gateway took for commands, in their order: shallow lines are passed over, and
only the first command may carry a NUL. -/
inductive Accepts : Bool → List Bytes → List RefUpdate → Prop where
  | nil {first : Bool} : Accepts first [] []
  | shallow {first : Bool} {raw : Bytes} {lines : List Bytes} {commands : List RefUpdate} :
      isShallow (lineText raw) = true → Accepts first lines commands →
      Accepts first (raw :: lines) commands
  | command {first : Bool} {raw : Bytes} {lines : List Bytes} {c : RefUpdate}
      {commands : List RefUpdate} :
      readCommand (piece first (lineText raw)) = some c → Accepts false lines commands →
      Accepts first (raw :: lines) (c :: commands)

theorem command_ok (h : command text = .ok c) : readCommand text = some c := by
  unfold command at h
  split at h
  · rw [← Except.ok.inj h]
    assumption
  · cases h

variable {commands : List RefUpdate}

theorem mapM_command_cons {texts : List (List Char)}
    (h : (text :: texts).mapM command = .ok commands) :
    ∃ c cs, readCommand text = some c ∧ texts.mapM command = .ok cs ∧ commands = c :: cs := by
  rw [mapM_cons] at h
  cases hc : command text with
  | error e => rw [hc] at h; cases h
  | ok c =>
    cases hcs : texts.mapM command with
    | error e => rw [hc, hcs] at h; cases h
    | ok cs =>
      rw [hc, hcs] at h
      exact ⟨c, cs, command_ok hc, rfl, (Except.ok.inj h).symm⟩

/-- The texts the gateway takes for commands. -/
def updatesOf (lines : List Bytes) : List (List Char) :=
  (lines.map lineText).filter (fun text => !isShallow text)

theorem accepts_rest {lines : List Bytes} (h : (updatesOf lines).mapM command = .ok commands) :
    Accepts false lines commands := by
  induction lines generalizing commands with
  | nil =>
    obtain rfl := Except.ok.inj h
    exact .nil
  | cons raw lines ih =>
    rw [updatesOf, map_cons, filter_cons] at h
    by_cases hs : isShallow (lineText raw) = true
    · rw [hs] at h
      exact .shallow hs (ih h)
    · rw [Bool.eq_false_iff.mpr hs, Bool.not_false, if_pos rfl] at h
      obtain ⟨c, cs, hc, hcs, rfl⟩ := mapM_command_cons h
      exact .command hc (ih hcs)

/-- **What the gateway parsed, it accepted line by line.** -/
theorem accepts_of_parse {lines : List Bytes} {capabilities : List (List Char)}
    (h : parseReceivePackCommands lines = .ok (commands, capabilities)) :
    Accepts true lines commands := by
  have hmap : ((updatesOf lines).mapIdx fun index text =>
      if index = 0 then cText ((updatesOf lines).head?.getD []) else text).mapM command =
        .ok commands := by
    change (((updatesOf lines).mapIdx fun index text =>
      if index = 0 then cText ((updatesOf lines).head?.getD []) else text).mapM command >>= _) = _
      at h
    cases hm : ((updatesOf lines).mapIdx fun index text =>
      if index = 0 then cText ((updatesOf lines).head?.getD []) else text).mapM command with
    | error e => rw [hm] at h; cases h
    | ok cs =>
      rw [hm] at h
      rw [(Prod.mk.inj (Except.ok.inj h)).1]
  clear h
  induction lines generalizing commands with
  | nil =>
    obtain rfl := Except.ok.inj hmap
    exact .nil
  | cons raw lines ih =>
    by_cases hs : isShallow (lineText raw) = true
    · have hsame : updatesOf (raw :: lines) = updatesOf lines := by
        simp [updatesOf, hs]
      rw [hsame] at hmap
      exact .shallow hs (ih hmap)
    · have hcons : updatesOf (raw :: lines) = lineText raw :: updatesOf lines := by
        simp [updatesOf, hs]
      rw [hcons, mapIdx_cons] at hmap
      simp only [Nat.add_eq_zero_iff, Nat.one_ne_zero, and_false, if_false] at hmap
      obtain ⟨c, cs, hc, hcs, rfl⟩ := mapM_command_cons hmap
      have hid : (updatesOf lines).mapIdx (fun _ text => text) = updatesOf lines :=
        ext_getElem (by simp) (by simp)
      exact .command hc (accepts_rest (by rwa [hid] at hcs))

theorem readUpdates_cons {lines : List Bytes} {updates : List Update}
    (h : readUpdates (raw :: lines) = some updates) :
    ∃ update rest, readUpdate raw = some update ∧ readUpdates lines = some rest ∧
      updates = update.toList ++ rest := by
  rw [readUpdates] at h
  split at h
  · exact ⟨_, _, ‹_›, ‹_›, (Option.some.inj h).symm⟩
  · cases h

/-- **Lines are text exactly where git reads the commands the gateway accepted.** -/
theorem textLines_iff_of_accepts {lines : List Bytes} (h : Accepts first lines commands) :
    (∀ raw ∈ lines, TextLine raw) ↔ readUpdates lines = some (commands.map RefUpdate.bytes) := by
  induction h with
  | nil => simp [readUpdates]
  | shallow hshallow _ ih =>
    rename_i first raw lines commands _
    constructor
    · intro hall
      have hbom := (hall raw mem_cons_self).1
      rw [readUpdates, (readUpdate_of_shallow hbom hshallow).1,
        ih.mp (forall_mem_cons.mp hall).2]
      rfl
    · intro hread
      obtain ⟨update, rest, hraw, hrest, heq⟩ := readUpdates_cons hread
      have hbom : ¬ Utf8.bom <+: raw := fun hb => by
        rw [readUpdate_bom hb] at hraw
        cases hraw
      obtain ⟨hnone, htext⟩ := readUpdate_of_shallow hbom hshallow
      obtain rfl : none = update := Option.some.inj (hnone.symm.trans hraw)
      rw [Option.toList_none, nil_append] at heq
      rw [← heq] at hrest
      exact forall_mem_cons.mpr ⟨htext, ih.mpr hrest⟩
  | command hc _ ih =>
    rename_i first raw lines c commands _
    constructor
    · intro hall
      have htext := hall raw mem_cons_self
      rw [readUpdates, (textLine_iff_of_command htext.1 hc).mp htext,
        ih.mp (forall_mem_cons.mp hall).2]
      rfl
    · intro hread
      obtain ⟨update, rest, hraw, hrest, heq⟩ := readUpdates_cons hread
      have hbom : ¬ Utf8.bom <+: raw := fun hb => by
        rw [readUpdate_bom hb] at hraw
        cases hraw
      obtain ⟨s, -, -, -, hread'⟩ := readUpdate_of_command hbom hc
      cases hread'.symm.trans hraw
      rw [Option.toList_some, map_cons, singleton_append] at heq
      obtain ⟨hone, hothers⟩ := List.cons.inj heq
      rw [← hothers] at hrest
      rw [← hone] at hraw
      exact forall_mem_cons.mpr ⟨(textLine_iff_of_command hbom hc).mpr hraw, ih.mpr hrest⟩

variable {pattern : List Char}

/-! ## Push rules -/

theorem glob_append (s : List Char) (h : Glob pattern text) : Glob (s ++ pattern) (s ++ text) := by
  induction s with
  | nil => exact h
  | cons c s ih => exact .lit c ih

theorem anyThen_spec {next : List Char → Bool} (h : anyThen next text = true) :
    ∃ any rest, text = any ++ rest ∧ next rest = true := by
  induction text with
  | nil => exact ⟨[], [], rfl, h⟩
  | cons c cs ih =>
    rw [anyThen, Bool.or_eq_true, Bool.and_eq_true] at h
    rcases h with h | ⟨-, h⟩
    · exact ⟨[], _, rfl, h⟩
    · obtain ⟨any, rest, rfl, hrest⟩ := ih h
      exact ⟨c :: any, rest, rfl, hrest⟩

theorem glob_of_matchParts {parts : List (List Char)}
    (h : matchParts parts text = true) : Glob (['*'].intercalate parts) text := by
  induction parts generalizing text with
  | nil =>
    obtain rfl : text = [] := by simpa [matchParts] using h
    exact .nil
  | cons part parts ih =>
    cases parts with
    | nil =>
      obtain rfl : text = part := by simpa [matchParts] using h
      simpa using glob_append text .nil
    | cons next parts =>
      simp only [matchParts, Bool.and_eq_true, isPrefixOf_iff_prefix] at h
      obtain ⟨⟨rest, rfl⟩, hrest⟩ := h
      rw [drop_left] at hrest
      obtain ⟨any, after, rfl, hafter⟩ := anyThen_spec hrest
      have hglob := glob_append part (.star any (ih hafter))
      simpa using hglob

/-- **A ref that a rule matches is of the rule's form**, from its first character to its last. -/
theorem glob_of_refMatches {ref : List Char} (h : refMatches ref pattern = true) :
    Glob (fullPattern pattern) ref := by
  have hglob := glob_of_matchParts h
  rwa [intercalate_splitOn] at hglob

variable {branch : Option (List Char)} {push : Option (List (List Char))} {ref : Bytes}

theorem allowed_of_refusal (hid : c.newId ≠ [])
    (h : refusal (push.getD DEFAULT_PUSH_PATTERNS) branch c = none) : Allowed push branch c := by
  unfold refusal at h
  split at h
  · cases h
  · rename_i hbranch
    split at h
    · cases h
    · rename_i hzero
      split at h
      · cases h
      · rename_i hdefault
        split at h
        · cases h
        · rename_i hpattern
          refine ⟨?_, ?_, ?_⟩
          · by_contra hall
            push Not at hall
            exact hzero (by simp [isZero, hid]; exact hall)
          · cases branch with
            | none => exact absurd rfl hbranch
            | some b => exact ⟨b, rfl, fun heq => hdefault (by rw [heq])⟩
          · have hany : (push.getD DEFAULT_PUSH_PATTERNS).any (refMatches c.ref) = true := by
              simpa using hpattern
            obtain ⟨pattern, hmem, hmatch⟩ := any_eq_true.mp hany
            exact ⟨pattern, hmem, glob_of_refMatches hmatch⟩

theorem setReason_ne_nil (reasons : Reasons) (ref reason : List Char) :
    setReason reasons ref reason ≠ [] := by
  unfold setReason
  split
  · rename_i hany
    cases reasons with
    | nil => exact absurd hany (by simp)
    | cons r rs => simp
  · simp

/-- Reasons once given stay. -/
theorem foldl_refusal {patterns : List (List Char)} {reasons : Reasons}
    (h : (commands.foldl (fun reasons update =>
      match refusal patterns branch update with
      | some reason => setReason reasons update.ref reason
      | none => reasons) reasons) = []) :
    reasons = [] ∧ ∀ c ∈ commands, refusal patterns branch c = none := by
  induction commands generalizing reasons with
  | nil => exact ⟨h, fun _ hc => absurd hc not_mem_nil⟩
  | cons c commands ih =>
    rw [foldl_cons] at h
    obtain ⟨hnil, hrest⟩ := ih h
    cases hc : refusal patterns branch c with
    | some reason =>
      rw [hc] at hnil
      exact absurd hnil (setReason_ne_nil reasons c.ref reason)
    | none =>
      rw [hc] at hnil
      exact ⟨hnil, forall_mem_cons.mpr ⟨hc, hrest⟩⟩

/-- **A push that is not refused is allowed command by command.** -/
theorem allowed_of_reviewPush (hids : ∀ c ∈ commands, c.newId ≠ [])
    (h : reviewPush commands (push.getD DEFAULT_PUSH_PATTERNS) branch = none) :
    ∀ c ∈ commands, Allowed push branch c := by
  simp only [reviewPush] at h
  split at h
  · cases h
  · rename_i hlen
    have hnil := eq_nil_of_length_eq_zero (Nat.eq_zero_of_not_pos hlen)
    exact fun c hc => allowed_of_refusal (hids c hc) ((foldl_refusal hnil).2 c hc)

theorem newId_ne_nil {lines : List Bytes} (h : Accepts first lines commands) :
    ∀ c ∈ commands, c.newId ≠ [] := by
  induction h with
  | nil => exact fun c hc => absurd hc not_mem_nil
  | shallow _ _ ih => exact ih
  | command hc _ ih =>
    refine forall_mem_cons.mpr ⟨fun hnil => ?_, ih⟩
    obtain ⟨-, -, -, -, hlen, -, -⟩ := readCommand_spec hc
    rw [hnil] at hlen
    exact absurd hlen (by decide)

/-! ## Forwarding -/

/-- What is buffered and what is left are the stream. -/
theorem readUntil_spec {complete : Bytes → Except Failure Bool} {limit : Nat} {broken : Bool}
    {chunks : List Bytes} {found : Bytes} {rest : List Bytes}
    (h : readUntil complete limit broken buffer chunks = .ok (found, rest)) :
    found ++ rest.flatten = buffer ++ chunks.flatten := by
  induction chunks generalizing buffer with
  | nil =>
    simp only [readUntil, bind, Except.bind] at h
    split at h
    · cases h
    · split at h
      · obtain ⟨rfl, rfl⟩ := Prod.mk.inj (Except.ok.inj h)
        rfl
      · repeat' split at h
        all_goals cases h
  | cons chunk chunks ih =>
    simp only [readUntil, bind, Except.bind] at h
    split at h
    · cases h
    · split at h
      · obtain ⟨rfl, rfl⟩ := Prod.mk.inj (Except.ok.inj h)
        rfl
      · split at h
        · cases h
        · rw [ih h, flatten_cons, append_assoc]

/-- **What is forwarded was read, parsed and reviewed twice.** -/
theorem receivePack_forwarded {gunzip : Stream → Stream} {env : Env} {request : Request}
    {out : Stream} (h : receivePack gunzip env request = .ok (.forwarded commands out)) :
    ∃ buffered chunks lines rest capabilities branch push,
      buffered ++ chunks.flatten = (decoded gunzip request).chunks.flatten ∧
      readPktSection buffered = .ok (some (lines, rest)) ∧
      parseReceivePackCommands lines = .ok (commands, capabilities) ∧
      defaultBranch env = .ok branch ∧
      reviewPush commands (env.push.getD DEFAULT_PUSH_PATTERNS) branch = none ∧
      env.access = .granted push ∧
      reviewPush commands (push.getD DEFAULT_PUSH_PATTERNS) branch = none ∧
      out = ⟨buffered :: chunks, (decoded gunzip request).broken⟩ := by
  rw [receivePack] at h
  simp only [bind, Except.bind] at h
  split at h
  · cases h
  · rename_i read hread
    obtain ⟨buffered, chunks⟩ := read
    have hstream := readUntil_spec hread
    split at h
    · cases h
    · split at h
      · rename_i lines rest hsection
        split at h
        · cases h
        · rename_i parsed hparsed
          obtain ⟨commands', capabilities⟩ := parsed
          split at h
          · cases h
          · split at h
            · cases h
            · rename_i branch hbranch
              split at h
              · cases h
              · rename_i hfirst
                split at h
                · cases h
                · cases h
                · rename_i push hpush
                  split at h
                  · cases h
                  · rename_i hsecond
                    obtain ⟨rfl, rfl⟩ := Outcome.forwarded.inj (Except.ok.inj h)
                    exact ⟨buffered, chunks, lines, rest, capabilities, branch, push, hstream,
                      hsection, hparsed, hbranch, Option.eq_none_iff_forall_not_mem.mpr hfirst,
                      hpush, Option.eq_none_iff_forall_not_mem.mpr hsecond, rfl⟩
      · cases h

/-- **A forwarded push is what was reviewed exactly where git and the gateway can both read it.** -/
theorem reviewed_iff_readable {gunzip : Stream → Stream} {env : Env} {request : Request}
    {commands : List RefUpdate} {out : Stream}
    (h : receivePack gunzip env request = .ok (.forwarded commands out)) :
    Reviewed gunzip env request commands out ↔ Readable out.chunks.flatten := by
  obtain ⟨buffered, chunks, lines, rest, capabilities, branch, granted, hstream, hsection, hparse,
    hbranch, hfirst, hgranted, hsecond, rfl⟩ := receivePack_forwarded h
  have haccepts := accepts_of_parse hparse
  have hids := newId_ne_nil haccepts
  have hwhole : readPktSection (buffered ++ chunks.flatten) =
      .ok (some (lines, rest ++ chunks.flatten)) := readPktSection_append _ hsection
  -- Where git finds pkt-lines at all, they are the gateway's.
  have hlines : ∀ {lines' rest'}, packets (buffered ++ chunks.flatten) = some (lines', rest') →
      lines' = lines := fun hp =>
    (Prod.mk.inj (Option.some.inj (Except.ok.inj
      ((readPktSection_of_packets hp).symm.trans hwhole)))).1
  rw [flatten_cons]
  constructor
  · intro hreviewed
    have hupdates := hreviewed.updates
    rw [flatten_cons, gitUpdates, Option.bind_eq_some_iff] at hupdates
    obtain ⟨⟨lines', rest'⟩, hpackets, hread⟩ := hupdates
    obtain rfl := hlines hpackets
    exact ⟨_, _, hpackets, (textLines_iff_of_accepts haccepts).mpr hread⟩
  · rintro ⟨lines', rest', hpackets, htext⟩
    obtain rfl := hlines hpackets
    have hread := (textLines_iff_of_accepts haccepts).mp htext
    exact
      { updates := by rw [flatten_cons, gitUpdates, hpackets]; exact hread
        allowed := ⟨branch, hbranch, allowed_of_reviewPush hids hfirst⟩
        granted := ⟨branch, granted, hbranch, hgranted, allowed_of_reviewPush hids hsecond⟩
        unchanged := ⟨hstream, rfl⟩ }

/-! ## A push of one command -/

/-- The command that creates a ref of 17 bytes. -/
def creation (ref : Bytes) : Bytes :=
  Utf8.encode (List.replicate 40 '0' ++ ' ' :: (List.replicate 40 '1' ++ [' '])) ++ ref

def creationPush (ref : Bytes) : Bytes :=
  Utf8.encode "0067".toList ++ (creation ref ++ Utf8.encode "0000".toList)

def advertised : Bytes :=
  Utf8.encode ("0027".toList ++ "h HEAD\x00symref=HEAD:refs/heads/trunk".toList ++ "0000".toList)

/-- A binding that may push where nothing else is said. -/
def workEnv : Env := ⟨"origin".toList, true, none, some advertised, .granted none⟩

def plainRequest (body : Bytes) : Request := ⟨none, ⟨[body], false⟩⟩

theorem readPktSection_creation (h : ref.length = 17) :
    readPktSection (creationPush ref) = .ok (some ([creation ref], [])) := by
  have hlen : (creation ref).length = 99 := by
    rw [creation, length_append, h]
    decide
  have hhead : (creationPush ref).take 4 = Utf8.encode "0067".toList := rfl
  have hcount : (creationPush ref).length = 107 := by
    rw [creationPush, length_append, length_append, hlen]
    decide
  have hbody : creationPush ref =
      (Utf8.encode "0067".toList ++ creation ref) ++ Utf8.encode "0000".toList := by
    rw [creationPush, append_assoc]
  have hfront : (Utf8.encode "0067".toList ++ creation ref).length = 103 := by
    rw [length_append, hlen]
    decide
  have hdrop : (creationPush ref).drop 103 = Utf8.encode "0000".toList := by
    rw [hbody, ← hfront, drop_left]
  have htake : ((creationPush ref).take 103).drop 4 = creation ref := by
    rw [hbody, ← hfront, take_left]
    rfl
  have hflush : readPktSection ((creationPush ref).drop 103) = .ok (some ([], [])) := by
    rw [hdrop]
    exact readPktSection_flush (by decide) (by decide)
  have hline := @readPktSection_line _ _ _ 103 (by decide) (by rw [hcount]; decide)
    (by rw [hhead]; decide) hflush
  rwa [htake] at hline

theorem defaultBranch_workEnv : defaultBranch workEnv = .ok (some "refs/heads/trunk".toList) := by
  have hflush : readPktSection (advertised.drop 39) = .ok (some ([], [])) :=
    readPktSection_flush (by decide) (by decide)
  have hline := @readPktSection_line advertised _ _ 39 (by decide) (by decide) (by decide) hflush
  have hempty : readPktSection [] = .ok none := by rw [readPktSection]; rfl
  simp only [defaultBranch, workEnv, advertisedDefaultBranch, hline, bind, Except.bind, hempty]
  decide

/-- A push of one command that reads and passes is forwarded. -/
theorem receivePack_creation (h : ref.length = 17)
    (hparse : parseReceivePackCommands [creation ref] = .ok ([c], []))
    (hreview : reviewPush [c] DEFAULT_PUSH_PATTERNS (some "refs/heads/trunk".toList) = none) :
    receivePack id workEnv (plainRequest (creationPush ref)) =
      .ok (.forwarded [c] ⟨[creationPush ref], false⟩) := by
  have hempty : readPktSection [] = .ok none := by rw [readPktSection]; rfl
  have hsection := readPktSection_creation h
  have hread : readUntil (fun buffer => return (← readPktSection buffer).isSome) MAX_COMMAND_BYTES
      false [] [creationPush ref] = .ok (creationPush ref, []) := by
    simp only [readUntil, hempty, nil_append, hsection, bind, Except.bind, pure, Except.pure]
    simp
  have hbody : decoded id (plainRequest (creationPush ref)) = ⟨[creationPush ref], false⟩ := rfl
  simp only [receivePack, hbody]
  rw [hread]
  simp only [bind, Except.bind, hsection, hparse, defaultBranch_workEnv, Except.pure]
  simp only [workEnv, Option.getD_none]
  rw [hreview]
  rfl

/-- A plain push is forwarded, and is what was reviewed. -/
theorem reviewed_plain : Reviewed id workEnv
    (plainRequest (creationPush (Utf8.encode "refs/heads/work/x".toList)))
    [⟨List.replicate 40 '0', List.replicate 40 '1', "refs/heads/work/x".toList⟩]
    ⟨[creationPush (Utf8.encode "refs/heads/work/x".toList)], false⟩ ↔
      Readable [creationPush (Utf8.encode "refs/heads/work/x".toList)].flatten :=
  reviewed_iff_readable (receivePack_creation (by decide) (by decide) (by decide))

/-- **A ref that is not UTF-8 is reviewed under another name**: what the gateway reads as
`refs/heads/work/\uFFFD` the remote creates with the byte 0xFF. -/
theorem reviewed_other_ref : let ref := Utf8.encode "refs/heads/work/".toList ++ [0xFF]
    let c : RefUpdate := ⟨List.replicate 40 '0', List.replicate 40 '1',
      "refs/heads/work/".toList ++ [Utf8.replacement]⟩
    receivePack id workEnv (plainRequest (creationPush ref)) =
        .ok (.forwarded [c] ⟨[creationPush ref], false⟩) ∧
      gitUpdates (creationPush ref) ≠ some [c.bytes] ∧
      ¬ Reviewed id workEnv (plainRequest (creationPush ref)) [c] ⟨[creationPush ref], false⟩ := by
  intro ref c
  have hread : gitUpdates (creationPush ref) ≠ some [c.bytes] := by
    intro h
    obtain ⟨⟨lines, rest⟩, hpackets, hupdates⟩ := Option.bind_eq_some_iff.mp h
    have hsection := (readPktSection_of_packets hpackets).symm.trans
      (@readPktSection_creation ref (by decide))
    obtain ⟨rfl, rfl⟩ := Prod.mk.inj (Option.some.inj (Except.ok.inj hsection))
    revert hupdates
    decide
  refine ⟨receivePack_creation (by decide) (by decide) (by decide), hread, fun hreviewed => ?_⟩
  have hupdates := hreviewed.updates
  exact hread hupdates

end Catamorphic.Git.Gateway
