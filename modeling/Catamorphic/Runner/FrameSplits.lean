import Catamorphic.Lib.CodeUnits
import Catamorphic.Lib.Json
import Catamorphic.Lib.Utf8Encode

/-!
# Frames cut to size

What does not fit one frame is sent in several. The runner appends its harness events in
batches, each filled until the next event would take it over `APPEND_BATCH_BYTES`; core
writes a long text to a runner in pieces, each cut back to where a character starts.
-/

namespace Catamorphic.Runner.FrameSplits

open Utf8 List

/-- The character a buffer has for a scalar value, or for a surrogate alone. -/
def char : Text.Scalar → Char
  | .value n => Char.ofNat n
  | .lone _ => replacement

def chars (text : Text) : List Char := (Text.scalars text).map char

/-- `Buffer.from(text, "utf8")` -/
def buffer (text : Text) : List UInt8 := encode (chars text)

/-- `bytes.toString("utf8")` -/
def toText (bytes : List UInt8) : Text := Text.ofChars (decode bytes)

/-- `Buffer.byteLength(text, "utf8")` -/
def byteLength (text : Text) : Nat := (buffer text).length

def APPEND_BATCH_BYTES : Nat := 256 * 1024

/-- What an entry counts: its JSON, and the comma or bracket after it. -/
def entryBytes (entry : JsonValue) : Nat := byteLength entry.stringify + 1

def batchBytes (batch : List JsonValue) : Nat := (batch.map entryBytes).sum

/-- The batches yielded so far, and the one being filled. -/
structure Batching where
  yielded : List (List JsonValue)
  batch : List JsonValue
  size : Nat

/-- The batch being filled is yielded when the entry would take it over the bound. -/
def Batching.flush (s : Batching) (bytes : Nat) : Batching :=
  if 0 < s.batch.length ∧ s.size + bytes > APPEND_BATCH_BYTES then
    { yielded := s.yielded ++ [s.batch], batch := [], size := 0 }
  else s

def Batching.push (s : Batching) (entry : JsonValue) : Batching :=
  { s with batch := s.batch ++ [entry], size := s.size + entryBytes entry }

/-- One turn of the loop over the entries. -/
def Batching.add (s : Batching) (entry : JsonValue) : Batching :=
  (s.flush (entryBytes entry)).push entry

def appendBatches (entries : List JsonValue) : List (List JsonValue) :=
  let s := entries.foldl Batching.add { yielded := [], batch := [], size := 0 }
  if 0 < s.batch.length ∨ entries.length = 0 then s.yielded ++ [s.batch] else s.yielded

/-- The end of a piece, backed up over continuation bytes to the start of a character. -/
def backUp (bytes : List UInt8) : Nat → Nat
  | 0 => 0
  | 1 => 1
  | stop + 2 => if Continuation (bytes.getD (stop + 2) 0) then backUp bytes (stop + 1) else stop + 2

/-- The loop over what is left of the bytes; `none` when it has taken more turns than there
are bytes, as it does when a piece is empty. -/
def piecesFrom (maxBytes : Nat) : (fuel : Nat) → List UInt8 → Option (List Text)
  | _, [] => some []
  | 0, _ :: _ => none
  | fuel + 1, bytes =>
    let stop := backUp bytes (min maxBytes bytes.length)
    (piecesFrom maxBytes fuel (bytes.drop stop)).map (toText (bytes.take stop) :: ·)

def utf8Pieces (text : Text) (maxBytes : Nat) : Option (List Text) :=
  let bytes := buffer text
  if bytes.length ≤ maxBytes then some [text] else piecesFrom maxBytes bytes.length bytes

/-- Every surrogate of the text stands in a pair. -/
def Whole (text : Text) : Prop := ∃ s, text = Text.ofChars s

/-! ## Batches -/

/-- A batch is within the bound, or one entry on its own. -/
def Fits (batch : List JsonValue) : Prop :=
  batchBytes batch ≤ APPEND_BATCH_BYTES ∨ ∃ entry, batch = [entry]

theorem batchBytes_append (batch : List JsonValue) (entry : JsonValue) :
    batchBytes (batch ++ [entry]) = batchBytes batch + entryBytes entry := by
  simp [batchBytes]

/-- What holds after the entries `done`: they are in the batches, in order. -/
structure Batching.Holds (s : Batching) (done : List JsonValue) : Prop where
  kept : s.yielded.flatten ++ s.batch = done
  size : s.size = batchBytes s.batch
  fits : ∀ batch ∈ s.yielded, Fits batch
  last : Fits s.batch

variable {s : Batching} {done : List JsonValue}

/-- After a flush there is room for the entry, or nothing before it. -/
theorem Batching.Holds.flush (h : s.Holds done) (bytes : Nat) : (s.flush bytes).Holds done ∧
    ((s.flush bytes).batch = [] ∨ (s.flush bytes).size + bytes ≤ APPEND_BATCH_BYTES) := by
  rw [Batching.flush]
  split
  · refine ⟨⟨?_, rfl, ?_, .inl (Nat.zero_le _)⟩, .inl rfl⟩
    · rw [flatten_append, flatten_singleton, append_nil]
      exact h.kept
    · intro batch hbatch
      rcases mem_append.mp hbatch with hbatch | hbatch
      · exact h.fits batch hbatch
      · exact mem_singleton.mp hbatch ▸ h.last
  · next hno =>
    refine ⟨h, ?_⟩
    by_cases hempty : s.batch = []
    · exact .inl hempty
    · have hpos : 0 < s.batch.length := length_pos_iff.mpr hempty
      exact .inr (Nat.le_of_not_lt fun hlt => hno ⟨hpos, hlt⟩)

theorem Batching.Holds.add (h : s.Holds done) (entry : JsonValue) :
    (s.add entry).Holds (done ++ [entry]) := by
  obtain ⟨hflush, hroom⟩ := h.flush (entryBytes entry)
  have hsize : (s.flush (entryBytes entry)).size + entryBytes entry =
      batchBytes ((s.flush (entryBytes entry)).batch ++ [entry]) := by
    rw [batchBytes_append, hflush.size]
  refine ⟨?_, hsize, hflush.fits, ?_⟩
  · rw [← hflush.kept, append_assoc]
    rfl
  · rcases hroom with hempty | hroom
    · exact .inr ⟨entry, by rw [Batching.add, Batching.push, hempty]; rfl⟩
    · exact .inl (hsize ▸ hroom)

theorem Batching.Holds.run (h : s.Holds done) (entries : List JsonValue) :
    (entries.foldl Batching.add s).Holds (done ++ entries) := by
  induction entries generalizing s done with
  | nil => rwa [append_nil]
  | cons entry entries ih =>
    have hnext := ih (h.add entry)
    rwa [append_assoc] at hnext

/-- **The batches are the entries in order, each within the bound or a single entry.** -/
theorem appendBatches_holds (entries : List JsonValue) :
    (appendBatches entries).flatten = entries ∧ ∀ batch ∈ appendBatches entries, Fits batch := by
  have hstart : Batching.Holds { yielded := [], batch := [], size := 0 } [] :=
    ⟨rfl, rfl, fun batch hbatch => absurd hbatch not_mem_nil, .inl (Nat.zero_le _)⟩
  have h := hstart.run entries
  rw [nil_append] at h
  rw [appendBatches]
  generalize entries.foldl Batching.add { yielded := [], batch := [], size := 0 } = s at h
  split
  · refine ⟨by rw [flatten_append, flatten_singleton, h.kept], fun batch hbatch => ?_⟩
    rcases mem_append.mp hbatch with hbatch | hbatch
    · exact h.fits batch hbatch
    · exact mem_singleton.mp hbatch ▸ h.last
  · next hno =>
    have hempty : s.batch = [] := length_eq_zero_iff.mp (by omega)
    refine ⟨?_, h.fits⟩
    rw [← h.kept, hempty, append_nil]

/-! ## Pieces -/

theorem chars_ofChars (t : List Char) : chars (Text.ofChars t) = t := by
  rw [chars, Text.scalars_ofChars, map_map]
  exact (map_congr_left fun c _ => Char.ofNat_toNat c).trans (map_id t)

theorem byteLength_ofChars (t : List Char) : byteLength (Text.ofChars t) = (encode t).length := by
  rw [byteLength, buffer, chars_ofChars]

variable {t : List Char} {c : Char} {maxBytes : Nat}

/-- A byte that continues no character stands where one starts, or at the end. -/
theorem boundary {n : Nat} (hn : n ≤ (encode t).length)
    (h : ¬ Continuation ((encode t).getD n 0)) : ∃ k, n = (encode (t.take k)).length := by
  obtain ⟨k, part, htake, -, hpart⟩ := take_encode t n
  have hlen := congrArg List.length htake
  rw [length_take, Nat.min_eq_left hn, length_append] at hlen
  rcases hpart with rfl | ⟨c, rest, hdrop, hne, -, hlt⟩
  · exact ⟨k, hlen⟩
  · -- inside a character, every byte continues it
    exfalso
    obtain ⟨first, conts, hshape, -, hconts, -⟩ := encodeChar_shape c
    have hpos := length_pos_iff.mpr hne
    have hbytes : encode t = encode (t.take k) ++ (first :: conts ++ encode rest) := by
      conv_lhs => rw [← take_append_drop k t, encode_append, hdrop, encode_cons, hshape]
    rw [hshape, length_cons] at hlt
    refine h (hconts _ ?_)
    obtain ⟨i, hi⟩ : ∃ i, part.length = i + 1 := ⟨part.length - 1, by omega⟩
    have hi' : i < conts.length := by omega
    rw [hbytes, getD_eq_getElem?_getD, hlen, getElem?_append_right (Nat.le_add_right _ _),
      Nat.add_sub_cancel_left, hi, cons_append, getElem?_cons_succ, getElem?_append_left hi',
      getElem?_eq_getElem hi', Option.getD_some]
    exact getElem_mem hi'

theorem starts (t : List Char) : ¬ Continuation ((encode t).getD 0 0) := by
  cases h : encode t with
  | nil => decide
  | cons b rest => exact head_encode (t := t) (by rw [h]; rfl)

/-- **A piece ends where a character starts**, after the first one at the earliest. -/
theorem backUp_encode {n : Nat} (hc : (String.utf8EncodeChar c).length ≤ n)
    (hn : n ≤ (encode (c :: t)).length) : ∃ k,
      backUp (encode (c :: t)) n = (encode (c :: t.take k)).length ∧
        (encode (c :: t.take k)).length ≤ n := by
  obtain ⟨first, conts, hshape, -⟩ := encodeChar_shape c
  have hpos : 0 < (String.utf8EncodeChar c).length := by rw [hshape]; exact Nat.succ_pos _
  -- a stop at a boundary holds the first character
  have hstop : ∀ m, (∃ k, m = (encode ((c :: t).take k)).length) → 0 < m →
      ∃ k, m = (encode (c :: t.take k)).length := by
    rintro m ⟨_ | k, hm⟩ hlt
    · exact absurd hm (by rw [take_zero]; exact Nat.ne_of_gt hlt)
    · exact ⟨k, hm⟩
  induction n using backUp.induct (encode (c :: t)) with
  | case1 => omega
  | case2 => exact ⟨0, by rw [backUp, take_zero, encode_cons, encode_nil, append_nil]; omega⟩
  | case3 n hcont ih =>
    rw [backUp, if_pos hcont]
    have hne : (String.utf8EncodeChar c).length ≠ n + 2 := by
      intro heq
      refine starts t ?_
      rwa [encode_cons, getD_eq_getElem?_getD, getElem?_append_right (Nat.le_of_eq heq), heq,
        Nat.sub_self, ← getD_eq_getElem?_getD] at hcont
    obtain ⟨k, hk, hle⟩ := ih (by omega) (by omega)
    exact ⟨k, hk, by omega⟩
  | case4 n hcont =>
    obtain ⟨k, hk⟩ := hstop _ (boundary hn hcont) (by omega)
    rw [backUp, if_neg hcont]
    exact ⟨k, hk, Nat.le_of_eq hk.symm⟩

/-- **The pieces hold the text, each within the limit**, when each character is. -/
theorem piecesFrom_encode (hfit : ∀ c ∈ t, c.utf8Size ≤ maxBytes) {fuel : Nat}
    (hfuel : (encode t).length ≤ fuel) : ∃ pieces,
      piecesFrom maxBytes fuel (encode t) = some pieces ∧ pieces.flatten = Text.ofChars t ∧
        ∀ piece ∈ pieces, byteLength piece ≤ maxBytes := by
  induction fuel generalizing t with
  | zero =>
    have hnil := length_eq_zero_iff.mp (Nat.le_zero.mp hfuel)
    have ht := decode_encode t
    rw [hnil] at ht
    exact ⟨[], by rw [hnil, piecesFrom], ht ▸ rfl, fun _ hpiece => absurd hpiece not_mem_nil⟩
  | succ fuel ih =>
    cases t with
    | nil => exact ⟨[], rfl, rfl, fun _ hpiece => absurd hpiece not_mem_nil⟩
    | cons c t =>
      obtain ⟨first, conts, hshape, -⟩ := encodeChar_shape c
      have hsize : (String.utf8EncodeChar c).length ≤ maxBytes := by
        rw [String.length_utf8EncodeChar]
        exact hfit c mem_cons_self
      obtain ⟨k, hstop, hle⟩ := backUp_encode (t := t) (c := c)
        (n := min maxBytes (encode (c :: t)).length)
        (Nat.le_min.mpr ⟨hsize, by rw [encode_cons, length_append]; omega⟩)
          (Nat.min_le_right _ _)
      have hsplit : encode (c :: t) = encode (c :: t.take k) ++ encode (t.drop k) := by
        rw [← encode_append, cons_append, take_append_drop]
      have hpos : 0 < (encode (c :: t.take k)).length := by
        rw [encode_cons, hshape]
        exact Nat.succ_pos _
      have hless := congrArg List.length hsplit
      rw [length_append] at hless
      obtain ⟨pieces, hpieces, hflat, hbound⟩ := ih (t := t.drop k)
        (fun d hd => hfit d (mem_cons_of_mem _ (mem_of_mem_drop hd))) (by omega)
      refine ⟨Text.ofChars (c :: t.take k) :: pieces, ?_, ?_, ?_⟩
      · rw [piecesFrom, hstop]
        · conv_lhs => rw [hsplit, drop_left, take_left, hpieces]
          rw [toText, decode_encode]
          rfl
        · rw [encode_cons, hshape]
          exact fun h => by cases h
      · rw [flatten_cons, hflat, ← Text.ofChars_append, cons_append, take_append_drop]
      · refine forall_mem_cons.mpr ⟨?_, hbound⟩
        rw [byteLength_ofChars]
        exact Nat.le_trans hle (Nat.min_le_left _ _)

/-- The text a limit cuts is read back as it was written, and one within it is not touched. -/
theorem utf8Pieces_holds {text : Text} (hfit : ∀ c ∈ chars text, c.utf8Size ≤ maxBytes) : ∃ pieces,
      utf8Pieces text maxBytes = some pieces ∧ (∀ piece ∈ pieces, byteLength piece ≤ maxBytes) ∧
        (Whole text → pieces.flatten = text) := by
  rw [utf8Pieces]
  split
  · next hle => exact ⟨[text], rfl, forall_mem_singleton.mpr hle, fun _ => flatten_singleton⟩
  · obtain ⟨pieces, hpieces, hflat, hbound⟩ := piecesFrom_encode hfit (Nat.le_refl _)
    refine ⟨pieces, hpieces, hbound, ?_⟩
    rintro ⟨t, rfl⟩
    rw [hflat, chars_ofChars]

/-! ## Frames -/

/--
**What is split comes back together.** The batches are the entries in order, each within the
bound unless it is a single entry; the pieces of a text whose characters fit the limit are
each within it, and are the text unless it has a surrogate alone.
-/
theorem split_keeps (entries : List JsonValue) (text : Text) (maxBytes : Nat)
    (hfit : ∀ c ∈ chars text, c.utf8Size ≤ maxBytes) :
    ((appendBatches entries).flatten = entries ∧ ∀ batch ∈ appendBatches entries,
        batchBytes batch ≤ APPEND_BATCH_BYTES ∨ ∃ entry, batch = [entry]) ∧
      ∃ pieces, utf8Pieces text maxBytes = some pieces ∧
        (∀ piece ∈ pieces, byteLength piece ≤ maxBytes) ∧ (Whole text → pieces.flatten = text) :=
  ⟨appendBatches_holds entries, utf8Pieces_holds hfit⟩

theorem split_keeps_pair : ∃ pieces, utf8Pieces (Text.ofChars ['a', '😀', 'b']) 4 = some pieces ∧
    pieces.flatten = Text.ofChars ['a', '😀', 'b'] := by
  obtain ⟨-, pieces, hpieces, -, hflat⟩ :=
    split_keeps [.null] (Text.ofChars ['a', '😀', 'b']) 4 fun c _ => c.utf8Size_le_four
  exact ⟨pieces, hpieces, hflat ⟨_, rfl⟩⟩

theorem jsonBody_letters (n : Nat) : Text.jsonBody (replicate n 0x61) = replicate n 0x61 := by
  induction n with
  | zero => rfl
  | succ n ih =>
    rw [Text.jsonBody] at ih
    rw [replicate_succ, Text.jsonBody, Text.scalars_plain rfl rfl, flatMap_cons, ih]
    rfl

theorem chars_letters (n : Nat) (rest : Text) :
    chars (replicate n 0x61 ++ rest) = replicate n 'a' ++ chars rest := by
  induction n with
  | zero => rfl
  | succ n ih =>
    rw [chars] at ih
    rw [replicate_succ, cons_append, chars, Text.scalars_plain rfl rfl, map_cons, ih]
    rfl

theorem length_le_encode (t : List Char) : t.length ≤ (encode t).length := by
  induction t with
  | nil => exact Nat.le_refl _
  | cons c t ih =>
    have hpos := length_pos_iff.mpr (String.utf8EncodeChar_ne_nil (c := c))
    rw [encode_cons, length_append, length_cons]
    omega

/-- **An entry larger than the bound goes alone**, over it. -/
theorem split_over : ¬ ∀ entries, ∀ batch ∈ appendBatches entries,
    batchBytes batch ≤ APPEND_BATCH_BYTES := by
  intro h
  have hle := h [.string (replicate APPEND_BATCH_BYTES 0x61)] _ mem_cons_self
  have hchars : chars (JsonValue.stringify (.string (replicate APPEND_BATCH_BYTES 0x61))) =
      '"' :: (replicate APPEND_BATCH_BYTES 'a' ++ ['"']) := by
    rw [JsonValue.stringify, JsonValue.write, jsonBody_letters, JsonValue.quoted, cons_append,
      chars, Text.scalars_plain rfl rfl, map_cons]
    exact congrArg _ (chars_letters _ [0x22])
  have hlong := length_le_encode (chars (JsonValue.stringify
    (.string (replicate APPEND_BATCH_BYTES 0x61))))
  rw [hchars, length_cons, length_append, length_replicate, ← hchars] at hlong
  change batchBytes [.string (replicate APPEND_BATCH_BYTES 0x61)] ≤ _ at hle
  rw [batchBytes, map_singleton, sum_singleton, entryBytes, byteLength, buffer] at hle
  omega

end Catamorphic.Runner.FrameSplits
