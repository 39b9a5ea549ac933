import Catamorphic.Lib.Utf8Encode
import Catamorphic.Runner.ProcessOutput

/-!
# A process's output, page by page

A reader of a process's output asks for it in pages, each from the cursor the one before it
answered with. The output here is the UTF-8 form of a text. However the pages are cut, each
starts and ends between two characters and, where anything is left, gets on by one at least.

Each page is decoded by a `TextDecoder` of its own, which leaves out a byte order mark at its
start. The texts of the pages together are the text of the output exactly when no page but
the first starts at one.
-/

namespace Catamorphic.Runner

open Utf8 List

theorem encodeChar_length (c : Char) : (String.utf8EncodeChar c).length ≤ 4 := by
  obtain ⟨first, conts, hshape, -, -, hlength⟩ := encodeChar_shape c
  have hle := charLength_le first
  rw [hshape, length_cons]
  omega

/-- The walk back at the end of a part of a text leaves out the character that was cut. -/
theorem cutBack_encode (t : List Char) {part : List UInt8}
    (h : part = [] ∨ ∃ c, part ≠ [] ∧ part <+: String.utf8EncodeChar c ∧
      part.length < (String.utf8EncodeChar c).length) :
    cutBack 4 1 (encode t ++ part).reverse = part.length := by
  rcases h with rfl | ⟨c, hne, ⟨more, hmore⟩, hlt⟩
  · rw [append_nil]
    induction t using List.reverseRecOn with
    | nil => rfl
    | append_singleton t c _ =>
      obtain ⟨first, conts, hshape, hfirst, hconts, hlength⟩ := encodeChar_shape c
      have hle := charLength_le first
      rw [encode_append, encode_cons, encode_nil, append_nil, hshape, reverse_append,
        reverse_cons, append_assoc, singleton_append,
        cutBack_conts (fun b hb => hconts b (mem_reverse.mp hb)) hfirst
          (by rw [length_reverse]; omega), length_reverse, if_neg (by omega)]
      rfl
  · obtain ⟨first, conts, hshape, hfirst, hconts, hlength⟩ := encodeChar_shape c
    have hle := charLength_le first
    obtain ⟨head, rest, rfl⟩ := exists_cons_of_ne_nil hne
    rw [hshape, cons_append] at hmore
    obtain ⟨rfl, hrest⟩ := List.cons.inj hmore
    rw [hshape, length_cons, length_cons] at hlt
    have hin : ∀ b ∈ rest, Continuation b := fun b hb =>
      hconts b (hrest ▸ mem_append_left _ hb)
    rw [reverse_append, reverse_cons, append_assoc, singleton_append,
      cutBack_conts (fun b hb => hin b (mem_reverse.mp hb)) hfirst
        (by rw [length_reverse]; omega), length_reverse, if_pos (by omega),
      length_cons, Nat.add_comm]

/-- **One page of a text**: whole characters, at least one of what there is. -/
theorem decodeProcessChunk_encode (t : List Char) {cursor maxBytes : Nat} {final : Bool}
    (hmin : PROCESS_READ_MIN_BYTES ≤ maxBytes)
    (hfinal : final = true → (encode t).length ≤ maxBytes) :
    ∃ k, k ≤ t.length ∧ (t ≠ [] → 0 < k) ∧ decodeProcessChunk (encode t) cursor maxBytes final =
      ⟨decodeText (encode (t.take k)), cursor, cursor + (encode (t.take k)).length⟩ := by
  have hlead : leadBytes ((encode t).take maxBytes) = 0 := by
    refine leadBytes_eq_zero fun b hb => ?_
    rw [List.head?_take] at hb
    split at hb
    · cases hb
    · exact head_encode hb
  obtain ⟨k, part, htake, hk, hpart⟩ := take_encode t maxBytes
  have hcut : cutBack 4 1 (encode (t.take k) ++ part).reverse = part.length :=
    cutBack_encode _ (hpart.imp_right fun ⟨c, rest, _, hne, hpre, hlt⟩ => ⟨c, hne, hpre, hlt⟩)
  have hwhole : final = true → part = [] := by
    intro h
    rw [take_of_length_le (hfinal h)] at htake
    refine hpart.resolve_right ?_
    rintro ⟨c, rest, hdrop, -, ⟨more, hmore⟩, hlt⟩
    have hall : encode t = encode (t.take k) ++ (String.utf8EncodeChar c ++ encode rest) := by
      rw [← encode_cons, ← hdrop, ← encode_append, take_append_drop]
    have hlength := congrArg List.length (append_cancel_left (hall.symm.trans htake))
    rw [length_append] at hlength
    omega
  have hprefix : decodeUtf8Prefix (encode (t.take k) ++ part) final =
      (decodeText (encode (t.take k)), (encode (t.take k)).length) := by
    unfold decodeUtf8Prefix
    cases final with
    | true =>
      rw [hwhole rfl, append_nil]
      simp only [if_true, take_length]
    | false =>
      simp only [Bool.false_eq_true, if_false]
      rw [hcut, length_append, Nat.add_sub_cancel, take_left]
  refine ⟨k, hk, fun hne => ?_, ?_⟩
  · -- four bytes hold any one character
    refine Nat.pos_of_ne_zero fun hzero => ?_
    subst hzero
    rw [take_zero, encode_nil, nil_append] at htake
    have hlength := congrArg List.length htake
    obtain ⟨c, t, rfl⟩ := exists_cons_of_ne_nil hne
    rw [length_take, encode_cons, length_append] at hlength
    have hfour := encodeChar_length c
    obtain ⟨first, conts, hshape, -⟩ := encodeChar_shape c
    have hpos : 0 < (String.utf8EncodeChar c).length := by
      rw [hshape]
      exact Nat.succ_pos _
    simp only [PROCESS_READ_MIN_BYTES] at hmin
    rcases hpart with rfl | ⟨c', rest, hdrop, -, -, hlt⟩
    · rw [length_nil] at hlength
      omega
    · rw [drop_zero] at hdrop
      obtain ⟨rfl, -⟩ := List.cons.inj hdrop
      omega
  · rw [htake] at hlead
    simp only [decodeProcessChunk, htake, hlead, drop_zero, hprefix, Nat.add_zero]

/-! ## Reads one after the other -/

/-- One read: where it starts, how many bytes it may take, whether the process has exited. -/
structure Read where
  cursor : Nat
  maxBytes : Nat
  exited : Bool
deriving DecidableEq, Repr

/-- What a read answers with. Nothing comes after the output of a process that has exited. -/
def pageOf (output : List UInt8) (read : Read) : ProcessChunk :=
  decodeProcessChunk (output.drop read.cursor) read.cursor read.maxBytes
    (read.exited && decide (output.length - read.cursor ≤ read.maxBytes))

/-- Each read starts where the one before it ended, the first at `cursor`. -/
def Chained (output : List UInt8) : Nat → List Read → Prop
  | _, [] => True
  | cursor, read :: reads => read.cursor = cursor ∧ PROCESS_READ_MIN_BYTES ≤ read.maxBytes ∧
      Chained output (pageOf output read).nextCursor reads

/-- Where the last read ends. -/
def reached (output : List UInt8) (cursor : Nat) (reads : List Read) : Nat :=
  (reads.getLast?.map fun read => (pageOf output read).nextCursor).getD cursor

/-- How many bytes the first `n` characters are. -/
def offset (text : List Char) (n : Nat) : Nat := (encode (text.take n)).length

/-- Nothing of a text is lost, or cut in two, by reading it in pages. -/
structure Lossless (text : List Char) (reads : List Read) : Prop where
  /-- A page starts where it was asked to, and holds whole characters, one at least. -/
  page : ∀ read ∈ reads, ∃ n k, (pageOf (encode text) read).cursor = read.cursor ∧
    read.cursor = offset text n ∧ (pageOf (encode text) read).nextCursor = offset text k ∧
      (read.cursor < (encode text).length → n < k)
  /-- The pages' texts together are the text up to where they end. -/
  text : reads.flatMap (fun read => (pageOf (encode text) read).chunk) =
    decodeText ((encode text).take (reached (encode text) 0 reads))

theorem take_offset (text : List Char) (n : Nat) :
    (encode text).take (offset text n) = encode (text.take n) := by
  conv_lhs => rw [← take_append_drop n text, encode_append]
  rw [take_append_of_le_length (by simp [offset]), take_of_length_le (by simp [offset])]

theorem drop_offset (text : List Char) (n : Nat) :
    (encode text).drop (offset text n) = encode (text.drop n) := by
  have hall : encode text = encode (text.take n) ++ encode (text.drop n) := by
    rw [← encode_append, take_append_drop]
  rw [hall, offset, drop_left]

theorem offset_add (text : List Char) (n k : Nat) :
    offset text (n + k) = offset text n + (encode ((text.drop n).take k)).length := by
  rw [offset, take_add, encode_append, length_append, offset]

/-- A read that starts between characters. -/
theorem pageOf_offset (text : List Char) (n : Nat) {read : Read}
    (hat : read.cursor = offset text n) (hmin : PROCESS_READ_MIN_BYTES ≤ read.maxBytes) :
    ∃ k, k ≤ text.length - n ∧ (n < text.length → 0 < k) ∧ pageOf (encode text) read =
      ⟨decodeText (encode ((text.drop n).take k)), offset text n, offset text (n + k)⟩ := by
  have hleft : (encode text).length - read.cursor = (encode (text.drop n)).length := by
    rw [← drop_offset, length_drop, hat]
  unfold pageOf
  rw [hleft, hat, drop_offset]
  obtain ⟨k, hk, hpos, hpage⟩ := @decodeProcessChunk_encode (text.drop n) (offset text n)
    read.maxBytes (read.exited && decide ((encode (text.drop n)).length ≤ read.maxBytes)) hmin
    (fun h => of_decide_eq_true (Bool.and_eq_true_iff.mp h).2)
  rw [length_drop] at hk
  refine ⟨k, hk, fun hn => hpos fun hnil => ?_, ?_⟩
  · have hlength := congrArg List.length hnil
    rw [length_drop, length_nil] at hlength
    omega
  · rw [hpage, offset_add]

/-- A page's text: all of its characters, but for a mark they start with. -/
theorem decodeText_take (u : List Char) {k : Nat} (hk : k ≤ u.length) (hpos : u ≠ [] → 0 < k) :
    (decodeText (encode (u.take k))).length ≤ k ∧
      (decodeText (encode (u.take k)) = u.take k ↔ u.head? ≠ some '\uFEFF') := by
  have hlength : (u.take k).length = k := by rw [length_take, Nat.min_eq_left hk]
  have hhead : (u.take k).head? = u.head? := by
    cases u with
    | nil => rw [take_nil]
    | cons c u => rw [List.head?_take, if_neg (Nat.pos_iff_ne_zero.mp (hpos (by simp)))]
  rw [decodeText_encode_eq, hhead]
  split
  · next h =>
    rw [← hhead] at h
    obtain ⟨rest, hrest⟩ := List.head?_eq_some_iff.mp h
    rw [hrest, length_cons] at hlength
    rw [hrest]
    refine ⟨?_, fun heq => ?_, absurd (by rw [← hhead, h])⟩
    · rw [tail_cons]
      omega
    · have hcontra := congrArg List.length heq
      rw [tail_cons, length_cons] at hcontra
      omega
  · next h => exact ⟨Nat.le_of_eq hlength, fun _ => h, fun _ => rfl⟩

theorem reached_cons (output : List UInt8) (cursor : Nat) (read : Read) (reads : List Read) :
    reached output cursor (read :: reads) =
      reached output (pageOf output read).nextCursor reads := by
  cases reads with
  | nil => rfl
  | cons next reads => rw [reached, List.getLast?_cons_cons, reached, List.getLast?_cons]; rfl

/-- **Reads from a place between two characters on**, and what their texts are together. -/
theorem pages_offset (text : List Char) {reads : List Read} : ∀ {n : Nat}, n ≤ text.length →
    Chained (encode text) (offset text n) reads → (∀ read ∈ reads, ∃ m k, n ≤ m ∧ m ≤ text.length ∧
        (pageOf (encode text) read).cursor = read.cursor ∧ read.cursor = offset text m ∧
          (pageOf (encode text) read).nextCursor = offset text k ∧ (m < text.length → m < k)) ∧
      ∃ k, k ≤ text.length - n ∧ reached (encode text) (offset text n) reads = offset text (n + k) ∧
          (reads.flatMap fun read => (pageOf (encode text) read).chunk).length ≤ k ∧
            (reads.flatMap (fun read => (pageOf (encode text) read).chunk) = (text.drop n).take k ↔
              ∀ read ∈ reads, ¬ bom <+: (encode text).drop read.cursor) := by
  induction reads with
  | nil =>
    intro n _ _
    exact ⟨fun _ h => absurd h not_mem_nil, 0, Nat.zero_le _, rfl, Nat.le_refl _,
      fun _ _ h => absurd h not_mem_nil, fun _ => rfl⟩
  | cons read reads ih =>
    intro n hn hchained
    obtain ⟨hat, hmin, hrest⟩ := hchained
    obtain ⟨k, hk, hpos, hpage⟩ := pageOf_offset text n hat hmin
    have hnext : (pageOf (encode text) read).nextCursor = offset text (n + k) := by rw [hpage]
    rw [hnext] at hrest
    obtain ⟨hpages, k', hk', hreached, hle', hiff'⟩ := ih (by omega) hrest
    have hdrop : (text.drop n).length = text.length - n := length_drop
    obtain ⟨hle, hiff⟩ := decodeText_take (text.drop n) (by omega) fun hne => hpos (by
      have := length_pos_iff.mpr hne
      omega)
    have hchunk : (pageOf (encode text) read).chunk =
        decodeText (encode ((text.drop n).take k)) := by rw [hpage]
    have hmark : bom <+: (encode text).drop read.cursor ↔
        (text.drop n).head? = some '\uFEFF' := by rw [hat, drop_offset, bom_prefix_encode]
    refine ⟨forall_mem_cons.mpr ⟨⟨n, n + k, Nat.le_refl n, hn, by rw [hpage, hat], hat,
        hnext, fun hlt => Nat.lt_add_of_pos_right (hpos hlt)⟩, fun r hr => ?_⟩,
      k + k', by omega, ?_, ?_, ?_⟩
    · obtain ⟨m, j, hnm, hrest⟩ := hpages r hr
      exact ⟨m, j, Nat.le_trans (Nat.le_add_right n k) hnm, hrest⟩
    · rw [reached_cons, hnext, hreached, Nat.add_assoc]
    · rw [flatMap_cons, length_append, hchunk]
      omega
    · rw [flatMap_cons, hchunk, take_add, drop_drop, forall_mem_cons, ← hiff', hmark, ← Ne, ← hiff]
      constructor
      · -- no page is longer than its characters, so none is shorter either
        intro h
        have htake : ((text.drop n).take k).length = k := by
          rw [length_take]
          omega
        have htake' : ((text.drop (n + k)).take k').length = k' := by
          rw [length_take, length_drop]
          omega
        have hlength := congrArg List.length h
        rw [length_append, length_append, htake, htake'] at hlength
        exact append_inj h (by omega)
      · rintro ⟨h, h'⟩
        rw [h, h']

theorem offset_pos {text : List Char} {n : Nat} (hne : text ≠ []) (hn : 0 < n) :
    0 < offset text n := by
  obtain ⟨c, rest, rfl⟩ := exists_cons_of_ne_nil hne
  obtain ⟨k, rfl⟩ := Nat.exists_eq_succ_of_ne_zero (Nat.pos_iff_ne_zero.mp hn)
  obtain ⟨first, conts, hshape, -⟩ := encodeChar_shape c
  rw [offset, take_succ_cons, encode_cons, hshape, length_append, length_cons]
  omega

/-- A text after its first page. -/
theorem decodeText_take_add (u : List Char) {k : Nat} (j : Nat) (hpos : u ≠ [] → 0 < k) :
    decodeText (encode (u.take (k + j))) = decodeText (encode (u.take k)) ++ (u.drop k).take j := by
  cases u with
  | nil => simp
  | cons c u =>
    obtain ⟨k, rfl⟩ := Nat.exists_eq_succ_of_ne_zero (Nat.pos_iff_ne_zero.mp (hpos (by simp)))
    rw [decodeText_encode_eq, decodeText_encode_eq, take_add, take_succ_cons,
      cons_append, List.head?_cons, List.head?_cons]
    split
    · rfl
    · rfl

/--
**Reads one after the other lose nothing of a text exactly when none but the first starts at
a byte order mark**: a `TextDecoder` leaves one out, and each page has a decoder of its own.
-/
theorem lossless_iff (text : List Char) (reads : List Read) (h : Chained (encode text) 0 reads) :
    Lossless text reads ↔
      ∀ read ∈ reads, read.cursor ≠ 0 → ¬ bom <+: (encode text).drop read.cursor := by
  have hzero : offset text 0 = 0 := by simp [offset]
  obtain ⟨hpages, -⟩ := pages_offset text (Nat.zero_le _) (by rwa [hzero])
  have hpage : ∀ read ∈ reads, ∃ n k, (pageOf (encode text) read).cursor = read.cursor ∧
      read.cursor = offset text n ∧ (pageOf (encode text) read).nextCursor = offset text k ∧
        (read.cursor < (encode text).length → n < k) := by
    intro read hr
    obtain ⟨m, k, -, hm, hcursor, hat, hnext, hlt⟩ := hpages read hr
    refine ⟨m, k, hcursor, hat, hnext, fun hleft => hlt ?_⟩
    refine Nat.lt_of_le_of_ne hm fun hend => ?_
    rw [hat, hend, offset, take_length] at hleft
    exact absurd hleft (Nat.lt_irrefl _)
  cases reads with
  | nil =>
      refine ⟨fun _ _ hr => absurd hr not_mem_nil, fun _ => ⟨hpage, ?_⟩⟩
      exact (decodeText_encode_eq []).symm
  | cons read reads =>
      obtain ⟨hat, hmin, hrest⟩ := h
      obtain ⟨k, hk, hpos, hread⟩ := pageOf_offset text 0 (hat.trans hzero.symm) hmin
      rw [Nat.zero_add, drop_zero] at hread
      have hnext : (pageOf (encode text) read).nextCursor = offset text k := by rw [hread]
      have hchunk : (pageOf (encode text) read).chunk =
          decodeText (encode (text.take k)) := by rw [hread]
      rw [hnext] at hrest
      obtain ⟨hlater, j, hj, hreached, -, hiff⟩ := pages_offset text (by omega) hrest
      have htext : (read :: reads).flatMap (fun read => (pageOf (encode text) read).chunk) =
            decodeText ((encode text).take (reached (encode text) 0 (read :: reads))) ↔
          ∀ read ∈ reads, ¬ bom <+: (encode text).drop read.cursor := by
        rw [reached_cons, hnext, hreached, take_offset, decodeText_take_add text j
          (fun hne => hpos (length_pos_iff.mpr hne)), flatMap_cons, hchunk,
          append_cancel_left_eq, hiff]
      -- a later read starts past the first page, which is not empty
      have hpast : ∀ r ∈ reads, bom <+: (encode text).drop r.cursor → r.cursor ≠ 0 := by
        intro r hr hbom
        obtain ⟨m, -, hkm, -, -, hcursor, -⟩ := hlater r hr
        have hne : text ≠ [] := by
          rintro rfl
          rw [encode_nil, drop_nil] at hbom
          exact absurd (prefix_nil.mp hbom) (by decide)
        have := offset_pos hne (Nat.lt_of_lt_of_le (hpos (length_pos_iff.mpr hne)) hkm)
        omega
      constructor
      · intro hlossless
        have hno := htext.mp hlossless.text
        exact forall_mem_cons.mpr ⟨absurd hat, fun r hr _ => hno r hr⟩
      · intro hno
        refine ⟨hpage, htext.mpr fun r hr hbom => ?_⟩
        exact hno r (mem_cons_of_mem _ hr) (hpast r hr hbom) hbom

/-- Two characters, read to the end. -/
theorem lossless_iff_short : Lossless ['a', 'b'] [⟨0, 4, true⟩] ↔ ∀ read ∈ [(⟨0, 4, true⟩ : Read)],
      read.cursor ≠ 0 → ¬ bom <+: (encode ['a', 'b']).drop read.cursor :=
  lossless_iff ['a', 'b'] [⟨0, 4, true⟩] ⟨rfl, by decide, trivial⟩

/-- Of five characters, the last a mark, two pages of four bytes hold four. -/
theorem mark_lost : Chained (encode ['a', 'b', 'c', 'd', '\uFEFF']) 0 [⟨0, 4, true⟩, ⟨4, 4, true⟩] ∧
    ¬ Lossless ['a', 'b', 'c', 'd', '\uFEFF'] [⟨0, 4, true⟩, ⟨4, 4, true⟩] := by
  refine ⟨⟨rfl, by decide, by decide, by decide, trivial⟩, fun h => ?_⟩
  exact absurd h.text (by decide)

end Catamorphic.Runner
