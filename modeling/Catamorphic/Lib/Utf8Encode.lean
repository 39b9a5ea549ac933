import Catamorphic.Lib.Utf8

/-!
# Encoding UTF-8 as `TextEncoder` does

A text that was encoded is read back by the decoder as itself, whatever bytes follow. The
other way holds for ASCII only: where the decoder writes ASCII characters it read exactly
their bytes, while U+FFFD may stand for bytes no text is encoded as.
-/

namespace Catamorphic.Utf8

open List Lines Char

/-- `new TextEncoder().encode(text)` -/
def encode (text : List Char) : List UInt8 := text.flatMap String.utf8EncodeChar

@[simp] theorem encode_nil : encode [] = [] := rfl

@[simp] theorem encode_cons (c : Char) (t : List Char) :
    encode (c :: t) = String.utf8EncodeChar c ++ encode t := rfl

@[simp] theorem encode_append (s t : List Char) : encode (s ++ t) = encode s ++ encode t := by
  simp [encode]

variable {c : Char}

theorem encodeChar_ascii (h : c.toNat < 0x80) :
    String.utf8EncodeChar c = [UInt8.ofNat c.toNat] := by
  have hle : c.val.toNat ≤ 0x7F := Nat.le_of_lt_succ h
  simp only [String.utf8EncodeChar, if_pos hle]
  rfl

variable {b : UInt8}

theorem startByte_ascii (h : b.toNat < 0x80) : startByte b = ([ofNat b.toNat], .start) := by
  simp only [startByte, if_pos (Nat.le_of_lt_succ h)]

/-- The first byte of a character of two, three or four bytes. -/
theorem startByte_two (hl : 0xC2 ≤ b.toNat) (hu : b.toNat ≤ 0xDF) :
    startByte b = ([], .more 0 (b.toNat % 0x20) 0x80 0xBF) := by
  simp only [startByte]
  rw [if_neg (by omega), if_neg (by omega), if_pos hu]

theorem startByte_three (hl : 0xE0 ≤ b.toNat) (hu : b.toNat ≤ 0xEF) :
    startByte b = ([], .more 1 (b.toNat % 0x10) (if b.toNat = 0xE0 then 0xA0 else 0x80)
      (if b.toNat = 0xED then 0x9F else 0xBF)) := by
  simp only [startByte]
  rw [if_neg (by omega), if_neg (by omega), if_neg (by omega)]
  by_cases h0 : b.toNat = 0xE0
  · simp [h0]
  · by_cases hd : b.toNat = 0xED
    · simp [hd]
    · simp [h0, hd, hu]

theorem startByte_four (hl : 0xF0 ≤ b.toNat) (hu : b.toNat ≤ 0xF4) :
    startByte b = ([], .more 2 (b.toNat % 0x08) (if b.toNat = 0xF0 then 0x90 else 0x80)
      (if b.toNat = 0xF4 then 0x8F else 0xBF)) := by
  simp only [startByte]
  rw [if_neg (by omega), if_neg (by omega), if_neg (by omega), if_neg (by omega),
    if_neg (by omega), if_neg (by omega)]
  by_cases h0 : b.toNat = 0xF0
  · simp [h0]
  · by_cases h4 : b.toNat = 0xF4
    · simp [h4]
    · rw [if_neg h0, if_pos (by omega), if_neg h0, if_neg h4]

theorem decode_cons_ascii (h : b.toNat < 0x80) (s : List UInt8) :
    decode (b :: s) = ofNat b.toNat :: decode s := by
  simp [decode, decodeFrom, byte, startByte_ascii h]

variable {bits lower upper : Nat} {owed : Nat}

theorem decodeFrom_last (h : lower ≤ b.toNat ∧ b.toNat ≤ upper) (s : List UInt8) :
    decodeFrom (.more 0 bits lower upper) (b :: s) =
      ofNat (bits * 0x40 + b.toNat % 0x40) :: decode s := by
  simp [decodeFrom, byte, if_pos h, decode]

theorem decodeFrom_owed (h : lower ≤ b.toNat ∧ b.toNat ≤ upper) (s : List UInt8) :
    decodeFrom (.more (owed + 1) bits lower upper) (b :: s) =
      decodeFrom (.more owed (bits * 0x40 + b.toNat % 0x40) 0x80 0xBF) s := by
  simp [decodeFrom, byte, if_pos h]

theorem toNat_ofNat_byte {n : Nat} (h : n < 0x100) : (UInt8.ofNat n).toNat = n := by
  simp [Nat.mod_eq_of_lt h]

/-- **The bytes of one character are read as that character.** -/
theorem decode_encodeChar (c : Char) (s : List UInt8) :
    decode (String.utf8EncodeChar c ++ s) = c :: decode s := by
  have hvalid : c.val.toNat < 0xD800 ∨ (0xDFFF < c.val.toNat ∧ c.val.toNat < 0x110000) := c.valid
  have hof : ofNat c.val.toNat = c := ofNat_toNat c
  simp only [String.utf8EncodeChar]
  generalize c.val.toNat = v at hvalid hof
  by_cases h1 : v ≤ 0x7F
  · have hb := @toNat_ofNat_byte v (by omega)
    rw [if_pos h1, singleton_append, decode_cons_ascii (by omega), hb, hof]
  rw [if_neg h1]
  have hd := @toNat_ofNat_byte (v % 0x40 + 0x80) (by omega)
  by_cases h2 : v ≤ 0x7FF
  · have hb := @toNat_ofNat_byte (v / 64 % 0x20 + 0xC0) (by omega)
    rw [if_pos h2, cons_append, decode, decodeFrom, byte, startByte_two (by omega) (by omega),
      nil_append, cons_append, nil_append, decodeFrom_last (by omega), hb, hd]
    rw [show (v / 64 % 0x20 + 0xC0) % 0x20 * 0x40 + (v % 0x40 + 0x80) % 0x40 = v by omega, hof]
  rw [if_neg h2]
  have hc := @toNat_ofNat_byte (v / 64 % 0x40 + 0x80) (by omega)
  by_cases h3 : v ≤ 0xFFFF
  · have hb := @toNat_ofNat_byte (v / 4096 % 0x10 + 0xE0) (by omega)
    rw [if_pos h3, cons_append, decode, decodeFrom, byte,
      startByte_three (by omega) (by omega), nil_append, cons_append, decodeFrom_owed,
      cons_append, nil_append, decodeFrom_last (by omega), hb, hc, hd]
    · rw [show ((v / 4096 % 0x10 + 0xE0) % 0x10 * 0x40 + (v / 64 % 0x40 + 0x80) % 0x40) * 0x40 +
        (v % 0x40 + 0x80) % 0x40 = v by omega, hof]
    · rw [hb, hc]
      constructor <;> split <;> omega
  rw [if_neg h3]
  have ha := @toNat_ofNat_byte (v / 4096 % 0x40 + 0x80) (by omega)
  have hb := @toNat_ofNat_byte (v / 262144 % 0x08 + 0xF0) (by omega)
  rw [cons_append, decode, decodeFrom, byte,
    startByte_four (by omega) (by omega), nil_append, cons_append, decodeFrom_owed,
    cons_append, decodeFrom_owed (by omega), cons_append, nil_append,
    decodeFrom_last (by omega), hb, ha, hc, hd]
  · rw [show (((v / 262144 % 0x08 + 0xF0) % 0x08 * 0x40 + (v / 4096 % 0x40 + 0x80) % 0x40) * 0x40 +
      (v / 64 % 0x40 + 0x80) % 0x40) * 0x40 + (v % 0x40 + 0x80) % 0x40 = v by omega, hof]
  · rw [hb, ha]
    constructor <;> split <;> omega

/-- **What a text is written as is read as the text**, whatever follows. -/
theorem decode_encode_append (t : List Char) (s : List UInt8) :
    decode (encode t ++ s) = t ++ decode s := by
  induction t with
  | nil => rfl
  | cons c t ih => rw [encode_cons, append_assoc, decode_encodeChar, ih, cons_append]

theorem decode_encode (t : List Char) : decode (encode t) = t := by
  have h := decode_encode_append t []
  rwa [append_nil, decode_eq_nil.mpr rfl, append_nil] at h

/-- An ASCII byte stands in a character's bytes only as that character. -/
theorem mem_encodeChar (hb : b.toNat < 0x80) (h : b ∈ String.utf8EncodeChar c) :
    c = ofNat b.toNat := by
  have hof : ofNat c.val.toNat = c := ofNat_toNat c
  simp only [String.utf8EncodeChar] at h
  split at h
  · rw [mem_singleton.mp h, toNat_ofNat_byte (by omega), hof]
  · have high : ∀ {n}, n < 0x100 → 0x80 ≤ n → b ≠ UInt8.ofNat n := by
      intro n hn hle heq
      rw [heq, toNat_ofNat_byte hn] at hb
      omega
    split at h
    · rcases mem_pair.mp h with h | h <;> exact absurd h (high (by omega) (by omega))
    split at h <;> simp only [mem_cons, not_mem_nil, or_false] at h
    · rcases h with h | h | h <;> exact absurd h (high (by omega) (by omega))
    · rcases h with h | h | h | h <;> exact absurd h (high (by omega) (by omega))

/-! ## ASCII in what was decoded -/

/-- The decoder is between characters, or inside one that can only be a character beyond
ASCII. -/
def Proper : State → Prop
  | .start => True
  | .more owed bits lower upper => 0x80 ≤ lower ∧ upper < 0xC0 ∧
      ∀ v, (bits * 0x40 + (lower - 0x80)) * 0x40 ^ owed ≤ v →
        v < (bits * 0x40 + (upper - 0x80) + 1) * 0x40 ^ owed → 0x80 ≤ v ∧ v.isValidChar

/-- A byte that starts no character of one byte starts a longer one, or is no start. -/
theorem startByte_high (hb : 0x80 ≤ b.toNat) : startByte b = ([replacement], .start) ∨
      ∃ owed bits lower upper, startByte b = ([], .more owed bits lower upper) ∧
        Proper (.more owed bits lower upper) := by
  by_cases h2 : 0xC2 ≤ b.toNat ∧ b.toNat ≤ 0xDF
  · refine .inr ⟨_, _, _, _, startByte_two h2.1 h2.2, Nat.le_refl _, by omega, fun v hl hu => ?_⟩
    omega
  by_cases h3 : 0xE0 ≤ b.toNat ∧ b.toNat ≤ 0xEF
  · refine .inr ⟨_, _, _, _, startByte_three h3.1 h3.2, by split <;> omega, by split <;> omega,
      fun v hl hu => ?_⟩
    split at hl <;> split at hu <;> omega
  by_cases h4 : 0xF0 ≤ b.toNat ∧ b.toNat ≤ 0xF4
  · refine .inr ⟨_, _, _, _, startByte_four h4.1 h4.2, by split <;> omega, by split <;> omega,
      fun v hl hu => ?_⟩
    split at hl <;> split at hu <;> omega
  · left
    simp only [startByte]
    repeat' split
    all_goals first | rfl | omega

theorem startByte_proper (b : UInt8) : Proper (startByte b).2 := by
  by_cases hb : b.toNat < 0x80
  · rw [startByte_ascii hb]
    trivial
  · rcases startByte_high (Nat.le_of_not_lt hb) with h | ⟨owed, bits, lower, upper, h, hproper⟩
    · rw [h]
      trivial
    · rw [h]
      exact hproper

theorem byte_proper {st : State} (h : Proper st) (b : UInt8) : Proper (byte st b).2 := by
  cases st with
  | start => exact startByte_proper b
  | more owed bits lower upper =>
    by_cases hin : lower ≤ b.toNat ∧ b.toNat ≤ upper
    · cases owed with
      | zero =>
        simp only [byte, if_pos hin]
        trivial
      | succ owed =>
        obtain ⟨hlow, hup, hall⟩ := h
        simp only [byte, if_pos hin]
        refine ⟨Nat.le_refl _, by omega, fun v hl hu => hall v ?_ ?_⟩
        · refine Nat.le_trans ?_ hl
          rw [Nat.pow_succ', ← Nat.mul_assoc]
          exact Nat.mul_le_mul_right _ (by omega)
        · refine Nat.lt_of_lt_of_le hu ?_
          rw [Nat.pow_succ', ← Nat.mul_assoc]
          exact Nat.mul_le_mul_right _ (by omega)
    · simp only [byte, if_neg hin]
      exact startByte_proper b

/-- Inside a character, what is written next is no ASCII character. -/
theorem head_of_more (h : Proper (.more owed bits lower upper)) (s : List UInt8) :
    ∃ c t, decodeFrom (.more owed bits lower upper) s = c :: t ∧ 0x80 ≤ c.toNat := by
  induction s generalizing owed bits lower upper with
  | nil => exact ⟨replacement, [], rfl, by decide⟩
  | cons b s ih =>
    by_cases hin : lower ≤ b.toNat ∧ b.toNat ≤ upper
    · have hnext := byte_proper h b
      cases owed with
      | zero =>
        obtain ⟨hlow, hup, hall⟩ := h
        obtain ⟨hle, hvalid⟩ := hall (bits * 0x40 + b.toNat % 0x40) (by omega) (by omega)
        refine ⟨_, _, decodeFrom_last hin s, ?_⟩
        rw [ofNat, dif_pos hvalid]
        exact hle
      | succ owed =>
        simp only [byte, if_pos hin] at hnext
        rw [decodeFrom_owed hin]
        exact ih hnext
    · refine ⟨replacement, (startByte b).1 ++ decodeFrom (startByte b).2 s, ?_, by decide⟩
      simp only [decodeFrom, byte, if_neg hin, cons_append]

variable {t : List Char} {s : List UInt8}

/-- **An ASCII character at the front was one byte.** -/
theorem decode_eq_cons (hc : c.toNat < 0x80) (h : decode s = c :: t) :
    ∃ s', s = UInt8.ofNat c.toNat :: s' ∧ decode s' = t := by
  cases s with
  | nil => exact absurd h (by simp [decode, decodeFrom, finish])
  | cons b s =>
    by_cases hb : b.toNat < 0x80
    · rw [decode_cons_ascii hb] at h
      obtain ⟨hchar, ht⟩ := List.cons.inj h
      have hval : b.toNat.isValidChar := by
        omega
      refine ⟨s, ?_, ht⟩
      rw [← hchar, ofNat, dif_pos hval]
      exact congrArg (· :: s) UInt8.ofNat_toNat.symm
    · exfalso
      rw [decode, decodeFrom, byte] at h
      rcases startByte_high (Nat.le_of_not_lt hb) with hs
        | ⟨owed, bits, lower, upper, hs, hproper⟩
      · rw [hs] at h
        rw [← (List.cons.inj h).1] at hc
        exact absurd hc (by decide)
      · obtain ⟨d, u, hd, hle⟩ := head_of_more hproper s
        rw [hs, nil_append, hd] at h
        rw [← (List.cons.inj h).1] at hc
        omega

/-- **ASCII text at the front was written as itself.** -/
theorem decode_eq_append {u : List Char} (ht : ∀ c ∈ t, c.toNat < 0x80)
    (h : decode s = t ++ u) : ∃ s', s = encode t ++ s' ∧ decode s' = u := by
  induction t generalizing s with
  | nil => exact ⟨s, rfl, h⟩
  | cons c t ih =>
    obtain ⟨s₁, rfl, h₁⟩ := decode_eq_cons (ht c mem_cons_self) h
    obtain ⟨s₂, rfl, h₂⟩ := ih (forall_mem_cons.mp ht).2 h₁
    refine ⟨s₂, ?_, h₂⟩
    rw [encode_cons, encodeChar_ascii (ht c mem_cons_self)]
    rfl

/-- Chomping a text chomps its bytes. -/
theorem chomp_encode (t : List Char) : chomp newline (encode t) = encode (chomp '\n' t) := by
  rcases chomp_cases '\n' t with h | h
  · rw [h]
    refine chomp_of_getLast (fun hlast => ?_)
    obtain ⟨u, c, rfl⟩ : ∃ u c, t = u ++ [c] := by
      rcases eq_nil_or_concat t with rfl | ⟨u, c, rfl⟩
      · simp at hlast
      · exact ⟨u, c, concat_eq_append⟩
    have hmem : newline ∈ String.utf8EncodeChar c := by
      rw [encode_append, encode_cons, encode_nil, append_nil,
        List.getLast?_append_of_ne_nil _ String.utf8EncodeChar_ne_nil] at hlast
      exact mem_of_getLast? hlast
    have hc : c = '\n' := mem_encodeChar (by decide) hmem
    subst hc
    rw [chomp_append_newline] at h
    simpa using congrArg List.length h
  · conv_lhs => rw [h]
    rw [encode_append]
    exact chomp_append_newline _

/-! ## Lines -/

theorem newline_not_mem_encode (h : '\n' ∉ t) : newline ∉ encode t := by
  intro hmem
  obtain ⟨c, hc, hb⟩ := mem_flatMap.mp hmem
  exact h (mem_encodeChar (by decide) hb ▸ hc)

theorem encode_join (ls : List (List Char)) :
    encode (join '\n' ls) = join newline (ls.map encode) := by
  induction ls with
  | nil => rfl
  | cons l ls ih =>
    rw [join_cons, encode_append, encode_cons, ih, map_cons, join_cons]
    rfl

/-- **A text's lines are written one by one.** -/
theorem pieces_encode (t : List Char) : pieces newline (encode t) = (pieces '\n' t).map encode := by
  have hsplit : split newline (encode t) =
      ((lines '\n' t).map encode, encode (rest '\n' t)) := by
    conv_lhs => rw [← join_split '\n' t, encode_append, encode_join]
    refine split_join ?_ (newline_not_mem_encode (not_mem_rest t))
    intro written hwritten
    obtain ⟨l, hl, rfl⟩ := mem_map.mp hwritten
    exact newline_not_mem_encode (not_mem_lines t l hl)
  have hrest : encode (rest '\n' t) = [] ↔ rest '\n' t = [] := by
    rw [← decode_eq_nil, decode_encode]
  rw [pieces, lines, rest, hsplit, pieces, map_append, map_map, map_map]
  congr 1
  · refine map_congr_left fun l _ => ?_
    rw [Function.comp_apply, Function.comp_apply, encode_append]
    rfl
  · by_cases h : rest '\n' t = []
    · rw [if_pos (hrest.mpr h), if_pos h, map_nil]
    · rw [if_neg (fun he => h (hrest.mp he)), if_neg h, map_singleton]

/-! ## Bytes that are read and written back -/

/-- The bytes of a text without a byte-order mark. -/
def Plain (bytes : List UInt8) : Prop :=
  ∃ text : List Char, text.head? ≠ some '\uFEFF' ∧ bytes = encode text

theorem decodeText_encode (h : t.head? ≠ some '\uFEFF') : decodeText (encode t) = t := by
  rw [decodeText_eq, decode_encode]
  rintro ⟨s, hs⟩
  have hbom : bom = encode ['\uFEFF'] := by decide
  have htext := congrArg decode hs
  rw [hbom, decode_encode_append, decode_encode] at htext
  exact h (htext ▸ rfl)

/-- **What is written back as it was read** are the bytes of a text without a mark. -/
theorem encode_decodeText_iff {bytes : List UInt8} :
    encode (decodeText bytes) = bytes ↔ Plain bytes := by
  constructor
  · intro h
    refine ⟨decodeText bytes, fun hhead => ?_, h.symm⟩
    obtain ⟨t, ht⟩ := List.head?_eq_some_iff.mp hhead
    have hbom : bytes = bom ++ encode t := by
      rw [← h, ht, encode_cons]
      congr 1
    have hread : decodeText bytes = t := by
      rw [hbom, decodeText, if_pos (List.isPrefixOf_iff_prefix.mpr (prefix_append _ _))]
      exact decode_encode t
    rw [hread] at ht
    simpa using congrArg List.length ht
  · rintro ⟨t, ht, rfl⟩
    rw [decodeText_encode ht]

/-! ## A part of an encoded text -/

/-- The bytes of a character: one that starts it, and as many continuation bytes as it says. -/
theorem encodeChar_shape (c : Char) : ∃ first conts, String.utf8EncodeChar c = first :: conts ∧
    ¬ Continuation first ∧ (∀ b ∈ conts, Continuation b) ∧ charLength first = conts.length + 1 := by
  have hvalid : c.val.toNat < 0xD800 ∨ (0xDFFF < c.val.toNat ∧ c.val.toNat < 0x110000) := c.valid
  have hlow : ∀ {n : Nat}, n < 0x80 → ¬ Continuation (UInt8.ofNat n) ∧
      charLength (UInt8.ofNat n) = 1 := by
    intro n hn
    have hb := @toNat_ofNat_byte n (by omega)
    unfold Continuation charLength
    exact ⟨by omega, by rw [if_neg (by omega), if_neg (by omega), if_neg (by omega)]⟩
  have hcont : ∀ n : Nat, Continuation (UInt8.ofNat (n % 0x40 + 0x80)) := by
    intro n
    unfold Continuation
    rw [toNat_ofNat_byte (by omega)]
    omega
  have hhigh : ∀ {n : Nat}, 0xC0 ≤ n → n < 0x100 → ¬ Continuation (UInt8.ofNat n) ∧
      charLength (UInt8.ofNat n) = if 0xF0 ≤ n then 4 else if 0xE0 ≤ n then 3 else 2 := by
    intro n hle hlt
    unfold Continuation charLength
    rw [toNat_ofNat_byte hlt, if_pos hle]
    exact ⟨by omega, rfl⟩
  simp only [String.utf8EncodeChar]
  generalize c.val.toNat = v at hvalid
  split
  · obtain ⟨hfirst, hlength⟩ := @hlow v (by omega)
    exact ⟨_, [], rfl, hfirst, fun b hb => absurd hb not_mem_nil, hlength⟩
  · split
    · obtain ⟨hfirst, hlength⟩ := @hhigh (v / 64 % 0x20 + 0xC0) (by omega) (by omega)
      rw [if_neg (by omega), if_neg (by omega)] at hlength
      refine ⟨_, _, rfl, hfirst, ?_, hlength⟩
      exact forall_mem_singleton.mpr (hcont v)
    · split
      · obtain ⟨hfirst, hlength⟩ := @hhigh (v / 4096 % 0x10 + 0xE0) (by omega) (by omega)
        rw [if_neg (by omega), if_pos (by omega)] at hlength
        refine ⟨_, _, rfl, hfirst, forall_mem_cons.mpr ⟨hcont (v / 64), ?_⟩, hlength⟩
        exact forall_mem_singleton.mpr (hcont v)
      · obtain ⟨hfirst, hlength⟩ := @hhigh (v / 262144 % 0x08 + 0xF0) (by omega) (by omega)
        refine ⟨_, _, rfl, hfirst, forall_mem_cons.mpr ⟨hcont (v / 4096), ?_⟩, hlength⟩
        exact forall_mem_cons.mpr ⟨hcont (v / 64), forall_mem_singleton.mpr (hcont v)⟩

/-- A part of an encoded text is whole characters, and the start of one more. -/
theorem take_encode (t : List Char) (n : Nat) : ∃ k part,
    (encode t).take n = encode (t.take k) ++ part ∧ k ≤ t.length ∧
      (part = [] ∨ ∃ c rest, t.drop k = c :: rest ∧ part ≠ [] ∧
        part <+: String.utf8EncodeChar c ∧ part.length < (String.utf8EncodeChar c).length) := by
  induction t generalizing n with
  | nil => exact ⟨0, [], by simp, Nat.le_refl _, .inl rfl⟩
  | cons c t ih =>
    rw [encode_cons]
    by_cases hn : n < (String.utf8EncodeChar c).length
    · refine ⟨0, (String.utf8EncodeChar c).take n, ?_, Nat.zero_le _, ?_⟩
      · rw [take_append_of_le_length (Nat.le_of_lt hn)]
        rfl
      · by_cases hzero : n = 0
        · exact .inl (by rw [hzero, take_zero])
        · refine .inr ⟨c, t, rfl, fun hnil => ?_, take_prefix _ _, ?_⟩
          · have hlength := congrArg List.length hnil
            rw [length_take, length_nil] at hlength
            omega
          · rw [length_take]
            omega
    · obtain ⟨k, part, htake, hk, hpart⟩ := ih (n - (String.utf8EncodeChar c).length)
      refine ⟨k + 1, part, ?_, Nat.succ_le_succ hk, hpart⟩
      rw [take_append, take_of_length_le (Nat.le_of_not_lt hn), htake,
        take_succ_cons, encode_cons, append_assoc]

theorem head_encode (h : (encode t).head? = some b) : ¬ Continuation b := by
  cases t with
  | nil => cases h
  | cons c t =>
    obtain ⟨first, conts, hshape, hfirst, -⟩ := encodeChar_shape c
    rw [encode_cons, hshape] at h
    cases h
    exact hfirst

/-- What `TextDecoder` makes of a text: a mark at its start is left out. -/
theorem decodeText_encode_eq (t : List Char) :
    decodeText (encode t) = if t.head? = some '\uFEFF' then t.tail else t := by
  split
  · next h =>
    obtain ⟨rest, rfl⟩ := List.head?_eq_some_iff.mp h
    exact decode_encode rest
  · next h => exact decodeText_encode h

theorem bom_prefix_encode : bom <+: encode t ↔ t.head? = some '\uFEFF' := by
  constructor
  · rintro ⟨s, hs⟩
    have hbom : bom = encode ['\uFEFF'] := by decide
    have htext := congrArg decode hs
    rw [hbom, decode_encode_append, decode_encode] at htext
    exact htext ▸ rfl
  · intro h
    obtain ⟨rest, rfl⟩ := List.head?_eq_some_iff.mp h
    exact ⟨encode rest, by rw [encode_cons]; congr 1⟩

end Catamorphic.Utf8
