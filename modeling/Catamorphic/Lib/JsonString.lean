import Mathlib.Data.List.Forall2
import Catamorphic.Lib.JsString

/-!
# Reading the body of a JSON string

The body is a sequence of codes, each for one unit: the unit itself or an escape. A code is read
as its unit whatever follows it, and none begins as the closing quote does, so a body followed by
a quote has one reading.
-/

namespace Catamorphic.Text

open List

/-- What `jsonBody` writes for a scalar value. -/
def jsonPiece : Scalar → Text
  | .lone u => ofString "\\u" ++ hex4 u.toNat
  | .value n =>
    if n = 0x22 then ofString "\\\""
    else if n = 0x5C then ofString "\\\\"
    else if n = 0x08 then ofString "\\b"
    else if n = 0x09 then ofString "\\t"
    else if n = 0x0A then ofString "\\n"
    else if n = 0x0C then ofString "\\f"
    else if n = 0x0D then ofString "\\r"
    else if n < 0x20 then ofString "\\u" ++ hex4 n
    else if n < 0x10000 then [UInt16.ofNat n]
    else [UInt16.ofNat (0xD800 + (n - 0x10000) / 0x400),
      UInt16.ofNat (0xDC00 + (n - 0x10000) % 0x400)]

theorem jsonBody_eq (t : Text) : jsonBody t = (scalars t).flatMap jsonPiece := rfl

/-! ## Reading -/

def unhexDigit (u : UInt16) : Option Nat :=
  if 0x30 ≤ u && u ≤ 0x39 then some (u.toNat - 0x30)
  else if 0x61 ≤ u && u ≤ 0x66 then some (u.toNat - 0x57)
  else if 0x41 ≤ u && u ≤ 0x46 then some (u.toNat - 0x37)
  else none

def unhex4 (a b c d : UInt16) : Option UInt16 := do
  let a ← unhexDigit a
  let b ← unhexDigit b
  let c ← unhexDigit c
  let d ← unhexDigit d
  return UInt16.ofNat (((a * 16 + b) * 16 + c) * 16 + d)

/-- The unit that a letter after a backslash stands for. -/
def unescape (letter : UInt16) : Option UInt16 :=
  if letter = 0x22 || letter = 0x5C || letter = 0x2F then some letter
  else if letter = 0x62 then some 0x08
  else if letter = 0x66 then some 0x0C
  else if letter = 0x6E then some 0x0A
  else if letter = 0x72 then some 0x0D
  else if letter = 0x74 then some 0x09
  else none

def readEscape : Text → Option (UInt16 × Text)
  | [] => none
  | letter :: rest =>
    if letter = 0x75 then
      match rest with
      | a :: b :: c :: d :: rest => (unhex4 a b c d).map (·, rest)
      | _ => none
    else (unescape letter).map (·, rest)

/-- One unit of a body, and what follows it. -/
def readUnit : Text → Option (UInt16 × Text)
  | [] => none
  | unit :: rest =>
    if unit = 0x5C then readEscape rest
    else if unit < 0x20 then none
    else some (unit, rest)

/-- A body up to its closing quote, and what follows the quote. -/
def readBody : Nat → Text → Option (Text × Text)
  | 0, _ => none
  | fuel + 1, text =>
    if text.head? = some 0x22 then some ([], text.tail)
    else (readUnit text).bind fun (unit, rest) =>
      (readBody fuel rest).map fun (units, rest) => (unit :: units, rest)

/-! ## Codes -/

/-- The text is read as the unit, whatever follows. -/
structure CodeOf (unit : UInt16) (code : Text) : Prop where
  read : ∀ rest, readUnit (code ++ rest) = some (unit, rest)
  opening : ∀ rest, (code ++ rest).head? ≠ some 0x22

/-- A text whose units the body has codes for. -/
def Coded (t body : Text) : Prop := ∃ codes, List.Forall₂ CodeOf t codes ∧ body = codes.flatten

theorem Coded.nil : Coded [] [] := ⟨[], .nil, rfl⟩

theorem Coded.cons {unit : UInt16} {code t body : Text} (hcode : CodeOf unit code)
    (h : Coded t body) : Coded (unit :: t) (code ++ body) := by
  obtain ⟨codes, hcodes, rfl⟩ := h
  exact ⟨code :: codes, .cons hcode hcodes, rfl⟩

theorem Coded.length_le {t body : Text} (h : Coded t body) : t.length ≤ body.length := by
  obtain ⟨codes, hcodes, rfl⟩ := h
  induction hcodes with
  | nil => exact Nat.le_refl _
  | @cons unit code t codes hcode _ ih =>
    have hne : code ≠ [] := by
      rintro rfl
      exact hcode.opening [0x22] rfl
    have hpos := length_pos_iff.mpr hne
    rw [length_cons, flatten_cons, length_append]
    omega

/-- A coded text is read back. -/
theorem Coded.readBody {t body : Text} (h : Coded t body) {fuel : Nat} (hfuel : t.length < fuel)
    (rest : Text) : readBody fuel (body ++ 0x22 :: rest) = some (t, rest) := by
  obtain ⟨codes, hcodes, rfl⟩ := h
  induction hcodes generalizing fuel with
  | nil =>
    obtain ⟨fuel, rfl⟩ := Nat.exists_eq_add_one_of_ne_zero (Nat.ne_of_gt hfuel)
    rfl
  | @cons unit code t codes hcode _ ih =>
    obtain ⟨fuel, rfl⟩ :=
      Nat.exists_eq_add_one_of_ne_zero (Nat.ne_of_gt (Nat.zero_lt_of_lt hfuel))
    rw [Text.readBody, flatten_cons, append_assoc, if_neg (hcode.opening _),
      hcode.read, Option.bind_some]
    dsimp only
    rw [ih (Nat.lt_of_succ_lt_succ hfuel), Option.map_some]

theorem unhexDigit_digit {i : Nat} (h : i < 16) :
    unhexDigit (digit "0123456789abcdef" i) = some i := by
  have hall : ∀ i : Fin 16, unhexDigit (digit "0123456789abcdef" i) = some i.val := by decide
  exact hall ⟨i, h⟩

/-- An escape by the unit's number. -/
theorem codeOf_hex (unit : UInt16) : CodeOf unit (ofString "\\u" ++ hex4 unit.toNat) where
  read rest := by
    have hlt : unit.toNat < 0x10000 := unit.toNat_lt
    have hunhex : unhex4 (digit "0123456789abcdef" (unit.toNat / 0x1000 % 16))
        (digit "0123456789abcdef" (unit.toNat / 0x100 % 16))
        (digit "0123456789abcdef" (unit.toNat / 0x10 % 16))
        (digit "0123456789abcdef" (unit.toNat % 16)) = some unit := by
      rw [unhex4, unhexDigit_digit (by omega), unhexDigit_digit (by omega),
        unhexDigit_digit (by omega), unhexDigit_digit (by omega)]
      have hdigits : ((unit.toNat / 0x1000 % 16 * 16 + unit.toNat / 0x100 % 16) * 16 +
          unit.toNat / 0x10 % 16) * 16 + unit.toNat % 16 = unit.toNat := by
        omega
      simp only [Option.bind_eq_bind, Option.bind_some, Option.pure_def, hdigits,
        UInt16.ofNat_toNat]
    simp [ofString, hex4, readUnit, readEscape, hunhex]
  opening rest := by
    simp [ofString]

/-- A unit that is neither a quote, a backslash nor a control character. -/
theorem codeOf_self {unit : UInt16} (hquote : unit ≠ 0x22) (hbackslash : unit ≠ 0x5C)
    (hcontrol : ¬unit < 0x20) : CodeOf unit [unit] where
  read rest := by simp [readUnit, hbackslash, hcontrol]
  opening rest := by simpa using hquote

/-- An escape by a letter. -/
theorem codeOf_letter {unit letter : UInt16} (hletter : letter ≠ 0x75)
    (h : unescape letter = some unit) : CodeOf unit [0x5C, letter] where
  read rest := by simp [readUnit, readEscape, hletter, h]
  opening rest := by simp

/-- What is written for a unit that is no half of a pair. -/
theorem codeOf_value (unit : UInt16) : CodeOf unit (jsonPiece (.value unit.toNat)) := by
  have hletter : ∀ {number : Nat} (letter : UInt16), unit.toNat = number → letter ≠ 0x75 →
      unescape letter = some (UInt16.ofNat number) → CodeOf unit [0x5C, letter] := by
    intro number letter hunit hne hread
    refine codeOf_letter hne ?_
    rw [hread, ← hunit, UInt16.ofNat_toNat]
  rw [jsonPiece]
  split
  · rename_i h
    exact hletter 0x22 h (by decide) (by decide)
  · rename_i hquote
    split
    · rename_i h
      exact hletter 0x5C h (by decide) (by decide)
    · rename_i hbackslash
      split
      · rename_i h
        exact hletter 0x62 h (by decide) (by decide)
      · split
        · rename_i h
          exact hletter 0x74 h (by decide) (by decide)
        · split
          · rename_i h
            exact hletter 0x6E h (by decide) (by decide)
          · split
            · rename_i h
              exact hletter 0x66 h (by decide) (by decide)
            · split
              · rename_i h
                exact hletter 0x72 h (by decide) (by decide)
              · split
                · exact codeOf_hex unit
                · rename_i hcontrol
                  rw [if_pos unit.toNat_lt, UInt16.ofNat_toNat]
                  refine codeOf_self (fun h => hquote (h ▸ rfl)) (fun h => hbackslash (h ▸ rfl)) ?_
                  intro hlt
                  exact hcontrol (UInt16.lt_iff_toNat_lt.mp hlt)

/-- What is written for a unit without the other half of its pair. -/
def unitScalar (unit : UInt16) : Scalar :=
  if isHigh unit || isLow unit then .lone unit else .value unit.toNat

theorem codeOf_unitScalar (unit : UInt16) : CodeOf unit (jsonPiece (unitScalar unit)) := by
  rw [unitScalar]
  split
  · exact codeOf_hex unit
  · exact codeOf_value unit

/-- A half of a pair stands for itself. -/
theorem codeOf_half {unit : UInt16} (h : isHigh unit ∨ isLow unit) : CodeOf unit [unit] := by
  have hlarge : 0xD800 ≤ unit.toNat := by
    rcases h with h | h
    · simp only [isHigh, Bool.and_eq_true, decide_eq_true_eq] at h
      exact h.1
    · simp only [isLow, Bool.and_eq_true, decide_eq_true_eq] at h
      omega
  refine codeOf_self ?_ ?_ ?_
  · rintro rfl
    revert hlarge
    decide
  · rintro rfl
    revert hlarge
    decide
  · intro hlt
    have hsmall : unit.toNat < 0x20 := UInt16.lt_iff_toNat_lt.mp hlt
    omega

/-- A pair is written as it is. -/
theorem jsonPiece_pair {high low : UInt16} (hhigh : isHigh high) (hlow : isLow low) :
    jsonPiece (.value (0x10000 + (high.toNat - 0xD800) * 0x400 + (low.toNat - 0xDC00))) =
      [high, low] := by
  simp only [isHigh, Bool.and_eq_true, decide_eq_true_eq] at hhigh
  simp only [isLow, Bool.and_eq_true, decide_eq_true_eq] at hlow
  have hfirst : 0xD800 + (0x10000 + (high.toNat - 0xD800) * 0x400 + (low.toNat - 0xDC00) -
      0x10000) / 0x400 = high.toNat := by
    omega
  have hsecond : 0xDC00 + (0x10000 + (high.toNat - 0xD800) * 0x400 + (low.toNat - 0xDC00) -
      0x10000) % 0x400 = low.toNat := by
    omega
  rw [jsonPiece, if_neg (by omega), if_neg (by omega), if_neg (by omega), if_neg (by omega),
    if_neg (by omega), if_neg (by omega), if_neg (by omega), if_neg (by omega),
    if_neg (by omega), hfirst, hsecond, UInt16.ofNat_toNat, UInt16.ofNat_toNat]

/-- **The body of a text is read as the text.** -/
theorem coded_jsonBody (t : Text) : Coded t (jsonBody t) := by
  rw [jsonBody_eq]
  fun_induction scalars t with
  | case1 => exact .nil
  | case2 unit => exact .cons (codeOf_unitScalar unit) .nil
  | case3 high low rest h ih =>
    rw [Bool.and_eq_true] at h
    rw [flatMap_cons, jsonPiece_pair h.1 h.2]
    show Coded (high :: low :: rest) ([high] ++ ([low] ++ (scalars rest).flatMap jsonPiece))
    exact .cons (codeOf_half (.inl h.1)) (.cons (codeOf_half (.inr h.2)) ih)
  | case4 unit next rest _ ih => exact .cons (codeOf_unitScalar unit) ih

end Catamorphic.Text
