import Catamorphic.Lib.JsString

/-!
# Characters as code units

A character of the basic plane is one unit, any other a pair of surrogates. Its units say which
character it is, and no unit of a pair is that of a character.
-/

namespace Catamorphic.Text

open List Char

/-- The character lies in the basic plane. -/
abbrev Basic (c : Char) : Prop := c.toNat < 0x10000

/-- The unit of a character in the basic plane. -/
def unitOf (c : Char) : UInt16 := UInt16.ofNat c.toNat

/-- The first unit of a pair. -/
def highOf (c : Char) : UInt16 := UInt16.ofNat (0xD800 + (c.toNat - 0x10000) / 0x400)

/-- The second unit of a pair. -/
def lowOf (c : Char) : UInt16 := UInt16.ofNat (0xDC00 + (c.toNat - 0x10000) % 0x400)

variable {c : Char} {s t : List Char}

theorem ofChars_nil : ofChars [] = [] := rfl

theorem ofChars_append (s t : List Char) : ofChars (s ++ t) = ofChars s ++ ofChars t :=
  flatMap_append

theorem ofChars_cons (c : Char) (s : List Char) : ofChars (c :: s) = ofChars [c] ++ ofChars s :=
  ofChars_append [c] s

theorem ofChars_basic (h : Basic c) (s : List Char) : ofChars (c :: s) = unitOf c :: ofChars s := by
  rw [ofChars_cons, ofChars, flatMap_singleton, if_pos h]
  rfl

theorem ofChars_pair (h : ¬ Basic c) (s : List Char) :
    ofChars (c :: s) = highOf c :: lowOf c :: ofChars s := by
  rw [ofChars_cons, ofChars, flatMap_singleton, if_neg h]
  rfl

/-- A character is below the surrogates or above them. -/
theorem toNat_cases (c : Char) : c.toNat < 0xD800 ∨ 0xE000 ≤ c.toNat ∧ c.toNat < 0x110000 := by
  rcases c.valid with h | ⟨hl, hu⟩
  · exact .inl h
  · exact .inr ⟨hl, hu⟩

theorem toNat_unitOf (h : Basic c) : (unitOf c).toNat = c.toNat :=
  UInt16.toNat_ofNat_of_lt' h

theorem toNat_highOf (h : ¬ Basic c) : (highOf c).toNat = 0xD800 + (c.toNat - 0x10000) / 0x400 := by
  have hc := toNat_cases c
  exact UInt16.toNat_ofNat_of_lt (show _ < 65536 by omega)

theorem toNat_lowOf (h : ¬ Basic c) : (lowOf c).toNat = 0xDC00 + (c.toNat - 0x10000) % 0x400 := by
  exact UInt16.toNat_ofNat_of_lt (show _ < 65536 by omega)

theorem unitOf_plain (h : Basic c) : isHigh (unitOf c) = false ∧ isLow (unitOf c) = false := by
  have hc := toNat_cases c
  simp only [isHigh, isLow, toNat_unitOf h, Bool.and_eq_false_iff, decide_eq_false_iff_not]
  omega

theorem isHigh_highOf (h : ¬ Basic c) : isHigh (highOf c) = true := by
  have hc := toNat_cases c
  simp only [isHigh, toNat_highOf h, Bool.and_eq_true, decide_eq_true_eq]
  omega

theorem isLow_lowOf (h : ¬ Basic c) : isLow (lowOf c) = true := by
  simp only [isLow, toNat_lowOf h, Bool.and_eq_true, decide_eq_true_eq]
  omega

theorem char_unitOf (h : Basic c) : ofNat (unitOf c).toNat = c := by
  rw [toNat_unitOf h, ofNat_toNat]

/-! ## What the units say -/

theorem scalars_plain {u : UInt16} (hhigh : isHigh u = false) (hlow : isLow u = false)
    (rest : Text) : scalars (u :: rest) = .value u.toNat :: scalars rest := by
  cases rest with
  | nil | cons v rest => simp [scalars, hhigh, hlow]

theorem scalars_pair {u v : UInt16} (hhigh : isHigh u = true) (hlow : isLow v = true)
    (rest : Text) : scalars (u :: v :: rest) =
      .value (0x10000 + (u.toNat - 0xD800) * 0x400 + (v.toNat - 0xDC00)) :: scalars rest := by
  simp [scalars, hhigh, hlow]

theorem scalars_ofChars (s : List Char) : scalars (ofChars s) = s.map fun c => .value c.toNat := by
  induction s with
  | nil => rfl
  | cons c s ih =>
    by_cases h : Basic c
    · obtain ⟨hhigh, hlow⟩ := unitOf_plain h
      rw [ofChars_basic h, scalars_plain hhigh hlow, ih, toNat_unitOf h, map_cons]
    · have hbasic : 0x10000 ≤ c.toNat := Nat.le_of_not_lt h
      have hvalue : 0x10000 + ((highOf c).toNat - 0xD800) * 0x400 + ((lowOf c).toNat - 0xDC00) =
          c.toNat := by
        rw [toNat_highOf h, toNat_lowOf h]
        omega
      rw [ofChars_pair h, scalars_pair (isHigh_highOf h) (isLow_lowOf h), ih, map_cons, hvalue]

/-- **Different texts have different units.** -/
theorem ofChars_injective : Function.Injective ofChars := by
  intro s t h
  have hscalars := congrArg scalars h
  rw [scalars_ofChars, scalars_ofChars] at hscalars
  refine map_injective_iff.mpr (fun c d hcd => ?_) hscalars
  exact toNat_inj.mp (Scalar.value.inj hcd)

theorem toNat_ofNat_ascii {n : Nat} (h : n < 0x80) : (ofNat n).toNat = n := by
  rw [ofNat, dif_pos (.inl (Nat.lt_trans h (by decide)))]
  rfl

/-- An ASCII unit is that of a character. -/
theorem mem_ofChars {u : UInt16} (hu : u.toNat < 0x80) : u ∈ ofChars s ↔ ofNat u.toNat ∈ s := by
  induction s with
  | nil => exact iff_of_false not_mem_nil not_mem_nil
  | cons c s ih =>
    by_cases h : Basic c
    · have hunit : u = unitOf c ↔ ofNat u.toNat = c := by
        constructor
        · rintro rfl
          exact char_unitOf h
        · rintro rfl
          rw [unitOf, toNat_ofNat_ascii hu]
          exact (UInt16.ofNat_toNat).symm
      rw [ofChars_basic h, mem_cons, mem_cons, ih, hunit]
    · have hbasic : 0x10000 ≤ c.toNat := Nat.le_of_not_lt h
      have hhigh : u ≠ highOf c := fun heq => by
        have := toNat_highOf h
        rw [← heq] at this
        omega
      have hlow : u ≠ lowOf c := fun heq => by
        have := toNat_lowOf h
        rw [← heq] at this
        omega
      have hchar : ofNat u.toNat ≠ c := fun heq => by
        have hvalue := congrArg toNat heq
        rw [toNat_ofNat_ascii hu] at hvalue
        omega
      rw [ofChars_pair h, mem_cons, mem_cons, mem_cons, ih]
      simp [hhigh, hlow, hchar]

end Catamorphic.Text
