import Catamorphic.Lib.JsString

/-!
# Text as the database stores it

A text column refuses the character zero, and a `jsonb` column refuses it and each half of a
surrogate pair without the other. They are replaced before they reach either.
-/

namespace Catamorphic

open Text

/-- `UNSTORABLE_CHARACTER`: a lone surrogate and the character zero are replaced. -/
def storableText : Text → Text
  | [] => []
  | [unit] => [if unit = 0 || isHigh unit || isLow unit then 0xFFFD else unit]
  | unit :: next :: rest =>
    if isHigh unit && isLow next then unit :: next :: storableText rest
    else
      (if unit = 0 || isHigh unit || isLow unit then 0xFFFD else unit) ::
        storableText (next :: rest)

/-- A unit that may be stored: not zero, and no half of a pair. -/
def storableUnit (unit : UInt16) : Bool :=
  !(unit = 0 || isHigh unit || isLow unit)

theorem storableText_cons {unit : UInt16} (h : storableUnit unit) (text : Text) :
    storableText (unit :: text) = unit :: storableText text := by
  simp only [storableUnit, Bool.not_eq_true', Bool.or_eq_false_iff] at h
  obtain ⟨⟨hzero, hhigh⟩, hlow⟩ := h
  cases text with
  | nil | cons next rest => simp [storableText, hzero, hhigh, hlow]

theorem storableUnit_replaced (unit : UInt16) :
    storableUnit (if unit = 0 || isHigh unit || isLow unit then 0xFFFD else unit) := by
  split
  · decide
  · rename_i h
    simpa [storableUnit] using h

theorem storableText_storableText (text : Text) :
    storableText (storableText text) = storableText text := by
  fun_induction storableText text with
  | case1 => rfl
  | case2 unit => rw [storableText_cons (storableUnit_replaced unit), storableText]
  | case3 unit next rest h ih => rw [storableText, if_pos h, ih]
  | case4 unit next rest h ih =>
    rw [storableText_cons (storableUnit_replaced unit), ih]

end Catamorphic
