import Catamorphic.Lib.JsString

/-!
# Regular expressions that stand for a whole text

The part of the syntax in which a text with gaps is written: units, escaped where the syntax has
a use for them, and classes of units that are left out, repeated. `^` and `$` stand at the ends,
without the `m` flag.
-/

namespace Catamorphic.RegExp

open List

/-- One unit, or any number of units but some. -/
inductive Term
  | unit (unit : UInt16)
  | noneOf (units : Text)
  deriving DecidableEq

/-- The units that the syntax has a use for. -/
def syntaxUnit (unit : UInt16) : Bool := (Text.ofString "^$\\.*+?()[]\x7b\x7d|").contains unit

/-- Where a reader of the terms stands. -/
inductive Place
  | plain | escaped | opened
  | excluding (units : Text)
  | closed (units : Text)

/-- The terms up to the closing `$`; `none` outside this part of the syntax. -/
def readTerms : Place → Text → Option (List Term)
  | _, [] => none
  | .plain, unit :: rest =>
    if unit = 0x24 then if rest = [] then some [] else none
    else if unit = 0x5C then readTerms .escaped rest
    else if unit = 0x5B then readTerms .opened rest
    else if syntaxUnit unit then none
    else (readTerms .plain rest).map (.unit unit :: ·)
  | .escaped, unit :: rest =>
    if syntaxUnit unit then (readTerms .plain rest).map (.unit unit :: ·) else none
  | .opened, unit :: rest => if unit = 0x5E then readTerms (.excluding []) rest else none
  | .excluding units, unit :: rest =>
    if unit = 0x5D then readTerms (.closed units) rest
    else if unit = 0x5C ∨ unit = 0x2D then none
    else readTerms (.excluding (units ++ [unit])) rest
  | .closed units, unit :: rest =>
    if unit = 0x2A then (readTerms .plain rest).map (.noneOf units :: ·) else none

/-- `new RegExp(source)` -/
def compile : Text → Option (List Term)
  | [] => none
  | unit :: rest => if unit = 0x5E then readTerms .plain rest else none

/-- Units outside of `units` as long as it takes. -/
def skipping (units : Text) (rest : Text → Bool) : Text → Bool
  | [] => rest []
  | unit :: text => rest (unit :: text) || (!units.contains unit && skipping units rest text)

/-- `regexp.test(text)` -/
def test : List Term → Text → Bool
  | [], text => text.isEmpty
  | .unit _ :: _, [] => false
  | .unit unit :: terms, other :: text => unit = other && test terms text
  | .noneOf units :: terms, text => skipping units (test terms) text

theorem skipping_iff {units : Text} {rest : Text → Bool} {text : Text} :
    skipping units rest text = true ↔
      ∃ skipped text', text = skipped ++ text' ∧ (∀ unit ∈ skipped, unit ∉ units) ∧
        rest text' = true := by
  induction text with
  | nil =>
    refine ⟨fun h => ⟨[], [], rfl, nofun, h⟩, ?_⟩
    rintro ⟨skipped, text', heq, -, hrest⟩
    rw [(nil_eq_append_iff.mp heq).2] at hrest
    exact hrest
  | cons unit text ih =>
    rw [skipping, Bool.or_eq_true, Bool.and_eq_true, ih]
    constructor
    · rintro (hrest | ⟨hout, skipped, text', rfl, hskipped, hrest⟩)
      · exact ⟨[], unit :: text, rfl, nofun, hrest⟩
      · refine ⟨unit :: skipped, text', rfl, forall_mem_cons.mpr ⟨?_, hskipped⟩, hrest⟩
        simpa using hout
    · rintro ⟨skipped, text', heq, hskipped, hrest⟩
      cases skipped with
      | nil =>
        exact .inl (heq ▸ hrest)
      | cons other skipped =>
        obtain ⟨rfl, rfl⟩ := cons.inj heq
        obtain ⟨hout, hskipped⟩ := forall_mem_cons.mp hskipped
        exact .inr ⟨by simpa using hout, skipped, text', rfl, hskipped, hrest⟩

/-! ## Texts with gaps -/

theorem readTerms_escaped {unit : UInt16} (h : syntaxUnit unit = true) (rest : Text) :
    readTerms .plain (0x5C :: unit :: rest) = (readTerms .plain rest).map (.unit unit :: ·) := by
  show readTerms .escaped (unit :: rest) = _
  rw [readTerms, if_pos h]

theorem readTerms_plain {unit : UInt16} (h : ¬ syntaxUnit unit = true) (rest : Text) :
    readTerms .plain (unit :: rest) = (readTerms .plain rest).map (.unit unit :: ·) := by
  have hne : ∀ other, syntaxUnit other = true → unit ≠ other := by
    rintro other hother rfl
    exact h hother
  rw [readTerms, if_neg (hne 0x24 (by decide)), if_neg (hne 0x5C (by decide)),
    if_neg (hne 0x5B (by decide)), if_neg h]

/-- `text.split(unit).map(f).join(between)`, for an `f` that goes unit by unit: what is put between
the parts stands where the unit did. -/
theorem intercalate_splitOn (f : UInt16 → Text) (unit : UInt16) (between text : Text) :
    between.intercalate ((text.splitOn unit).map (flatMap f)) =
      text.flatMap fun other => if other = unit then between else f other := by
  induction text with
  | nil => rfl
  | cons other text ih =>
    obtain ⟨part, parts, hparts⟩ := exists_cons_of_ne_nil (splitOn_ne_nil unit text)
    rw [flatMap_cons, ← ih, splitOn_cons_eq_if_modifyHead, hparts]
    by_cases heq : other = unit
    · rw [if_pos (beq_iff_eq.mpr heq), if_pos heq, map_cons, map_cons, intercalate_cons_cons]
      rfl
    · rw [if_neg (fun h => heq (beq_iff_eq.mp h)), if_neg heq, modifyHead_cons, map_cons,
        map_cons, flatMap_cons]
      cases parts with
      | nil => simp
      | cons next parts => simp

end Catamorphic.RegExp
