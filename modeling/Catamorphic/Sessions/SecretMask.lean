import Catamorphic.Lib.JsString
import Catamorphic.Lib.Munch

/-!
# Secret values in a turn's recorded output

Every value a turn's sandbox received is replaced with `[secret NAME]` before the
output enters the session log. Streamed text is held back while its end could still
be the start of a value.

The mask is a search over the registered forms, longest first, so the general facts
about such a search and about cutting its text are those of `Catamorphic.Munch`.
-/

namespace Catamorphic.Sessions

open Munch List Text

/-- Values shorter than this are not masked: they would match ordinary text. -/
def secretMaskMinLength : Nat := 6

/-- One streamed field of an item. -/
inductive StreamField where
  | text
  | output
deriving DecidableEq, Repr

structure StreamKey where
  itemId : String
  field : StreamField
deriving DecidableEq, Repr

/-- A new member of a set kept in insertion order. -/
def addForm (forms : List Text) (form : Text) : List Text :=
  if form ∈ forms then forms else forms ++ [form]

/--
The forms a value takes in output. `none` where the source throws: a value with a
lone surrogate has no URI component.
-/
def secretForms (value : Text) : Option (List Text) :=
  if value.length < secretMaskMinLength then some []
  else
    let lf := crlfToLf value
    let texts :=
      if value.any (fun u => u == 0x0D || u == 0x0A) then
        [value, lf, lfToCrlf lf] ++ lines lf
      else [value]
    do
      let forms ← texts.foldlM (fun forms text => do
        let uri ← encodeURIComponent text
        some (addForm (addForm (addForm forms text) (jsonBody text)) uri)) []
      some ((if value = lf then [value] else [value, lf]).foldl (fun forms text =>
        addForm (addForm (addForm forms (base64 text)) (unpadded (base64 text)))
          (base64url text)) forms)

/--
A mask: the label of each form, in the order the forms were registered. Every form
is long enough to be masked.
-/
structure SecretMask where
  labels : List (Text × Text)
  long : ∀ p ∈ labels, secretMaskMinLength ≤ p.1.length

namespace SecretMask

/-- `this.labels.set(form, label)`, for a form that is long enough and not registered yet. -/
def register (m : SecretMask) (label form : Text) : SecretMask :=
  if h : secretMaskMinLength ≤ form.length ∧ m.labels.lookup form = none then
    { labels := m.labels ++ [(form, label)]
      long := by
        intro p hp
        rcases mem_append.mp hp with hp | hp
        · exact m.long p hp
        · rw [mem_singleton.mp hp]
          exact h.1 }
  else m

/-- The label a secret's values are replaced with. -/
def labelOf (name : Text) : Text := ofString "[secret " ++ name ++ ofString "]"

/-- The constructor: each secret's name and its values. `none` where it throws. -/
def new (values : List (Text × List Text)) : Option SecretMask :=
  values.foldlM (fun m entry =>
    entry.2.foldlM (fun m value => do
      let forms ← secretForms value
      some (forms.foldl (fun m form => m.register (labelOf entry.1) form) m)) m)
    ⟨[], by simp⟩

/-- Longest first: where two values start at one place, the longer wins. -/
def values (m : SecretMask) : List Text :=
  (m.labels.map Prod.fst).mergeSort (fun left right => decide (right.length ≤ left.length))

/-- Nothing to mask. -/
def empty (m : SecretMask) : Bool := m.values.isEmpty

/-- What a part of the text is written as. -/
def write (m : SecretMask) : Munch.Part UInt16 → Text
  | .lit a => [a]
  | .hit w => (m.labels.lookup w).getD []

/-- What the search makes of a text. -/
def parts (m : SecretMask) (text : Text) : List (Munch.Part UInt16) := Munch.parts m.values text

/-- `SecretMask.text`: every whole value in `text` replaced. -/
def text (m : SecretMask) (text : Text) : Text :=
  if m.values.isEmpty then text else (m.parts text).flatMap m.write

/--
Where the recordable part of `text` ends: past every whole value, and before the
shortest tail that could still begin one.
-/
def holdFrom (m : SecretMask) (text : Text) : Nat :=
  if m.values.isEmpty then text.length
  else hold m.values ((m.values.head?.map List.length).getD 0) text

/-- Streamed text held back, by field, in the order of a `Map`. -/
abbrev Held := List (StreamKey × Text)

/-- `held.get(key)?.text ?? ""` -/
def Held.get (held : Held) (key : StreamKey) : Text := (held.lookup key).getD []

/-- `held.delete(key)` -/
def Held.delete (held : Held) (key : StreamKey) : Held := held.filter (fun p => p.1 != key)

/-- `held.set(key, text)`: a key held already keeps its place. -/
def Held.set (held : Held) (key : StreamKey) (text : Text) : Held :=
  if (held.lookup key).isSome then held.map (fun p => if p.1 = key then (key, text) else p)
  else held ++ [(key, text)]

/-- The part of a streamed delta that can be recorded now; the rest waits. -/
def stream (m : SecretMask) (held : Held) (key : StreamKey) (text : Text) : Text × Held :=
  if m.values.isEmpty then (text, held)
  else
    let combined := held.get key ++ text
    let at_ := m.holdFrom combined
    (m.text (combined.take at_),
      if at_ < combined.length then held.set key (combined.drop at_) else held.delete key)

/-- What a field still holds, masked, and forgotten. -/
def flush (m : SecretMask) (held : Held) (key : StreamKey) : Text × Held :=
  (m.text (held.get key), held.delete key)

/-- `drop`: forget what a field holds. -/
def drop (held : Held) (key : StreamKey) : Held := held.delete key

/-- Fields still holding text. -/
def holding (held : Held) : List StreamKey := held.map Prod.fst

/-! ## The forms as words of a search -/

variable {m : SecretMask}

theorem mem_values {w : Text} : w ∈ m.values ↔ ∃ label, (w, label) ∈ m.labels := by
  unfold values
  rw [mem_mergeSort, mem_map]
  constructor
  · rintro ⟨⟨w', label⟩, hp, rfl⟩; exact ⟨label, hp⟩
  · rintro ⟨label, hp⟩; exact ⟨(w, label), hp, rfl⟩

theorem values_long {w : Text} (hw : w ∈ m.values) : secretMaskMinLength ≤ w.length := by
  obtain ⟨label, hp⟩ := mem_values.mp hw
  exact m.long _ hp

theorem values_ne_nil : ∀ w ∈ m.values, w ≠ [] := by
  intro w hw h0
  have := values_long hw
  rw [h0] at this
  exact absurd this (by decide)

/-- The first value is the longest. -/
theorem values_length_le : ∀ w ∈ m.values, w.length ≤ (m.values.head?.map List.length).getD 0 := by
  have hsorted : m.values.Pairwise (fun left right => right.length ≤ left.length) := by
    have htrans : ∀ a b c : Text, decide (b.length ≤ a.length) = true →
        decide (c.length ≤ b.length) = true → decide (c.length ≤ a.length) = true := by
      intro a b c hab hbc
      simp only [decide_eq_true_eq] at hab hbc ⊢
      exact Nat.le_trans hbc hab
    have htotal : ∀ a b : Text,
        (decide (b.length ≤ a.length) || decide (a.length ≤ b.length)) = true := by
      intro a b
      simp only [Bool.or_eq_true, decide_eq_true_eq]
      exact Nat.le_total b.length a.length
    exact (pairwise_mergeSort htrans htotal (m.labels.map Prod.fst)).imp
      (fun h => by simpa using h)
  cases hv : m.values with
  | nil => intro w hw; simp at hw
  | cons v vs =>
    rw [hv] at hsorted
    intro w hw
    rcases mem_cons.mp hw with rfl | hw
    · exact Nat.le_refl _
    · exact (pairwise_cons.mp hsorted).1 w hw

/-- With nothing registered the search passes over every symbol. -/
theorem text_eq (m : SecretMask) (t : Text) : m.text t = (m.parts t).flatMap m.write := by
  unfold text
  split
  · rename_i h
    have hv : m.values = [] := List.isEmpty_iff.mp h
    have hlit : ∀ s : Text, partsFrom ([] : List Text) 0 s = s.map Munch.Part.lit := by
      intro s
      induction s with
      | nil => rfl
      | cons a s ih => simp [partsFrom, matchAt, ih]
    rw [parts, Munch.parts, hv, hlit]
    simp [flatMap_map, write]
  · rfl

/-! ## Held text -/

namespace Held

@[simp] theorem get_delete_self (held : Held) (key : StreamKey) :
    (held.delete key).get key = [] := by
  have : (held.delete key).lookup key = none := by
    rw [lookup_eq_none_iff]
    intro p hp
    have := (mem_filter.mp hp).2
    simp only [bne_iff_ne] at this
    simpa using fun h : key = p.1 => this h.symm
  simp [Held.get, this]

theorem lookup_map_self {held : Held} {key : StreamKey} {text : Text}
    (h : (held.lookup key).isSome) :
    (held.map (fun p => if p.1 = key then (key, text) else p)).lookup key = some text := by
  induction held with
  | nil => simp at h
  | cons p held ih =>
    obtain ⟨k, v⟩ := p
    by_cases hk : k = key
    · simp [hk]
    · have hne : (key == k) = false := by simpa using fun h : key = k => hk h.symm
      rw [lookup_cons, hne] at h
      simp only [map_cons, hk, if_false, lookup_cons, hne]
      exact ih h

@[simp] theorem get_set_self (held : Held) (key : StreamKey) (text : Text) :
    (held.set key text).get key = text := by
  unfold Held.get Held.set
  split
  · rename_i h
    rw [lookup_map_self h]
    rfl
  · rename_i h
    have hn : held.lookup key = none := Option.not_isSome_iff_eq_none.mp h
    rw [lookup_append, hn]
    simp

end Held

end SecretMask

end Catamorphic.Sessions
