import Catamorphic.Git.OriginObjects
import Catamorphic.Lib.Utf8Encode

/-!
# Merging a text file line by line

Both sides' edits of a text file are merged as lists of lines. The bytes are decoded before
and encoded after, which is lossless on the bytes of a text without a byte-order mark, and on
no others: a mark is dropped, and what is not UTF-8 is written back as U+FFFD.
-/

namespace Catamorphic.Git

/-- A block of `diff3Merge`, without the places of a conflict. -/
inductive Diff3Block (α : Type) where
  | ok (lines : List α)
  | conflict (a o b : List α)

/-- The `ok` lines in a row, where no block is a conflict. -/
def mergedLines {α : Type} : List (Diff3Block α) → Option (List α)
  | [] => some []
  | .ok lines :: blocks => (mergedLines blocks).map fun merged => lines ++ merged
  | .conflict .. :: _ => none

/--
What is relied on of a three-way merge of lists: in a merge without conflict an element
stands as it stands on one of the sides, also with the element that follows it; and where
one side is the base, the merge is the other side.
-/
structure Diff3 {α : Type} (diff3Merge : List α → List α → List α → List (Diff3Block α)) :
    Prop where
  fromSides : ∀ a o b merged, mergedLines (diff3Merge a o b) = some merged →
    ∀ x ∈ merged, x ∈ a ∨ x ∈ b
  inPlace : ∀ a o b merged, mergedLines (diff3Merge a o b) = some merged →
    ∀ x y, [x, y] <:+: merged → [x, y] <:+: a ∨ [x, y] <:+: b
  onlyLeft : ∀ a o, mergedLines (diff3Merge a o o) = some a
  onlyRight : ∀ o b, mergedLines (diff3Merge o o b) = some b

namespace OriginObjects

open Asks Lines

/-- `new TextDecoder().decode(bytes).match(/[^\n]*\n|[^\n]+$/g) ?? []` -/
def textLines (bytes : List UInt8) : List (List Char) :=
  pieces '\n' (Utf8.decodeText bytes)

variable {σ : Type}
variable (diff3Merge : List (List Char) → List (List Char) → List (List Char) →
  List (Diff3Block (List Char)))
variable (objects : Sha → GitObject)

def mergeText : Option TreeFile → Option TreeFile → Option TreeFile →
    Read σ (Option (List UInt8))
  | some base, some ours, some theirs => do
    if ours.mode ≠ theirs.mode then return none
    else
      let base ← blob objects base.oid
      let ours ← blob objects ours.oid
      let theirs ← blob objects theirs.oid
      if [base, ours, theirs].any fun bytes => bytes.contains 0 then return none
      else
        let blocks := diff3Merge (textLines ours) (textLines base) (textLines theirs)
        return (mergedLines blocks).map fun merged => Utf8.encode merged.flatten
  | _, _, _ => return none

/-- The origin has the file, with these bytes. -/
def Holds (origin : Origin) (file : TreeFile) (bytes : List UInt8) : Prop :=
  origin.hasObject file.oid = true ∧ objects file.oid = ⟨.blob, bytes⟩

/-- What a line merge keeps: every line is one of the two sides', and where one side left the
file as it was the merge is the other side. -/
structure Kept (base ours theirs merged : List UInt8) : Prop where
  lines : ∀ line ∈ pieces Utf8.newline merged,
    line ∈ pieces Utf8.newline ours ∨ line ∈ pieces Utf8.newline theirs
  onlyOurs : theirs = base → merged = ours
  onlyTheirs : ours = base → merged = theirs

variable {diff3Merge objects}
variable {origin : Origin} {base ours theirs : TreeFile} {b o t merged : List UInt8} {state : σ}
  {α : Type}

theorem Holds.runOn_blob {file : TreeFile} {bytes : List UInt8}
    (h : Holds objects origin file bytes) (state : σ) :
    (blob objects file.oid).runOn origin state = (.ok bytes, state) := by
  have hsha : isSha file.oid = true := by
    have hhas := h.1
    rw [Origin.hasObject, Bool.and_eq_true] at hhas
    exact hhas.1
  simp [blob, read, runOn_bind, hsha, h.1, h.2]

section

variable (hb : Holds objects origin base b) (ho : Holds objects origin ours o)
  (ht : Holds objects origin theirs t) (hmode : ours.mode = theirs.mode)
include hb ho ht hmode

theorem runOn_mergeText (state : σ) :
    (mergeText diff3Merge objects (some base) (some ours) (some theirs)).runOn origin state =
      (.ok (if [b, o, t].any fun bytes => bytes.contains 0 then none
        else (mergedLines (diff3Merge (textLines o) (textLines b) (textLines t))).map
          fun merged => Utf8.encode merged.flatten), state) := by
  rw [mergeText, if_neg (not_not_intro hmode)]
  simp only [runOn_bind, hb.runOn_blob, ho.runOn_blob, ht.runOn_blob]
  split <;> rfl

/-- What is merged without a conflict is the merged lines, encoded. -/
theorem lines_of_mergeText
    (hrun : ((mergeText diff3Merge objects (some base) (some ours) (some theirs)).runOn
      origin state).1 = .ok (some merged)) :
    ∃ lines, mergedLines (diff3Merge (textLines o) (textLines b) (textLines t)) = some lines ∧
      merged = Utf8.encode lines.flatten := by
  rw [runOn_mergeText hb ho ht hmode] at hrun
  have hsome := Except.ok.inj hrun
  split at hsome
  · cases hsome
  · obtain ⟨lines, hlines, rfl⟩ := Option.map_eq_some_iff.mp hsome
    exact ⟨lines, hlines, rfl⟩

end

/-! ## Bytes of a text without a mark -/

/-- A merge of two such files consists of whole lines of theirs. -/
theorem pieces_merged (hdiff : Diff3 diff3Merge) {lines : List (List Char)} {base : List UInt8}
    (hmerged : mergedLines (diff3Merge (textLines o) (textLines base) (textLines t)) = some lines) :
    pieces '\n' lines.flatten = lines := by
  refine pieces_of_flatten ?_ ?_
  · intro p hp
    rcases hdiff.fromSides _ _ _ _ hmerged p hp with h | h <;> exact mem_pieces h
  · intro p q hpq
    rcases hdiff.inPlace _ _ _ _ hmerged p q hpq with h | h <;> exact complete_of_followed h

/-- **Both sides' bytes are kept** where both are the bytes of a text without a mark. -/
theorem kept_of_plain (hdiff : Diff3 diff3Merge) (hb : Holds objects origin base b)
    (ho : Holds objects origin ours o) (ht : Holds objects origin theirs t)
    (hmode : ours.mode = theirs.mode) (hours : Utf8.Plain o) (htheirs : Utf8.Plain t)
    (hrun : ((mergeText diff3Merge objects (some base) (some ours) (some theirs)).runOn
      origin state).1 = .ok (some merged)) : Kept b o t merged := by
  obtain ⟨lines, hlines, rfl⟩ := lines_of_mergeText hb ho ht hmode hrun
  have hoback := Utf8.encode_decodeText_iff.mpr hours
  have htback := Utf8.encode_decodeText_iff.mpr htheirs
  refine ⟨?_, ?_, ?_⟩
  · intro line hline
    rw [Utf8.pieces_encode, pieces_merged hdiff hlines] at hline
    obtain ⟨p, hp, rfl⟩ := List.mem_map.mp hline
    rw [← hoback, ← htback, Utf8.pieces_encode, Utf8.pieces_encode]
    rcases hdiff.fromSides _ _ _ _ hlines p hp with h | h
    · exact .inl (List.mem_map_of_mem h)
    · exact .inr (List.mem_map_of_mem h)
  · rintro rfl
    rw [hdiff.onlyLeft] at hlines
    rw [← Option.some.inj hlines, textLines, pieces_flatten, hoback]
  · rintro rfl
    rw [hdiff.onlyRight] at hlines
    rw [← Option.some.inj hlines, textLines, pieces_flatten, htback]

section

variable (hdiff : Diff3 diff3Merge) (ho : Holds objects origin ours o)
  (ht : Holds objects origin theirs t) (hmode : ours.mode = theirs.mode)
include hdiff ho ht hmode

/-- A merge with the file one side left as it was writes the other side back as it was read. -/
theorem runOn_onlyOurs (hotext : 0 ∉ o) (httext : 0 ∉ t) (state : σ) :
    ((mergeText diff3Merge objects (some theirs) (some ours) (some theirs)).runOn origin state).1 =
      .ok (some (Utf8.encode (Utf8.decodeText o))) := by
  rw [runOn_mergeText ht ho ht hmode, hdiff.onlyLeft]
  simp [hotext, httext, textLines, pieces_flatten]

theorem runOn_onlyTheirs (hotext : 0 ∉ o) (httext : 0 ∉ t) (state : σ) :
    ((mergeText diff3Merge objects (some ours) (some ours) (some theirs)).runOn origin state).1 =
      .ok (some (Utf8.encode (Utf8.decodeText t))) := by
  rw [runOn_mergeText ho ho ht hmode, hdiff.onlyRight]
  simp [hotext, httext, textLines, pieces_flatten]

end

/--
**A text merge keeps the bytes** of two files, whatever they are merged over, exactly where
both are UTF-8 without a byte-order mark.
-/
theorem mergeText_kept_iff (hdiff : Diff3 diff3Merge) (ho : Holds objects origin ours o)
    (ht : Holds objects origin theirs t) (hmode : ours.mode = theirs.mode) (hotext : 0 ∉ o)
    (httext : 0 ∉ t) (state : σ) : (∀ base b merged, Holds objects origin base b →
      ((mergeText diff3Merge objects (some base) (some ours) (some theirs)).runOn
        origin state).1 = .ok (some merged) → Kept b o t merged) ↔
      Utf8.Plain o ∧ Utf8.Plain t := by
  constructor
  · intro h
    constructor
    · have hkept := h theirs t _ ht (runOn_onlyOurs hdiff ho ht hmode hotext httext state)
      exact Utf8.encode_decodeText_iff.mp (hkept.onlyOurs rfl)
    · have hkept := h ours o _ ho (runOn_onlyTheirs hdiff ho ht hmode hotext httext state)
      exact Utf8.encode_decodeText_iff.mp (hkept.onlyTheirs rfl)
  · rintro ⟨hours, htheirs⟩ base b merged hb hrun
    exact kept_of_plain hdiff hb ho ht hmode hours htheirs hrun

/-! ## A byte-order mark -/

/-- `diff3Merge` where at most one side changed. -/
def mergeOne {α : Type} [DecidableEq α] (a o b : List α) : List (Diff3Block α) :=
  if b = o then [.ok a] else if a = o then [.ok b] else [.conflict a o b]

theorem mergeOne_cases [DecidableEq α] {a o b merged : List α}
    (h : mergedLines (mergeOne a o b) = some merged) : merged = a ∨ merged = b := by
  unfold mergeOne at h
  split at h
  · left
    simpa [mergedLines] using h.symm
  · split at h
    · right
      simpa [mergedLines] using h.symm
    · cases h

theorem diff3_mergeOne [DecidableEq α] : Diff3 (@mergeOne α _) where
  fromSides a o b merged h x hx := by
    rcases mergeOne_cases h with rfl | rfl
    · exact .inl hx
    · exact .inr hx
  inPlace a o b merged h x y hxy := by
    rcases mergeOne_cases h with rfl | rfl
    · exact .inl hxy
    · exact .inr hxy
  onlyLeft a o := by simp [mergeOne, mergedLines]
  onlyRight o b := by
    unfold mergeOne
    split
    · next h => simp [mergedLines, h]
    · simp [mergedLines]

def markedId : Sha := List.replicate 40 '1'
def plainId : Sha := List.replicate 40 '2'

/-- A file saved with a mark, and one saved without. -/
def markedObjects (oid : Sha) : GitObject :=
  ⟨.blob, if oid = markedId then Utf8.bom ++ [0x62, 0x0A] else [0x61, 0x0A]⟩

theorem markedOrigin_refKeys :
    ∀ entry ∈ ([] : List (List Char × List Char)), isRefKey entry.1 = true := by simp

def markedOrigin : Origin := ⟨[], fun _ => true, markedOrigin_refKeys⟩

def markedFile : TreeFile := ⟨markedId, "100755".toList⟩

def plainFile (mode : String) : TreeFile := ⟨plainId, mode.toList⟩

theorem holds_marked : Holds markedObjects markedOrigin markedFile (Utf8.bom ++ [0x62, 0x0A]) :=
  ⟨by decide, by decide⟩

theorem holds_plain (mode : String) :
    Holds markedObjects markedOrigin (plainFile mode) [0x61, 0x0A] :=
  ⟨show markedOrigin.hasObject plainId = true by decide,
    show markedObjects plainId = ⟨.blob, [0x61, 0x0A]⟩ by decide⟩

theorem mergeText_kept_iff_plain : Utf8.Plain [0x61, 0x0A] ∧
    ∀ base b merged, Holds markedObjects markedOrigin base b →
      ((mergeText mergeOne markedObjects (some base) (some (plainFile "100644"))
        (some (plainFile "100644"))).runOn markedOrigin ()).1 = .ok (some merged) →
      Kept b [0x61, 0x0A] [0x61, 0x0A] merged := by
  have hplain : Utf8.Plain [0x61, 0x0A] := ⟨['a', '\n'], by decide, by decide⟩
  exact ⟨hplain, (mergeText_kept_iff diff3_mergeOne (holds_plain _) (holds_plain _) rfl (by decide)
    (by decide) ()).mpr ⟨hplain, hplain⟩⟩

/-- One side saves the file with a mark, the other only makes it executable. -/
theorem mark_dropped :
    ((mergeText mergeOne markedObjects (some (plainFile "100644")) (some markedFile)
      (some (plainFile "100755"))).runOn markedOrigin ()).1 = .ok (some [0x62, 0x0A]) ∧
    ¬ Kept [0x61, 0x0A] (Utf8.bom ++ [0x62, 0x0A]) [0x61, 0x0A] [0x62, 0x0A] := by
  constructor
  · rw [runOn_mergeText (holds_plain _) holds_marked (holds_plain _) rfl]
    decide +kernel
  · intro h
    exact absurd (h.onlyOurs rfl) (by decide)

end OriginObjects
end Catamorphic.Git
