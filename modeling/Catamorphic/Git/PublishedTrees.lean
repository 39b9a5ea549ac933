import Catamorphic.Git.PublishToOrigin
import Catamorphic.Git.Resolutions

/-!
# What a publication is made of

A ref is moved by itself, and only from what was expected of it. What a merge or the writing of files
comes to is said path by path, whether a missing file may be deleted or not.
-/

namespace Catamorphic.Git

open Maps List Option

/-! ## Refs that move -/

section

variable {origin : Origin} {ref : List Char} {sha : Sha} {expected : Option Sha}

theorem lookup_eq_valueAt (refs : List (List Char × List Char)) (ref : List Char) :
    refs.lookup ref = valueAt refs ref := by
  induction refs with
  | nil => rfl
  | cons first refs ih =>
    rw [lookup_cons, valueAt_cons, ih]
    by_cases h : first.1 = ref
    · simp [h]
    · rw [if_neg h]
      have hne : (ref == first.1) = false := by simpa using fun heq => h heq.symm
      rw [hne]

theorem resolveRef_key (h : isRefKey ref = true) :
    origin.resolveRef ref = .ok ((valueAt origin.refs ref).bind shaOfBody) := by
  rw [Origin.resolveRef, if_pos h, lookup_eq_valueAt]

theorem isRefKey_of_resolveRef {value : Option Sha} (h : origin.resolveRef ref = .ok value) :
    isRefKey ref = true := by
  rw [Origin.resolveRef] at h
  by_contra hnot
  rw [if_neg hnot] at h
  cases h

theorem isSha_of_resolveRef (h : origin.resolveRef ref = .ok (some sha)) : isSha sha = true := by
  rw [resolveRef_key (isRefKey_of_resolveRef h)] at h
  obtain ⟨body, -, hbody⟩ := bind_eq_some_iff.mp (Except.ok.inj h)
  rw [shaOfBody] at hbody
  split at hbody
  · next hsha => exact some.inj hbody ▸ hsha
  · cases hbody

/-- No digit of an id is white space. -/
theorem isSpace_hex {c : Char} (h : (c.isDigit || ('a' ≤ c && c ≤ 'f')) = true) :
    Text.isSpace c = false := by
  have hrange : 0x30 ≤ c.toNat ∧ c.toNat ≤ 0x66 := by
    rw [Bool.or_eq_true, Bool.and_eq_true, decide_eq_true_eq, decide_eq_true_eq, Char.le_def,
      Char.le_def, UInt32.le_iff_toNat_le, UInt32.le_iff_toNat_le] at h
    rcases h with h | h
    · rw [Char.isDigit, Bool.and_eq_true, decide_eq_true_eq, decide_eq_true_eq] at h
      have h1 := UInt32.le_iff_toNat_le.mp h.1
      have h2 := UInt32.le_iff_toNat_le.mp h.2
      exact ⟨h1, Nat.le_trans h2 (by decide)⟩
    · exact ⟨Nat.le_trans (by decide) h.1, h.2⟩
  simp only [Text.isSpace, Bool.or_eq_false_iff, Bool.and_eq_false_iff, beq_eq_false_iff_ne,
    decide_eq_false_iff_not]
  omega

theorem trim_sha (h : isSha sha = true) : Text.trim sha = sha := by
  have hall : ∀ c ∈ sha, Text.isSpace c = false := by
    intro c hc
    rw [isSha, Bool.and_eq_true, List.all_eq_true] at h
    exact isSpace_hex (h.2 c hc)
  have hdrop : ∀ text : List Char, (∀ c ∈ text, Text.isSpace c = false) →
      text.dropWhile Text.isSpace = text := by
    intro text htext
    cases text with
    | nil => rfl
    | cons c text => rw [dropWhile_cons, htext c mem_cons_self]; rfl
  rw [Text.trim, hdrop sha hall, hdrop sha.reverse fun c hc => hall c (mem_reverse.mp hc),
    reverse_reverse]

theorem shaOfBody_sha (h : isSha sha = true) : shaOfBody sha = some sha := by
  rw [shaOfBody, trim_sha h]
  exact if_pos h

/-- What is expected of a ref, and read so, it resolves to. -/
theorem resolveRef_of_held (hkey : isRefKey ref = true)
    (hsha : ∀ sha, expected = some sha → isSha sha = true) (h : origin.held ref = expected) :
    origin.resolveRef ref = .ok expected := by
  rw [resolveRef_key hkey]
  rw [Origin.held, lookup_eq_valueAt] at h
  rcases hbody : valueAt origin.refs ref with _ | body
  · rw [hbody] at h
    exact congrArg Except.ok h
  · rw [hbody] at h
    subst h
    refine congrArg Except.ok ?_
    exact if_pos (hsha _ rfl)

/-- One ref is moved, and no other. -/
structure Moves (ref : List Char) (was now : Option Sha) (before after : Origin) : Prop where
  was : before.resolveRef ref = .ok was
  now : after.resolveRef ref = .ok now
  others : ∀ other, other ≠ ref → after.resolveRef other = before.resolveRef other

theorem resolveRef_other {origin after : Origin} {other : List Char}
    (h : valueAt after.refs other = valueAt origin.refs other) :
    after.resolveRef other = origin.resolveRef other := by
  rw [Origin.resolveRef, Origin.resolveRef, lookup_eq_valueAt, lookup_eq_valueAt, h]

theorem moves_withRef (hkey : isRefKey ref = true)
    (hexpected : ∀ sha, expected = some sha → isSha sha = true) (hsha : isSha sha = true)
    (h : origin.held ref = expected) :
    Moves ref expected (some sha) origin (origin.withRef ref sha hkey) where
  was := resolveRef_of_held hkey hexpected h
  now := by
    rw [resolveRef_key hkey]
    have hvalue : valueAt (setAt origin.refs ref sha) ref = some sha := by
      rw [valueAt_setAt, if_pos rfl]
    exact congrArg Except.ok ((congrArg (·.bind shaOfBody) hvalue).trans (shaOfBody_sha hsha))
  others := by
    intro other hother
    refine @resolveRef_other origin _ other ?_
    have hvalue : valueAt (setAt origin.refs ref sha) other = valueAt origin.refs other := by
      rw [valueAt_setAt, if_neg fun heq => hother heq.symm]
    exact hvalue

theorem valueAt_filter_ne (refs : List (List Char × List Char)) (ref other : List Char) :
    valueAt (refs.filter fun entry => entry.1 ≠ ref) other =
      if other = ref then none else valueAt refs other := by
  induction refs with
  | nil => simp [valueAt]
  | cons first refs ih =>
    rw [filter_cons, valueAt_cons]
    by_cases hfirst : first.1 = ref
    · rw [if_neg (by simpa using hfirst), ih]
      by_cases hother : other = ref
      · simp [hother]
      · rw [if_neg hother, if_neg hother, if_neg fun heq => hother (heq.symm.trans hfirst)]
    · rw [if_pos (by simpa using hfirst), valueAt_cons, ih]
      by_cases hother : other = ref
      · subst hother
        rw [if_neg hfirst, if_pos rfl, if_pos rfl]
      · rw [if_neg hother, if_neg hother]

theorem moves_withoutRef (hkey : isRefKey ref = true) (hsha : isSha sha = true)
    (h : origin.held ref = some sha) :
    Moves ref (some sha) none origin (origin.withoutRef ref) where
  was := resolveRef_of_held hkey (fun _ heq => some.inj heq ▸ hsha) h
  now := by
    rw [resolveRef_key hkey]
    have hvalue := valueAt_filter_ne origin.refs ref ref
    rw [if_pos rfl] at hvalue
    exact congrArg (fun value => Except.ok (value.bind shaOfBody)) hvalue
  others := by
    intro other hother
    have hvalue := valueAt_filter_ne origin.refs ref other
    rw [if_neg hother] at hvalue
    exact @resolveRef_other origin _ other hvalue

end

namespace Trees

open Folders

/-! ## What a merge publishes -/

section

variable {tree base ours theirs : Tree} {changes : Changes} {path : List Name}

/-- No submodule is at the path. -/
def NoSubmodule (tree : Tree) (path : List Name) : Prop :=
  ∀ file, leafAt tree path = some file → file.mode ≠ submoduleMode

theorem fileAt_eq : fileAt tree path =
    (leafAt tree path).bind fun file => if file.mode = submoduleMode then none else some file := by
  rw [fileAt, leafAt]
  rcases entryAt tree path with _ | ⟨⟨_⟩ | ⟨_⟩⟩ <;> rfl

theorem fileAt_eq_leafAt (h : NoSubmodule tree path) : fileAt tree path = leafAt tree path := by
  rw [fileAt_eq]
  rcases hleaf : leafAt tree path with _ | file
  · rfl
  · exact if_neg (h file hleaf)

theorem mode_of_fileAt {file : TreeFile} (h : fileAt tree path = some file) :
    file.mode ≠ submoduleMode := by
  rw [fileAt_eq] at h
  obtain ⟨leaf, -, hleaf⟩ := bind_eq_some_iff.mp h
  split at hleaf
  · cases hleaf
  · next hmode => exact some.inj hleaf ▸ hmode

variable {diff3Merge : List (List Char) → List (List Char) → List (List Char) →
  List (Diff3Block (List Char))}
variable {objects : Sha → GitObject} {origin : Origin} {blobId : List UInt8 → Sha}
variable {localeLe : Path → Path → Bool}
variable {isIgnored : Tree → List Name → Except ReadFailure Bool}

/-- A merge without resolutions says of every path what it makes of it. -/
theorem leafAt_merged (h : mergeTrees localeLe diff3Merge objects origin blobId isIgnored base ours
    theirs [] = .ok (.merged tree)) (hpath : path ≠ []) :
    leafAt tree path = mergedAt diff3Merge objects origin blobId base ours theirs path := by
  obtain ⟨merging, hmerging, -, hcase⟩ := mergeTrees_ok h
  have hout := outcomes_of_mergeOurs hmerging
  split at hcase
  · next hnone =>
    obtain ⟨written, hwrite, heq⟩ := hcase
    obtain rfl := MergeResult.merged.inj heq
    have hconflicts : merging.conflicts = [] := by
      rw [← hnone]
      exact (filter_eq_self.mpr fun _ _ => rfl).symm
    have hsettles : Settles merging [] :=
      ⟨.nil, fun path => ⟨absurd rfl, fun ⟨entry, hentry, _⟩ => by
        rw [hconflicts] at hentry
        cases hentry⟩⟩
    have hcarries := carries hout hsettles
    have hnonempty : ∀ pair ∈ resolvedChanges blobId merging [], pair.1 ≠ [] :=
      fun pair hpair => (hcarries.touches.mp ⟨pair.2, hpair⟩).nonempty
    rw [leafAt_writeTree hcarries.distinct hnonempty hwrite hpath]
    refine written_eq_mergedAt hout hsettles hpath fun entry hentry => ?_
    rw [hconflicts] at hentry
    cases hentry
  · cases hcase

/-- What a file comes to: the side that changed it, or both by their lines. -/
def mergedFile (diff3Merge : List (List Char) → List (List Char) → List (List Char) →
    List (Diff3Block (List Char))) (objects : Sha → GitObject) (origin : Origin)
    (blobId : List UInt8 → Sha) (base ours theirs : Option TreeFile) : Option TreeFile :=
  if ours = base ∨ ours = theirs then theirs
  else if base = theirs then ours
  else match mergedText diff3Merge objects origin base ours theirs, ours with
    | .ok (some bytes), some file => some ⟨blobId bytes, file.mode⟩
    | _, _ => none

variable (diff3Merge objects blobId) in
/-- **The tree is theirs with the changes merged in that ours has since base**: every file that is
not a member's own, read in some state of the origin. -/
def MergedIn (base ours theirs tree : Tree) : Prop :=
  ∃ origin, ∀ path, path ≠ [] → shared [] path = true →
    fileAt tree path = mergedFile diff3Merge objects origin blobId (fileAt base path)
      (fileAt ours path) (fileAt theirs path)

theorem mergedIn_of_merged (h : mergeTrees localeLe diff3Merge objects origin blobId isIgnored base
    ours theirs [] = .ok (.merged tree)) :
    MergedIn diff3Merge objects blobId base ours theirs tree := by
  refine ⟨origin, fun path hpath hshared => ?_⟩
  rw [fileAt_eq, leafAt_merged h hpath]
  unfold mergedAt mergedFile
  by_cases hkept : fileAt ours path = fileAt base path ∨ fileAt ours path = fileAt theirs path
  · rw [if_pos (by simpa [hshared] using hkept), if_pos hkept, ← fileAt_eq]
  · rw [if_neg (by simpa [hshared] using hkept), if_neg hkept]
    by_cases halone : fileAt base path = fileAt theirs path
    · rw [if_pos halone, if_pos halone]
      rcases hours : fileAt ours path with _ | file
      · rfl
      · exact if_neg (mode_of_fileAt hours)
    · rw [if_neg halone, if_neg halone]
      rcases hours : fileAt ours path with _ | file
      · rcases mergedText diff3Merge objects origin (fileAt base path) none (fileAt theirs path)
          with _ | _ | bytes <;> rfl
      · rcases mergedText diff3Merge objects origin (fileAt base path) (some file)
          (fileAt theirs path) with _ | _ | bytes
        · rfl
        · rfl
        · exact if_neg (mode_of_fileAt hours)

/-- Where base is theirs, ours is what is merged in. -/
theorem mergedIn_self (origin : Origin) :
    MergedIn diff3Merge objects blobId base ours base ours := by
  refine ⟨origin, fun path _ _ => ?_⟩
  unfold mergedFile
  by_cases h : fileAt ours path = fileAt base path
  · rw [if_pos (.inl h), h]
  · rw [if_neg (by simpa using h), if_pos rfl]

end

/-! ## Files that are written -/

theorem changeHere_write (base : List Name) (entries : Tree) (name : Name) {change : TreeChange}
    (h : change.isSome) :
    changeHere false base entries name change = changeHere true base entries name change := by
  obtain ⟨blob, rfl⟩ := isSome_iff_exists.mp h
  rfl

theorem rewrite_writes {length : Nat} {entries : Tree} {changes : Changes} {base : List Name}
    (h : ∀ pair ∈ changes, pair.2.isSome) :
    rewrite false length entries changes base = rewrite true length entries changes base := by
  induction length generalizing entries changes base with
  | zero => rfl
  | succ length ih =>
    rw [rewrite, rewrite]
    have hhere := @foldlM_congr Tree (Name × TreeChange) DraftPathError
      (fun entries change => changeHere false base entries change.1 change.2)
      (fun entries change => changeHere true base entries change.1 change.2) (hereOf changes)
      (fun change hchange entries => changeHere_write base entries change.1
        (h _ (mem_hereOf.mp hchange))) entries
    rw [hhere]
    refine bind_congr fun here => ?_
    refine congrArg (· >>= _) (mapM_congr fun directory hdirectory => ?_)
    have hinner : ∀ pair ∈ nestedIn changes directory, pair.2.isSome :=
      fun pair hpair => h (directory :: pair.1, pair.2) (mem_nestedIn.mp hpair).2
    have hdeleting :
        ((nestedIn changes directory).all fun change => change.2.isNone) = false := by
      obtain ⟨pair, hpair⟩ := exists_mem_of_ne_nil _ (mem_directoriesOf.mp hdirectory)
      refine all_eq_false.mpr ⟨pair, hpair, ?_⟩
      rw [Bool.not_eq_true, isNone_eq_false_iff]
      exact hinner pair hpair
    simp only [hdeleting, Bool.false_and, ih hinner]

/-- Where nothing is deleted, it is all one whether a missing file may be. -/
theorem writeTree_writes {entries : Tree} {changes : Changes}
    (h : ∀ pair ∈ changes, pair.2.isSome) :
    writeTree false entries changes = writeTree true entries changes := by
  rw [writeTree, writeTree, rewrite_writes h]

/-- The files are those of the base, but for what was changed. -/
def Written (base : Tree) (changes : Changes) (ours : Tree) : Prop :=
  ∀ path, path ≠ [] → leafAt ours path = written base changes path

/-- Files that are written, each at a path of its own. -/
structure Files (changes : Changes) : Prop where
  distinct : Distinct changes
  writes : ∀ pair ∈ changes, pair.2.isSome
  paths : ∀ pair ∈ changes, pair.1 ≠ []

theorem written_of_writeTree {base ours : Tree} {changes : Changes} (h : Files changes)
    (hok : writeTree false base changes = .ok ours) : Written base changes ours := by
  rw [writeTree_writes h.writes] at hok
  exact fun path => leafAt_writeTree h.distinct h.paths hok

end Trees

end Catamorphic.Git
