import Catamorphic.Git.MergeOutcomes

/-!
# Resolving reported conflicts

Where a merge reports conflicts, a text for each of them settles it, unless one of them is binary:
no text is taken for it. The tree then has the texts where the conflicts were and what the merge
makes of every other path, as long as the published tree has room for what is written.
-/

namespace Catamorphic.Git.Trees

open Folders Maps List Option

variable {path : List Name} {entry : ConflictEntry}

section

variable {localeLe : Path → Path → Bool}
variable {diff3Merge : List (List Char) → List (List Char) → List (List Char) →
  List (Diff3Block (List Char))}
variable {objects : Sha → GitObject} {origin : Origin} {blobId : List UInt8 → Sha}
variable {isIgnored : Tree → List Name → Except ReadFailure Bool}
variable {base ours theirs : Tree} {merging : Merging}

/-! ## What is written -/

/-- The merge changes what theirs says of the path. -/
structure Touches (base ours theirs : Tree) (path : List Name) : Prop
    extends Changed base ours path where
  apart : fileAt ours path ≠ fileAt theirs path

/-- Ours deleted the file, and theirs left it as it was. -/
def Deletes (base ours theirs : Tree) (path : List Name) : Prop :=
  Touches base ours theirs path ∧ fileAt ours path = none ∧ fileAt base path = fileAt theirs path

/-- A file is written, ours or a merged or a given one. -/
def Writes (base ours theirs : Tree) (path : List Name) : Prop :=
  Touches base ours theirs path ∧ (fileAt ours path ≠ none ∨ fileAt base path ≠ fileAt theirs path)

/-- The mode it is written with. -/
def modeAt (ours theirs : Tree) (path : List Name) : Option (List Char) :=
  ((fileAt ours path).or (fileAt theirs path)).map TreeFile.mode

/-- **Theirs has room for what the merge changes**: no folder and no symbolic link is at a changed
path, no link is or comes above it, and above a written one neither does a file, unless it is
deleted. -/
structure Room (base ours theirs : Tree) : Prop where
  place : ∀ path, Touches base ours theirs path → Writable (entryAt theirs path)
  link : ∀ above below, Touches base ours theirs (above ++ below) → above ≠ [] → below ≠ [] →
    Node.isSymlink (entryAt theirs above) = false ∧
      (Writes base ours theirs above → modeAt ours theirs above ≠ some symlinkMode)
  room : ∀ above below, Writes base ours theirs (above ++ below) → above ≠ [] → below ≠ [] →
    ¬ Writes base ours theirs above ∧
      (Node.isLeaf (entryAt theirs above) = true → Deletes base ours theirs above)

/-- The changes are the ones that the merge makes. -/
structure Carries (base ours theirs : Tree) (changes : Changes) : Prop where
  distinct : Distinct changes
  deletes : ∀ path, valueAt changes path = some none ↔ Deletes base ours theirs path
  writes : ∀ path, (∃ blob, valueAt changes path = some (some blob)) ↔ Writes base ours theirs path
  mode : ∀ path blob, valueAt changes path = some (some blob) → blob.mode = modeAt ours theirs path

variable {changes : Changes}

section

variable (h : Carries base ours theirs changes)
include h

theorem Carries.touches : (∃ change, (path, change) ∈ changes) ↔ Touches base ours theirs path := by
  constructor
  · rintro ⟨_ | blob, hmem⟩
    · exact ((h.deletes path).mp (valueAt_of_mem h.distinct hmem)).1
    · exact ((h.writes path).mp ⟨blob, valueAt_of_mem h.distinct hmem⟩).1
  · intro htouches
    by_cases hwrites : fileAt ours path ≠ none ∨ fileAt base path ≠ fileAt theirs path
    · obtain ⟨blob, hblob⟩ := (h.writes path).mpr ⟨htouches, hwrites⟩
      exact ⟨_, mem_of_valueAt hblob⟩
    · obtain ⟨hours, hbase⟩ := not_or.mp hwrites
      exact ⟨_, mem_of_valueAt
        ((h.deletes path).mpr ⟨htouches, not_not.mp hours, not_not.mp hbase⟩)⟩

theorem Carries.mem_writes :
    (∃ blob, (path, some blob) ∈ changes) ↔ Writes base ours theirs path := by
  rw [← h.writes path]
  exact exists_congr fun blob =>
    ⟨valueAt_of_mem h.distinct, mem_of_valueAt⟩

/-- **The changes fit theirs exactly where it has room.** -/
theorem Carries.fits_iff : Fits theirs changes ↔ Room base ours theirs := by
  have hdeletes : ∀ path, (path, none) ∈ changes ↔ Deletes base ours theirs path := fun path =>
    ⟨fun hmem => (h.deletes path).mp (valueAt_of_mem h.distinct hmem),
      fun hdeletes => mem_of_valueAt ((h.deletes path).mpr hdeletes)⟩
  constructor
  · intro hfits
    constructor
    · intro path htouches
      obtain ⟨change, hmem⟩ := h.touches.mpr htouches
      exact hfits.place path change hmem
    · intro above below htouches habove hbelow
      obtain ⟨change, hmem⟩ := h.touches.mpr htouches
      obtain ⟨hlink, hmode⟩ := hfits.link _ change hmem above below rfl habove hbelow
      refine ⟨hlink, fun hwrites => ?_⟩
      obtain ⟨blob, hblob⟩ := h.mem_writes.mpr hwrites
      rw [← h.mode above blob (valueAt_of_mem h.distinct hblob)]
      exact hmode blob hblob
    · intro above below hwrites habove hbelow
      obtain ⟨blob, hmem⟩ := h.mem_writes.mpr hwrites
      obtain ⟨hnot, hleaf⟩ := hfits.room _ blob hmem above below rfl habove hbelow
      refine ⟨fun hother => ?_, fun hfound => (hdeletes above).mp (hleaf hfound)⟩
      obtain ⟨other, hother⟩ := h.mem_writes.mpr hother
      exact hnot other hother
  · intro hroom
    constructor
    · exact fun path change hmem => hroom.place path (h.touches.mp ⟨change, hmem⟩)
    · rintro path change hmem above below rfl habove hbelow
      obtain ⟨hlink, hmode⟩ := hroom.link above below (h.touches.mp ⟨change, hmem⟩) habove hbelow
      refine ⟨hlink, fun blob hblob => ?_⟩
      rw [h.mode above blob (valueAt_of_mem h.distinct hblob)]
      exact hmode (h.mem_writes.mp ⟨blob, hblob⟩)
    · rintro path blob hmem above below rfl habove hbelow
      obtain ⟨hnot, hleaf⟩ := hroom.room above below (h.mem_writes.mp ⟨blob, hmem⟩) habove hbelow
      exact ⟨fun other hother => hnot (h.mem_writes.mp ⟨other, hother⟩),
        fun hfound => (hdeletes above).mpr (hleaf hfound)⟩

end

/-! ## What the merge makes of a path -/

/-- What the merge makes of a path that is no conflict. -/
def mergedAt (diff3Merge : List (List Char) → List (List Char) → List (List Char) →
    List (Diff3Block (List Char))) (objects : Sha → GitObject) (origin : Origin)
    (blobId : List UInt8 → Sha) (base ours theirs : Tree) (path : List Name) : Option TreeFile :=
  let b := fileAt base path
  let o := fileAt ours path
  let t := fileAt theirs path
  if !shared [] path || o = b || o = t then leafAt theirs path
  else if b = t then o
  else match o, mergedText diff3Merge objects origin b o t with
    | some file, .ok (some bytes) => some ⟨blobId bytes, file.mode⟩
    | _, _ => none

/-- The changes with the texts that were given for the conflicts. -/
def resolvedChanges (blobId : List UInt8 → Sha) (merging : Merging)
    (resolutions : List (List Name × List Char)) : Changes :=
  resolutions.foldl (fun changes resolved =>
    setAt changes resolved.1
      (some ⟨blobId (Utf8.encode resolved.2), valueAt merging.modes resolved.1⟩)) merging.changes

/-- A text is given for every conflict, and for no other path. -/
structure Settles (merging : Merging) (resolutions : List (List Name × List Char)) : Prop where
  distinct : Distinct resolutions
  conflicts : ∀ path, valueAt resolutions path ≠ none ↔
    ∃ entry ∈ merging.conflicts, entry.path = path

variable {resolutions : List (List Name × List Char)} {tree : Tree}

/-- What the changes say of a path, by what becomes of it. -/
def Resolved (blobId : List UInt8 → Sha) (changes : Changes)
    (resolutions : List (List Name × List Char)) (path : List Name) : Outcome → Prop
  | .theirs => valueAt changes path = none
  | .change change => valueAt changes path = some change
  | .conflict _ mode => ∃ text, valueAt resolutions path = some text ∧
      valueAt changes path = some (some ⟨blobId (Utf8.encode text), mode⟩)

theorem valueAt_resolvedChanges (h : Distinct resolutions) {path : List Name} :
    valueAt (resolvedChanges blobId merging resolutions) path =
      ((valueAt resolutions path).map fun text =>
        some ⟨blobId (Utf8.encode text), valueAt merging.modes path⟩).or
          (valueAt merging.changes path) := by
  exact @valueAt_foldl_setAt (List Name) TreeChange _ path _ resolutions h
    (fun path text => some ⟨blobId (Utf8.encode text), valueAt merging.modes path⟩) merging.changes

theorem distinct_resolvedChanges (h : Distinct merging.changes) :
    Distinct (resolvedChanges blobId merging resolutions) :=
  @distinct_foldl_setAt (List Name) TreeChange _ _ resolutions
    (fun path text => some ⟨blobId (Utf8.encode text), valueAt merging.modes path⟩)
    merging.changes h

theorem Settles.resolved (h : Settles merging resolutions) {outcome : Outcome}
    (hends : Ends diff3Merge objects origin blobId path (fileAt base path) (fileAt ours path)
      (fileAt theirs path) outcome) (hat : merging.At path outcome) :
    Resolved blobId (resolvedChanges blobId merging resolutions) resolutions path outcome := by
  have hvalue := @valueAt_resolvedChanges blobId merging resolutions h.distinct path
  have hnone : (∀ entry ∈ merging.conflicts, entry.path ≠ path) →
      valueAt resolutions path = none := by
    intro hapart
    by_contra hsome
    obtain ⟨entry, hentry, heq⟩ := (h.conflicts path).mp hsome
    exact hapart entry hentry heq
  cases hends with
  | same | alone | merged => rw [Resolved, hvalue, hnone hat.2, hat.1]; rfl
  | conflict hpath =>
    obtain ⟨-, hmode, hentry⟩ := hat
    obtain ⟨text, htext⟩ :=
      ne_none_iff_exists'.mp ((h.conflicts path).mpr ⟨_, hentry, hpath⟩)
    exact ⟨text, htext, by rw [hvalue, htext, hmode]; rfl⟩

section

variable (hout : Outcomes diff3Merge objects origin blobId base ours theirs merging)
  (h : Settles merging resolutions)
include hout h

theorem carries : Carries base ours theirs (resolvedChanges blobId merging resolutions) := by
  have hkeep : ∀ path, ¬ Changed base ours path →
      valueAt (resolvedChanges blobId merging resolutions) path = none := by
    intro path hnot
    obtain ⟨hchanges, hapart⟩ := hout.other path hnot
    rw [valueAt_resolvedChanges h.distinct, hchanges]
    rcases htext : valueAt resolutions path with _ | text
    · rfl
    · obtain ⟨entry, hentry, heq⟩ :=
        (h.conflicts path).mp (by rw [htext]; exact some_ne_none _)
      exact absurd heq (hapart entry hentry)
  have hcase : ∀ path, (valueAt (resolvedChanges blobId merging resolutions) path = none ∧
        ¬ Touches base ours theirs path) ∨
      (valueAt (resolvedChanges blobId merging resolutions) path = some none ∧
        Deletes base ours theirs path) ∨
      ∃ blob, valueAt (resolvedChanges blobId merging resolutions) path = some (some blob) ∧
        Writes base ours theirs path ∧ blob.mode = modeAt ours theirs path := by
    intro path
    by_cases hchanged : Changed base ours path
    · obtain ⟨outcome, hends, hat⟩ := hout.changed path hchanged
      have hresolved := h.resolved hends hat
      cases hends with
      | same hsame => exact .inl ⟨hresolved, fun htouches => htouches.apart hsame⟩
      | alone hbase =>
        have hvalue : valueAt (resolvedChanges blobId merging resolutions) path = some _ :=
          hresolved
        have htouches : Touches base ours theirs path :=
          ⟨hchanged, fun heq => hchanged.differs (hbase.trans heq.symm)⟩
        rcases hours : fileAt ours path with _ | file
        · rw [hours] at hvalue
          exact .inr (.inl ⟨hvalue, htouches, hours, hbase⟩)
        · rw [hours] at hvalue
          refine .inr (.inr ⟨_, hvalue, ⟨htouches, .inl (by simp [hours])⟩, ?_⟩)
          rw [modeAt, hours]
          rfl
      | merged hbase hne hours =>
        refine .inr (.inr ⟨_, hresolved, ⟨⟨hchanged, hne⟩, .inr hbase⟩, ?_⟩)
        rw [modeAt, hours]
        rfl
      | conflict hpath hne hwrites hmode =>
        obtain ⟨text, -, hvalue⟩ := hresolved
        exact .inr (.inr ⟨_, hvalue, ⟨⟨hchanged, hne⟩, hwrites⟩, hmode.symm⟩)
    · exact .inl ⟨hkeep path hchanged, fun htouches => hchanged htouches.toChanged⟩
  have hnotBoth : ∀ path, Deletes base ours theirs path → ¬ Writes base ours theirs path :=
    fun path hdeletes hwrites => hwrites.2.elim (· hdeletes.2.1) (· hdeletes.2.2)
  refine ⟨distinct_resolvedChanges hout.distinct, fun path => ?_, fun path => ?_,
    fun path blob hblob => ?_⟩
  · rcases hcase path with ⟨hvalue, hnot⟩ | ⟨hvalue, hdeletes⟩ | ⟨blob, hvalue, hwrites, -⟩
    · exact iff_of_false (by simp [hvalue]) fun hdeletes => hnot hdeletes.1
    · exact iff_of_true hvalue hdeletes
    · exact iff_of_false (by simp [hvalue]) fun hdeletes => hnotBoth path hdeletes hwrites
  · rcases hcase path with ⟨hvalue, hnot⟩ | ⟨hvalue, hdeletes⟩ | ⟨blob, hvalue, hwrites, -⟩
    · exact iff_of_false (by simp [hvalue]) fun hwrites => hnot hwrites.1
    · exact iff_of_false (by simp [hvalue]) (hnotBoth path hdeletes)
    · exact iff_of_true ⟨blob, hvalue⟩ hwrites
  · rcases hcase path with ⟨hvalue, -⟩ | ⟨hvalue, -⟩ | ⟨other, hvalue, -, hmode⟩
    · simp [hvalue] at hblob
    · simp [hvalue] at hblob
    · obtain rfl : other = blob := by simpa [hvalue] using hblob
      exact hmode

/-- A path that is no conflict says what the merge makes of it. -/
theorem written_eq_mergedAt (hpath : path ≠ [])
    (hapart : ∀ entry ∈ merging.conflicts, entry.path ≠ path) :
    written theirs (resolvedChanges blobId merging resolutions) path =
      mergedAt diff3Merge objects origin blobId base ours theirs path := by
  by_cases hchanged : Changed base ours path
  · obtain ⟨outcome, hends, hat⟩ := hout.changed path hchanged
    have hresolved := h.resolved hends hat
    have hours : ¬ (fileAt ours path = fileAt base path) := fun heq => hchanged.differs heq.symm
    cases hends with
    | same hsame =>
      have hvalue : valueAt (resolvedChanges blobId merging resolutions) path = none := hresolved
      rw [written, hvalue, mergedAt]
      simp [hsame]
    | alone hbase =>
      have hne : ¬ (fileAt ours path = fileAt theirs path) :=
        fun heq => hchanged.differs (hbase.trans heq.symm)
      have hvalue : valueAt (resolvedChanges blobId merging resolutions) path = some _ :=
        hresolved
      rw [written, hvalue, mergedAt]
      rw [if_neg (by simp [hchanged.shared, hours, hne]), if_pos hbase]
      rcases fileAt ours path with _ | file
      · rfl
      · rcases entryAt theirs path with _ | ⟨⟨_⟩ | ⟨_⟩⟩ <;> rfl
    | merged hbase hne hfile hmerged =>
      have hvalue : valueAt (resolvedChanges blobId merging resolutions) path = some _ :=
        hresolved
      rw [written, hvalue, mergedAt]
      rw [if_neg (by simp [hchanged.shared, hours, hne]), if_neg hbase, hmerged, hfile]
      rcases entryAt theirs path with _ | ⟨⟨_⟩ | ⟨_⟩⟩ <;> rfl
    | conflict hsame =>
      obtain ⟨-, -, hentry⟩ := hat
      exact absurd hsame (hapart _ hentry)
  · have hkeep : ∀ change, (path, change) ∉ resolvedChanges blobId merging resolutions := by
      intro change hmem
      exact hchanged ((carries hout h).touches.mp ⟨change, hmem⟩).toChanged
    rw [written, valueAt_eq_none hkeep, mergedAt, if_pos]
    by_contra hnot
    rw [Bool.or_eq_true, Bool.or_eq_true, not_or, not_or] at hnot
    exact hchanged ⟨hpath, by simpa using hnot.1.1, fun heq => hnot.1.2 (decide_eq_true heq.symm)⟩

end

/-! ## Runs of the merge -/

/-- What a merge that comes to a result has gathered, and that it takes no text for a binary. -/
theorem mergeTrees_ok {result : MergeResult} (h : mergeTrees localeLe diff3Merge objects origin
    blobId isIgnored base ours theirs resolutions = .ok result) :
    ∃ merging, mergeOurs diff3Merge objects origin blobId theirs (diffTrees localeLe base ours)
        (diffTrees localeLe base theirs) = .ok merging ∧
      (∀ entry ∈ merging.conflicts, entry.binary = true → valueAt resolutions entry.path = none) ∧
      match (merging.conflicts.filter fun entry => (valueAt resolutions entry.path).isNone) with
      | [] => ∃ tree, writeTree true theirs (resolvedChanges blobId merging resolutions) =
          .ok tree ∧ result = .merged tree
      | entry :: conflicts => result = .conflict (entry :: conflicts) := by
  obtain ⟨merging, hmerging, h⟩ := bind_ok h
  refine ⟨merging, hmerging, ?_⟩
  dsimp only at h
  split at h
  · obtain ⟨-, h, -⟩ := bind_ok h
    cases h
  · next hbinary =>
    obtain ⟨ignored, -, h⟩ := bind_ok h
    refine ⟨fun entry hentry hbin => ?_, ?_⟩
    · by_contra hvalue
      rw [ne_eq, not_not, filter_eq_nil_iff] at hbinary
      refine hbinary entry.path (valueAt_ne_none_iff.mp hvalue) ?_
      exact any_eq_true.mpr ⟨entry, hentry, by simp [hbin]⟩
    · split at h
      · obtain ⟨-, h, -⟩ := bind_ok h
        cases h
      · split
        · next hnil =>
          rw [hnil, if_neg (not_not_intro rfl)] at h
          obtain ⟨tree, hwrite, h⟩ := bind_ok h
          refine ⟨tree, ?_, (Except.ok.inj h).symm⟩
          rcases hresult : writeTree true theirs (resolvedChanges blobId merging resolutions) with
            failure | tree'
          · rw [resolvedChanges] at hresult
            rw [hresult] at hwrite
            cases hwrite
          · rw [resolvedChanges] at hresult
            rw [hresult] at hwrite
            exact congrArg Except.ok (Except.ok.inj hwrite)
        · next entry conflicts hcons =>
          rw [hcons, if_pos (cons_ne_nil _ _)] at h
          exact (Except.ok.inj h).symm

/-- At a conflict's path, the one that is kept there and the mode that goes with it. -/
theorem Outcomes.conflict
    (hout : Outcomes diff3Merge objects origin blobId base ours theirs merging)
    (hentry : entry ∈ merging.conflicts) : ∃ mode, modeAt ours theirs entry.path = some mode ∧
      valueAt merging.modes entry.path = some mode := by
  by_cases hchanged : Changed base ours entry.path
  · obtain ⟨outcome, hends, hat⟩ := hout.changed entry.path hchanged
    cases hends with
    | same | alone | merged => exact absurd rfl (hat.2 entry hentry)
    | conflict _ _ _ hmode => exact ⟨_, hmode, hat.2.1⟩
  · exact absurd rfl ((hout.other entry.path hchanged).2 entry hentry)

theorem mergeTrees_of_settles
    (hmerging : mergeOurs diff3Merge objects origin blobId theirs (diffTrees localeLe base ours)
      (diffTrees localeLe base theirs) = .ok merging)
    (h : Settles merging resolutions) (hbinary : ∀ entry ∈ merging.conflicts, entry.binary = false)
    (hwrite : writeTree true theirs (resolvedChanges blobId merging resolutions) = .ok tree) :
    mergeTrees localeLe diff3Merge objects origin blobId isIgnored base ours theirs resolutions =
      .ok (.merged tree) := by
  have hgiven : ∀ file ∈ resolutions.map Prod.fst, ∃ entry ∈ merging.conflicts, entry.path = file :=
    fun file hfile => (h.conflicts file).mp (valueAt_ne_none_iff.mpr hfile)
  have hnoBinary : ((resolutions.map Prod.fst).filter fun file =>
      merging.conflicts.any fun entry => entry.path = file && entry.binary) = [] := by
    refine filter_eq_nil_iff.mpr fun file _ hany => ?_
    obtain ⟨entry, hentry, hbin⟩ := any_eq_true.mp hany
    rw [hbinary entry hentry, Bool.and_false] at hbin
    cases hbin
  have hnoIgnored : ((resolutions.map Prod.fst).filterM fun file =>
      if (valueAt merging.modes file).isSome then return false
      else (isIgnored theirs file).mapError MergeFailure.read) = .ok [] := by
    refine filterM_none fun file hfile => ?_
    obtain ⟨entry, hentry, rfl⟩ := hgiven file hfile
    obtain ⟨mode, -, hmode⟩ := (outcomes_of_mergeOurs hmerging).conflict hentry
    rw [hmode]
    rfl
  have hnone : (merging.conflicts.filter fun entry =>
      (valueAt resolutions entry.path).isNone) = [] := by
    refine filter_eq_nil_iff.mpr fun entry hentry hvalue => ?_
    exact (h.conflicts entry.path).mpr ⟨entry, hentry, rfl⟩ (isNone_iff_eq_none.mp hvalue)
  rw [resolvedChanges] at hwrite
  rw [mergeTrees, hmerging]
  simp only [bind, Except.bind, hnoBinary, hnone]
  rw [hnoIgnored, hwrite]
  rfl

/-! ## Paths that a member can name -/

/-- The path is named by what it is called, and naming it so is let through as it is. -/
def Named (path : List Name) : Prop :=
  normalizePath (joinSegments path) = .ok (joinSegments path) ∧
    segmentsOf (joinSegments path) = path

/-- A text is given for every conflict, by its path's name, and for nothing else. -/
structure Texts (conflicts : List ConflictEntry) (texts : List (Path × List Char)) : Prop where
  distinct : Distinct texts
  each : ∀ file, valueAt texts file ≠ none ↔ ∃ entry ∈ conflicts, joinSegments entry.path = file

/-- The texts by the paths that they were given for. -/
def textsOf (texts : List (Path × List Char)) : List (List Name × List Char) :=
  (texts.map fun text => (segmentsOf text.1, text.2)).foldl
    (fun map entry => setAt map entry.1 entry.2) []

variable {texts : List (Path × List Char)} {conflicts : List ConflictEntry}

section

variable (h : Texts conflicts texts) (hnamed : ∀ entry ∈ conflicts, Named entry.path)
  {text : List Char}
include h hnamed

theorem Texts.name {file : Path} (hmem : (file, text) ∈ texts) :
    ∃ entry ∈ conflicts, joinSegments entry.path = file ∧ segmentsOf file = entry.path ∧
      normalizePath file = .ok file := by
  obtain ⟨entry, hentry, rfl⟩ :=
    (h.each file).mp (valueAt_ne_none_iff.mpr (mem_map_of_mem hmem))
  exact ⟨entry, hentry, rfl, (hnamed entry hentry).2, (hnamed entry hentry).1⟩

theorem Texts.distinct_segments : Distinct (texts.map fun text => (segmentsOf text.1, text.2)) := by
  refine pairwise_map.mpr (h.distinct.imp_of_mem fun {a b} ha hb hne heq => hne ?_)
  obtain ⟨_, _, hjoin, hsegments, -⟩ := h.name hnamed ha
  obtain ⟨_, _, hjoin', hsegments', -⟩ := h.name hnamed hb
  rw [← hjoin, ← hjoin', ← hsegments, ← hsegments']
  exact congrArg joinSegments heq

/-- The text of a conflict is found under its path. -/
theorem Texts.valueAt_textsOf : valueAt (textsOf texts) path = some text ↔
      ∃ entry ∈ conflicts, entry.path = path ∧ (joinSegments path, text) ∈ texts := by
  have hvalue : valueAt (textsOf texts) path =
      valueAt (texts.map fun text => (segmentsOf text.1, text.2)) path := by
    rw [textsOf, @valueAt_foldl_setAt (List Name) (List Char) _ path _ _
      (h.distinct_segments hnamed) (fun _ text => text) []]
    cases valueAt (texts.map fun text => (segmentsOf text.1, text.2)) path <;> rfl
  rw [hvalue]
  constructor
  · intro hsome
    obtain ⟨⟨file, given⟩, hmem, heq⟩ := mem_map.mp (mem_of_valueAt hsome)
    obtain ⟨hsegments, rfl⟩ := Prod.mk.inj heq
    obtain ⟨entry, hentry, hjoin, hpath, -⟩ := h.name hnamed hmem
    obtain rfl : entry.path = path := hpath.symm.trans hsegments
    exact ⟨entry, hentry, rfl, hjoin ▸ hmem⟩
  · rintro ⟨entry, hentry, rfl, hmem⟩
    refine valueAt_of_mem (h.distinct_segments hnamed) (mem_map.mpr ⟨_, hmem, ?_⟩)
    exact Prod.ext (hnamed entry hentry).2 rfl

omit h hnamed in
theorem settles_textsOf (h : Texts merging.conflicts texts)
    (hnamed : ∀ entry ∈ merging.conflicts, Named entry.path) : Settles merging (textsOf texts) := by
  refine ⟨@distinct_foldl_setAt _ _ _ _ _ (fun _ text => text) _ .nil, fun path => ?_⟩
  rw [ne_none_iff_exists']
  constructor
  · rintro ⟨text, htext⟩
    obtain ⟨entry, hentry, heq, -⟩ := (h.valueAt_textsOf hnamed).mp htext
    exact ⟨entry, hentry, heq⟩
  · rintro ⟨entry, hentry, rfl⟩
    obtain ⟨text, htext⟩ :=
      ne_none_iff_exists'.mp ((h.each (joinSegments entry.path)).mpr ⟨entry, hentry, rfl⟩)
    exact ⟨text, (h.valueAt_textsOf hnamed).mpr ⟨entry, hentry, rfl, mem_of_valueAt htext⟩⟩

/-- Texts by names that are let through go to the merge by their paths. -/
theorem resolveConflicts_eq :
    resolveConflicts localeLe diff3Merge objects origin blobId isIgnored base ours theirs texts =
      (do
        let result ← mergeTrees localeLe diff3Merge objects origin blobId isIgnored base ours theirs
          (textsOf texts)
        match result with
        | .merged tree => return tree
        | .conflict conflicts => throw (.unresolved conflicts)) := by
  have hentries : (texts.mapM fun resolved => do
      let file ← (normalizePath resolved.1).mapError MergeFailure.path
      return (segmentsOf file, resolved.2)) =
        .ok (texts.map fun text => (segmentsOf text.1, text.2)) := by
    have hall : ∀ text ∈ texts, normalizePath text.1 = .ok text.1 := fun text hmem => by
      obtain ⟨_, _, -, -, hnormal⟩ := h.name hnamed hmem
      exact hnormal
    clear h
    induction texts with
    | nil => rfl
    | cons first texts ih =>
      rw [mapM_cons, hall first (.head _), ih (List.forall_mem_cons.mp hall).2]
      rfl
  rw [resolveConflicts, hentries]
  rfl

end

/-! ## Reported conflicts -/

section

variable (h : mergeTrees localeLe diff3Merge objects origin blobId isIgnored base ours theirs [] =
  .ok (.conflict conflicts))
include h

theorem reported :
    ∃ merging, mergeOurs diff3Merge objects origin blobId theirs (diffTrees localeLe base ours)
        (diffTrees localeLe base theirs) = .ok merging ∧ merging.conflicts = conflicts := by
  obtain ⟨merging, hmerging, -, hresult⟩ := mergeTrees_ok h
  refine ⟨merging, hmerging, ?_⟩
  have hall : (merging.conflicts.filter fun entry =>
      (valueAt ([] : List (List Name × List Char)) entry.path).isNone) = merging.conflicts :=
    filter_eq_self.mpr fun _ _ => rfl
  rw [hall] at hresult
  rcases hconflicts : merging.conflicts with _ | ⟨entry, rest⟩
  · rw [hconflicts] at hresult
    obtain ⟨tree, -, hresult⟩ := hresult
    cases hresult
  · rw [hconflicts] at hresult
    exact (MergeResult.conflict.inj hresult).symm

/-- While a binary file is in conflict, nothing that is given resolves it. -/
theorem resolveConflicts_binary (hentry : entry ∈ conflicts) (hbinary : entry.binary = true)
    (texts : List (Path × List Char)) (tree : Tree) :
    resolveConflicts localeLe diff3Merge objects origin blobId isIgnored base ours theirs texts ≠
      .ok tree := by
  intro hok
  obtain ⟨merging, hmerging, rfl⟩ := reported h
  obtain ⟨entries, -, hok⟩ := bind_ok hok
  obtain ⟨result, hresult, hok⟩ := bind_ok hok
  obtain ⟨other, hother, hnone, hcase⟩ := mergeTrees_ok hresult
  obtain rfl := Except.ok.inj (hmerging.symm.trans hother)
  split at hcase
  · next hnil =>
    have habsent := filter_eq_nil_iff.mp hnil entry hentry
    rw [hnone entry hentry hbinary] at habsent
    exact habsent rfl
  · subst hcase
    cases hok

/-- **Texts for all of them succeed exactly where theirs has room**, none being binary. -/
theorem resolveConflicts_ok_iff (hbinary : ∀ entry ∈ conflicts, entry.binary = false)
    (hnamed : ∀ entry ∈ conflicts, Named entry.path) (htexts : Texts conflicts texts) :
    (∃ tree, resolveConflicts localeLe diff3Merge objects origin blobId isIgnored base ours theirs
      texts = .ok tree) ↔ Room base ours theirs := by
  obtain ⟨merging, hmerging, rfl⟩ := reported h
  have hsettles := settles_textsOf htexts hnamed
  have hcarries := carries (outcomes_of_mergeOurs hmerging) hsettles
  have hnonempty : ∀ pair ∈ resolvedChanges blobId merging (textsOf texts), pair.1 ≠ [] :=
    fun pair hpair => (hcarries.touches.mp ⟨pair.2, hpair⟩).nonempty
  rw [← hcarries.fits_iff, ← writeTree_ok_iff hcarries.distinct hnonempty,
    resolveConflicts_eq htexts hnamed]
  constructor
  · rintro ⟨tree, hok⟩
    obtain ⟨result, hresult, hok⟩ := bind_ok hok
    obtain ⟨other, hother, -, hcase⟩ := mergeTrees_ok hresult
    obtain rfl := Except.ok.inj (hmerging.symm.trans hother)
    split at hcase
    · obtain ⟨written, hwrite, -⟩ := hcase
      exact ⟨written, hwrite⟩
    · subst hcase
      cases hok
  · rintro ⟨tree, hwrite⟩
    exact ⟨tree, by rw [mergeTrees_of_settles hmerging hsettles hbinary hwrite]; rfl⟩

theorem resolveConflicts_says (hnamed : ∀ entry ∈ conflicts, Named entry.path)
    (htexts : Texts conflicts texts)
    (hok : resolveConflicts localeLe diff3Merge objects origin blobId isIgnored base ours theirs
      texts = .ok tree) :
    (∀ entry ∈ conflicts, ∀ text, (joinSegments entry.path, text) ∈ texts →
      ∃ mode, modeAt ours theirs entry.path = some mode ∧
        leafAt tree entry.path = some ⟨blobId (Utf8.encode text), mode⟩) ∧
      ∀ path, path ≠ [] → (∀ entry ∈ conflicts, entry.path ≠ path) →
        leafAt tree path = mergedAt diff3Merge objects origin blobId base ours theirs path := by
  obtain ⟨merging, hmerging, rfl⟩ := reported h
  have hout := outcomes_of_mergeOurs hmerging
  have hsettles := settles_textsOf htexts hnamed
  have hcarries := carries hout hsettles
  have hnonempty : ∀ pair ∈ resolvedChanges blobId merging (textsOf texts), pair.1 ≠ [] :=
    fun pair hpair => (hcarries.touches.mp ⟨pair.2, hpair⟩).nonempty
  rw [resolveConflicts_eq htexts hnamed] at hok
  obtain ⟨result, hresult, hok⟩ := bind_ok hok
  obtain ⟨other, hother, -, hcase⟩ := mergeTrees_ok hresult
  obtain rfl := Except.ok.inj (hmerging.symm.trans hother)
  split at hcase
  · obtain ⟨tree', hwrite, rfl⟩ := hcase
    obtain rfl := Except.ok.inj hok
    have hleaf := fun path hpath => @leafAt_writeTree theirs _ hcarries.distinct hnonempty tree'
      hwrite path hpath
    refine ⟨fun entry hentry text htext => ?_, fun path hpath hapart => ?_⟩
    · obtain ⟨mode, hmode, hkept⟩ := hout.conflict hentry
      have hvalue := (htexts.valueAt_textsOf hnamed).mpr ⟨entry, hentry, rfl, htext⟩
      have hchange := @valueAt_resolvedChanges blobId merging _ hsettles.distinct entry.path
      rw [hvalue, hkept] at hchange
      have hpath : entry.path ≠ [] :=
        hnonempty _ (mem_of_valueAt (hchange.trans (some_or ..)))
      refine ⟨mode, hmode, ?_⟩
      rw [hleaf _ hpath, written, hchange]
      rcases entryAt theirs entry.path with _ | ⟨⟨_⟩ | ⟨_⟩⟩ <;> rfl
    · rw [hleaf path hpath, written_eq_mergedAt hout hsettles hpath hapart]
  · subst hcase
    cases hok

end

end

/-! ## A file of each side -/

section

def digitFile (digit : Char) : TreeFile := ⟨List.replicate 40 digit, FILE_MODE⟩

/-- A tree of one file. -/
def oneFile (digit : Char) : Tree := [(['a'], .leaf (digitFile digit))]

/-- The file differs. -/
def digitsDiffer (before after : Option Char) : Difference :=
  ⟨[['a']], before.map digitFile, after.map digitFile⟩

/-- A merge of lists that differ, without a line in common. -/
def wholeMerge (ours base theirs : List (List Char)) : List (Diff3Block (List Char)) :=
  if ours = base then [.ok theirs]
  else if theirs = base then [.ok ours]
  else [.conflict ours base theirs]

/-- A blob of the digit that its id has, and the one of zeros is binary. -/
def digitBlobs (oid : Sha) : GitObject :=
  ⟨.blob, if oid.head? = some '0' then [0] else (oid.take 1).map fun c => UInt8.ofNat c.toNat⟩

def wholeOrigin : Origin := ⟨[], fun _ => true, by simp⟩

def firstByte (bytes : List UInt8) : Sha :=
  (bytes.take 1).flatMap fun byte => List.replicate 40 (Char.ofNat byte.toNat)

def mergeDigits (base ours theirs : Tree) : Except MergeFailure MergeResult :=
  mergeTrees (fun _ _ => true) wholeMerge digitBlobs wholeOrigin firstByte (fun _ _ => .ok false)
    base ours theirs []

def resolveDigits (base ours theirs : Tree) (texts : List (Path × List Char)) :
    Except MergeFailure Tree :=
  resolveConflicts (fun _ _ => true) wholeMerge digitBlobs wholeOrigin firstByte
    (fun _ _ => .ok false) base ours theirs texts

theorem diffTrees_of_walkDiff {localeLe : Path → Path → Bool} {before after : Tree}
    {change : Difference}
    (h : walkDiff (max (heights before) (heights after)) before after [] = [change]) :
    diffTrees localeLe before after = [change] := by
  rw [diffTrees, h, mergeSort_singleton]

/-- The conflict of a file that all three have, each with its digit. -/
def digitConflict : ConflictEntry := ⟨[['a']], some ['1'], some ['2'], some ['3'], false⟩

theorem digitConflict_reported :
    mergeDigits (oneFile '1') (oneFile '2') (oneFile '3') = .ok (.conflict [digitConflict]) := by
  decide +kernel

theorem touches_oneFile {base ours theirs : Char}
    (h : Touches (oneFile base) (oneFile ours) (oneFile theirs) path) : path = [['a']] := by
  have hdiffers := h.differs
  match path, h.nonempty with
  | [name], _ =>
    by_contra hne
    have hnone : ∀ digit, fileAt (oneFile digit) [name] = none := fun digit => by
      rw [fileAt_one, oneFile, find_cons, if_neg fun heq : ['a'] = name => hne (by rw [heq])]
      rfl
    rw [hnone, hnone] at hdiffers
    exact hdiffers rfl
  | name :: second :: rest, _ =>
    have hnone : ∀ digit, fileAt (oneFile digit) (name :: second :: rest) = none :=
      fun digit => by
        rw [fileAt_cons (cons_ne_nil _ _), oneFile, find_cons]
        split <;> exact fileAt_nil _
    rw [hnone, hnone] at hdiffers
    exact absurd rfl hdiffers

theorem room_oneFile : Room (oneFile '1') (oneFile '2') (oneFile '3') := by
  have hshort : ∀ above below : List Name, above ++ below = [['a']] → above ≠ [] → below = [] := by
    intro above below heq habove
    obtain ⟨name, rest, rfl⟩ := exists_cons_of_ne_nil habove
    have hrest := (List.cons.inj heq).2
    exact (append_eq_nil_iff.mp hrest).2
  refine ⟨fun path h => ?_, fun above below h habove hbelow => ?_,
    fun above below h habove hbelow => ?_⟩
  · rw [touches_oneFile h]
    exact ⟨by decide +kernel, by decide +kernel⟩
  · exact absurd (hshort above below (touches_oneFile h) habove) hbelow
  · exact absurd (hshort above below (touches_oneFile h.1) habove) hbelow

end

end Catamorphic.Git.Trees
