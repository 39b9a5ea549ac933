import Catamorphic.Git.MergeTrees

/-!
# What a merge of trees comes to

The walk of two trees lists the files that differ, and the merge settles each path that ours changed
on its own: it takes a side, merges the texts or keeps a conflict.
-/

namespace Catamorphic.Git.Trees

open Folders Maps List

/-! ## The files that differ -/

/-- The file that a path leads to. -/
def fileAt (tree : Tree) (path : List Name) : Option TreeFile := fileOf (entryAt tree path)

/-- Neither the path nor a folder on its way is a member's own. -/
def shared (base : List Name) : List Name → Bool
  | [] => true
  | name :: path => !isPersonalFile (joinSegments (base ++ [name])) && shared (base ++ [name]) path

section

variable {tree left right : Tree} {base path : List Name} {name : Name} {depth : Nat}
  {change : Difference}

theorem fileAt_cons (hpath : path ≠ []) :
    fileAt tree (name :: path) = fileAt (Entry.inner (find tree name)) path := by
  rw [fileAt, fileAt, entryAt_cons hpath]

theorem fileAt_one : fileAt tree [name] = fileOf (find tree name) := rfl

theorem fileAt_nil (path : List Name) : fileAt [] path = none := by
  rw [fileAt, entryAt_nil]
  rfl

theorem eq_nil_of_heights (h : heights tree ≤ 0) : tree = [] := by
  match tree, h with
  | [], _ => rfl
  | (_, _) :: _, h =>
    rw [heights] at h
    omega

theorem heights_inner (h : heights tree ≤ depth + 1) (name : Name) :
    heights (Entry.inner (find tree name)) ≤ depth := by
  rcases hfind : find tree name with _ | entry
  · rw [Entry.inner, heights]
    · exact Nat.zero_le _
    · simp
  · have hlt := heights_inner_lt hfind
    omega

theorem inner_of_not_folder {node : Option Node} (h : Node.isFolder node = false) :
    Entry.inner node = [] := by
  match node, h with
  | none, _ => rfl
  | some (.leaf _), _ => rfl

theorem find_ne_of_fileAt_ne (h : fileAt left (name :: path) ≠ fileAt right (name :: path)) :
    find left name ≠ find right name := by
  intro hsame
  cases path with
  | nil => exact h (by rw [fileAt_one, fileAt_one, hsame])
  | cons second rest =>
    have hrest : second :: rest ≠ [] := cons_ne_nil _ _
    exact h (by rw [fileAt_cons hrest, fileAt_cons hrest, hsame])

/-- A name that leads to two things is a name of one side. -/
theorem mem_names_of_find_ne (h : find left name ≠ find right name) :
    name ∈ (left ++ right).map Prod.fst := by
  by_contra hnames
  rw [map_append, mem_append, not_or] at hnames
  have habsent : ∀ {tree : Tree}, name ∉ tree.map Prod.fst → find tree name = none :=
    fun hnot => find_eq_none_iff.mpr fun old hold heq => hnot (mem_map.mpr ⟨old, hold, heq⟩)
  exact h (by rw [habsent hnames.1, habsent hnames.2])

/-- **The walk lists the files that differ**, but for a member's own. -/
theorem mem_walkDiff (hleft : heights left ≤ depth) (hright : heights right ≤ depth) : change ∈
    walkDiff depth left right base ↔
      ∃ path, path ≠ [] ∧ shared base path = true ∧ fileAt left path ≠ fileAt right path ∧
        change = ⟨base ++ path, fileAt left path, fileAt right path⟩ := by
  induction depth generalizing left right base with
  | zero =>
    rw [eq_nil_of_heights hleft, eq_nil_of_heights hright, walkDiff]
    refine iff_of_false not_mem_nil ?_
    rintro ⟨path, -, -, hne, -⟩
    exact hne rfl
  | succ depth ih =>
    rw [walkDiff]
    split
    · next heq =>
      refine iff_of_false not_mem_nil ?_
      rintro ⟨path, -, -, hne, -⟩
      exact hne (by rw [heq])
    · rw [mem_flatMap]
      constructor
      · rintro ⟨name, -, hmem⟩
        dsimp only at hmem
        split at hmem
        · cases hmem
        · next hskip =>
          rw [Bool.or_eq_true, not_or, Bool.not_eq_true] at hskip
          rcases mem_append.mp hmem with hinner | hhere
          · split at hinner
            · obtain ⟨path, hpath, hshared, hne, rfl⟩ :=
                (ih (heights_inner hleft name) (heights_inner hright name)).mp hinner
              refine ⟨name :: path, cons_ne_nil _ _, ?_, ?_, ?_⟩
              · rw [shared, hskip.1, hshared]
                rfl
              · rwa [fileAt_cons hpath, fileAt_cons hpath]
              · rw [fileAt_cons hpath, fileAt_cons hpath, append_assoc, singleton_append]
            · cases hinner
          · split at hhere
            · cases hhere
            · next hne =>
              obtain rfl := mem_singleton.mp hhere
              refine ⟨[name], cons_ne_nil _ _, ?_, hne, rfl⟩
              rw [shared, hskip.1]
              rfl
      · rintro ⟨path, hpath, hshared, hne, rfl⟩
        obtain ⟨name, rest, rfl⟩ := exists_cons_of_ne_nil hpath
        rw [shared, Bool.and_eq_true, Bool.not_eq_true'] at hshared
        have hfinds := find_ne_of_fileAt_ne hne
        refine ⟨name, mem_eraseDups.mpr (mem_names_of_find_ne hfinds), ?_⟩
        rw [if_neg (by simpa [hshared.1] using hfinds), mem_append]
        cases rest with
        | nil =>
          rw [fileAt_one, fileAt_one] at hne ⊢
          right
          rw [if_neg hne]
          exact mem_singleton_self _
        | cons second rest =>
          left
          have hrest : second :: rest ≠ [] := cons_ne_nil _ _
          rw [fileAt_cons hrest, fileAt_cons hrest] at hne
          rw [if_pos]
          · refine (ih (heights_inner hleft name) (heights_inner hright name)).mpr
              ⟨second :: rest, hrest, hshared.2, hne, ?_⟩
            rw [fileAt_cons hrest, fileAt_cons hrest, append_assoc, singleton_append]
          · by_contra hfolder
            rw [Bool.or_eq_true, not_or, Bool.not_eq_true, Bool.not_eq_true] at hfolder
            rw [inner_of_not_folder hfolder.1, inner_of_not_folder hfolder.2] at hne
            exact hne rfl

variable {localeLe : Path → Path → Bool}

theorem mem_diffTrees : change ∈ diffTrees localeLe left right ↔
    change.path ≠ [] ∧ shared [] change.path = true ∧
      fileAt left change.path ≠ fileAt right change.path ∧
      change = ⟨change.path, fileAt left change.path, fileAt right change.path⟩ := by
  rw [diffTrees, mem_mergeSort, mem_walkDiff (Nat.le_max_left _ _) (Nat.le_max_right _ _)]
  constructor
  · rintro ⟨path, hpath, hshared, hne, rfl⟩
    exact ⟨hpath, hshared, hne, rfl⟩
  · rintro ⟨hpath, hshared, hne, heq⟩
    exact ⟨change.path, hpath, hshared, hne, heq⟩

end

variable {path : List Name} {ours theirs : Option TreeFile} {outcome : Outcome}

/-! ## What becomes of a path -/

section

variable {localeLe : Path → Path → Bool}
variable {diff3Merge : List (List Char) → List (List Char) → List (List Char) →
  List (Diff3Block (List Char))}
variable {objects : Sha → GitObject} {origin : Origin} {blobId : List UInt8 → Sha}
variable {isIgnored : Tree → List Name → Except ReadFailure Bool}

/-- What may become of a path with these files, which ours changed. -/
inductive Ends (diff3Merge : List (List Char) → List (List Char) → List (List Char) →
    List (Diff3Block (List Char))) (objects : Sha → GitObject) (origin : Origin)
    (blobId : List UInt8 → Sha) (path : List Name) (base ours theirs : Option TreeFile) :
    Outcome → Prop
  | same : ours = theirs → Ends diff3Merge objects origin blobId path base ours theirs .theirs
  | alone : base = theirs → Ends diff3Merge objects origin blobId path base ours theirs
      (.change (ours.map fun file => ⟨file.oid, some file.mode⟩))
  | merged {file : TreeFile} {bytes : List UInt8} : base ≠ theirs → ours ≠ theirs →
      ours = some file → mergedText diff3Merge objects origin base ours theirs = .ok (some bytes) →
      Ends diff3Merge objects origin blobId path base ours theirs
        (.change (some ⟨blobId bytes, some file.mode⟩))
  | conflict {entry : ConflictEntry} {mode : List Char} : entry.path = path → ours ≠ theirs →
      (ours ≠ none ∨ base ≠ theirs) → (ours.or theirs).map TreeFile.mode = some mode →
      Ends diff3Merge objects origin blobId path base ours theirs (.conflict entry (some mode))

theorem conflict_ok {base : Option TreeFile}
    (h : conflict objects origin path base ours theirs = .ok outcome) :
    ∃ entry : ConflictEntry, entry.path = path ∧
      outcome = .conflict entry (((ours.or theirs).or base).map TreeFile.mode) := by
  obtain ⟨baseBytes, -, h⟩ := bind_ok h
  obtain ⟨oursBytes, -, h⟩ := bind_ok h
  obtain ⟨theirsBytes, -, h⟩ := bind_ok h
  exact ⟨_, rfl, (Except.ok.inj h).symm⟩

/-- The mode a conflict keeps is that of the first side that has the file. -/
theorem ends_of_conflict {base shown : Option TreeFile}
    (h : conflict objects origin path base ours shown = .ok outcome) (hne : ours ≠ theirs)
    (hwrites : ours ≠ none ∨ base ≠ theirs) (hshown : ours = none → shown = theirs) :
    Ends diff3Merge objects origin blobId path base ours theirs outcome := by
  obtain ⟨entry, hpath, rfl⟩ := conflict_ok h
  match ours with
  | some file => exact .conflict hpath hne hwrites rfl
  | none =>
    obtain rfl := hshown rfl
    obtain ⟨file, rfl⟩ := Option.ne_none_iff_exists'.mp hne.symm
    exact .conflict hpath hne hwrites rfl

/-- Theirs' change of a path that ours changed. -/
theorem find_theirs {base theirs : Tree} (hpath : path ≠ []) (hshared : shared [] path = true) :
    (diffTrees localeLe base theirs).find? (fun change => change.path = path) =
      if fileAt base path = fileAt theirs path then none
      else some ⟨path, fileAt base path, fileAt theirs path⟩ := by
  split
  · next heq =>
    refine List.find?_eq_none.mpr fun change hmem hsame => ?_
    obtain rfl := of_decide_eq_true hsame
    exact (mem_diffTrees.mp hmem).2.2.1 heq
  · next hne =>
    have hmem : (⟨path, fileAt base path, fileAt theirs path⟩ : Difference) ∈
        diffTrees localeLe base theirs := mem_diffTrees.mpr ⟨hpath, hshared, hne, rfl⟩
    rcases hfind : (diffTrees localeLe base theirs).find? (fun change => change.path = path) with
      _ | found
    · exact absurd (decide_eq_true rfl) (List.find?_eq_none.mp hfind _ hmem)
    · obtain rfl : found.path = path := by simpa using List.find?_some hfind
      exact hfind.trans (congrArg some (mem_diffTrees.mp (mem_of_find?_eq_some hfind)).2.2.2)

theorem ends_of_settle {base ours theirs : Tree}
    (hmem : ⟨path, fileAt base path, fileAt ours path⟩ ∈ diffTrees localeLe base ours)
    (h : settle diff3Merge objects origin blobId theirs (diffTrees localeLe base theirs)
      ⟨path, fileAt base path, fileAt ours path⟩ = .ok outcome) :
    Ends diff3Merge objects origin blobId path (fileAt base path) (fileAt ours path)
      (fileAt theirs path) outcome := by
  obtain ⟨hpath, hshared, hchanged, -⟩ := mem_diffTrees.mp hmem
  rw [settle] at h
  rw [find_theirs hpath hshared] at h
  by_cases hbase : fileAt base path = fileAt theirs path
  · rw [if_pos hbase] at h
    have hne : fileAt ours path ≠ fileAt theirs path := fun heq => hchanged (hbase.trans heq.symm)
    dsimp only at h
    split at h
    · next hclash =>
      have hsome := (Bool.and_eq_true _ _ ▸ hclash).1
      have hours : fileAt ours path ≠ none := fun hnone => by rw [hnone] at hsome; cases hsome
      exact ends_of_conflict h hne (.inl hours) fun hnone => absurd hnone hours
    · obtain rfl := Except.ok.inj h
      exact .alone hbase
  · rw [if_neg hbase] at h
    dsimp only at h
    split at h
    · next hsame =>
      obtain rfl := Except.ok.inj h
      exact .same hsame
    · next hne =>
      obtain ⟨merged, hmerged, h⟩ := bind_ok h
      split at h
      · next bytes file hours =>
        obtain rfl := Except.ok.inj h
        exact .merged hbase hne hours hmerged
      · exact ends_of_conflict h hne (.inr hbase) fun _ => rfl

end

/-! ## What a merge gathers -/

/-- What is gathered of the paths and what becomes of them. -/
structure Gathered (pairs : List (Difference × Outcome)) (merging : Merging) : Prop where
  distinct : Distinct merging.changes
  changes : ∀ path change, valueAt merging.changes path = some change ↔
    ∃ pair ∈ pairs, pair.1.path = path ∧ pair.2 = .change change
  conflicts : ∀ entry, entry ∈ merging.conflicts ↔
    ∃ pair ∈ pairs, ∃ mode, pair.2 = .conflict entry mode
  modes : ∀ path mode, valueAt merging.modes path = some mode ↔
    ∃ pair ∈ pairs, ∃ entry, pair.1.path = path ∧ pair.2 = .conflict entry (some mode)

theorem gathered_foldl {pairs : List (Difference × Outcome)}
    (hsame : ∀ a ∈ pairs, ∀ b ∈ pairs, a.1.path = b.1.path → a = b) :
    Gathered pairs (pairs.foldl (fun merging pair => merging.add pair.1.path pair.2)
      ⟨[], [], []⟩) := by
  induction pairs using List.reverseRecOn with
  | nil => exact ⟨.nil, by simp [valueAt], by simp, by simp [valueAt]⟩
  | append_singleton pairs pair ih =>
    obtain ⟨distinct, changes, conflicts, modes⟩ := ih fun a ha b hb =>
      hsame a (mem_append_left _ ha) b (mem_append_left _ hb)
    have hlast : ∀ a ∈ pairs, pair.1.path = a.1.path → pair = a := fun a ha => hsame pair
      (mem_append_right _ (mem_singleton_self _)) a
        (mem_append_left _ ha)
    rw [foldl_append, foldl_cons, foldl_nil]
    obtain ⟨difference, outcome⟩ := pair
    cases outcome with
    | theirs =>
      refine ⟨distinct, fun path change => ?_, fun entry => ?_, fun path mode => ?_⟩
      · rw [exists_mem_append, Merging.add, changes]
        simp
      · rw [exists_mem_append, Merging.add, conflicts]
        simp
      · rw [exists_mem_append, Merging.add, modes]
        simp
    | change given =>
      refine ⟨distinct_setAt distinct, fun path change => ?_, fun entry => ?_,
        fun path mode => ?_⟩
      · rw [exists_mem_append, Merging.add]
        refine (valueAt_setAt_iff (changes path change) ?_).trans ?_
        · rintro ⟨a, ha, rfl, houtcome⟩ heq
          obtain rfl := hlast a ha heq
          exact Outcome.change.inj houtcome
        · simp
      · rw [exists_mem_append, Merging.add, conflicts]
        simp
      · rw [exists_mem_append, Merging.add, modes]
        simp
    | conflict given mode =>
      refine ⟨distinct, fun path change => ?_, fun entry => ?_, fun path other => ?_⟩
      · rw [exists_mem_append, Merging.add, changes]
        simp
      · rw [exists_mem_append, Merging.add, mem_append, mem_singleton, conflicts]
        simp [eq_comm]
      · rw [exists_mem_append, Merging.add]
        cases mode with
        | none =>
          rw [Option.elim, modes]
          simp
        | some mode =>
          refine (valueAt_setAt_iff (modes path other) ?_).trans ?_
          · rintro ⟨a, ha, entry, rfl, houtcome⟩ heq
            obtain rfl := hlast a ha heq
            exact Option.some.inj (Outcome.conflict.inj houtcome).2
          · simp

/-- What the merge keeps of a path, by what becomes of it. -/
def Merging.At (merging : Merging) (path : List Name) : Outcome → Prop
  | .theirs => valueAt merging.changes path = none ∧ ∀ entry ∈ merging.conflicts, entry.path ≠ path
  | .change change =>
    valueAt merging.changes path = some change ∧ ∀ entry ∈ merging.conflicts, entry.path ≠ path
  | .conflict entry mode =>
    valueAt merging.changes path = none ∧ valueAt merging.modes path = mode ∧
      entry ∈ merging.conflicts

section

variable {localeLe : Path → Path → Bool}
variable {diff3Merge : List (List Char) → List (List Char) → List (List Char) →
  List (Diff3Block (List Char))}
variable {objects : Sha → GitObject} {origin : Origin} {blobId : List UInt8 → Sha}
variable {isIgnored : Tree → List Name → Except ReadFailure Bool}
variable {base ours theirs : Tree} {merging : Merging}

/-- The path is one that ours changed. -/
structure Changed (base ours : Tree) (path : List Name) : Prop where
  nonempty : path ≠ []
  shared : shared [] path = true
  differs : fileAt base path ≠ fileAt ours path

/-- The merge has for every path what becomes of it. -/
structure Outcomes (diff3Merge : List (List Char) → List (List Char) → List (List Char) →
    List (Diff3Block (List Char))) (objects : Sha → GitObject) (origin : Origin)
    (blobId : List UInt8 → Sha) (base ours theirs : Tree) (merging : Merging) : Prop where
  distinct : Distinct merging.changes
  changed : ∀ path, Changed base ours path → ∃ outcome,
    Ends diff3Merge objects origin blobId path (fileAt base path) (fileAt ours path)
      (fileAt theirs path) outcome ∧ merging.At path outcome
  other : ∀ path, ¬ Changed base ours path → merging.At path .theirs

theorem outcomes_of_mergeOurs (h : mergeOurs diff3Merge objects origin blobId theirs
    (diffTrees localeLe base ours) (diffTrees localeLe base theirs) = .ok merging) :
    Outcomes diff3Merge objects origin blobId base ours theirs merging := by
  obtain ⟨pairs, hitems, hpairs, hfold⟩ := foldlM_ok h
  have hdifference : ∀ pair ∈ pairs, Changed base ours pair.1.path ∧
      pair.1 = ⟨pair.1.path, fileAt base pair.1.path, fileAt ours pair.1.path⟩ := by
    intro pair hpair
    obtain ⟨hpath, hshared, hne, heq⟩ := mem_diffTrees.mp (hitems ▸ mem_map_of_mem hpair)
    exact ⟨⟨hpath, hshared, hne⟩, heq⟩
  have hends : ∀ pair ∈ pairs, Ends diff3Merge objects origin blobId pair.1.path
      (fileAt base pair.1.path) (fileAt ours pair.1.path) (fileAt theirs pair.1.path) pair.2 := by
    intro pair hpair
    have hmem : pair.1 ∈ diffTrees localeLe base ours := hitems ▸ mem_map_of_mem hpair
    have hok := hpairs pair hpair
    rw [(hdifference pair hpair).2] at hmem hok
    exact ends_of_settle hmem hok
  have hsame : ∀ a ∈ pairs, ∀ b ∈ pairs, a.1.path = b.1.path → a = b := by
    intro a ha b hb heq
    have hfirst : a.1 = b.1 := by rw [(hdifference a ha).2, (hdifference b hb).2, heq]
    have hok := hpairs a ha
    rw [hfirst, hpairs b hb] at hok
    exact Prod.ext hfirst (Except.ok.inj hok).symm
  obtain ⟨distinct, changes, conflicts, modes⟩ := hfold ▸ gathered_foldl hsame
  have hconflict : ∀ entry ∈ merging.conflicts, ∃ pair ∈ pairs, ∃ mode,
      pair.2 = .conflict entry mode ∧ entry.path = pair.1.path := by
    intro entry hentry
    obtain ⟨pair, hpair, mode, houtcome⟩ := (conflicts entry).mp hentry
    have hend := hends pair hpair
    rw [houtcome] at hend
    cases hend with
    | conflict hpath => exact ⟨pair, hpair, _, houtcome, hpath⟩
  -- what is gathered at a path is of the one pair that has it
  have hat : ∀ pair ∈ pairs, merging.At pair.1.path pair.2 := by
    intro pair hpair
    have hnone : (∀ change, pair.2 ≠ .change change) → valueAt merging.changes pair.1.path = none :=
      fun hnot => Option.eq_none_iff_forall_ne_some.mpr fun change hvalue => by
        obtain ⟨other, hother, hpath, houtcome⟩ := (changes _ _).mp hvalue
        exact hnot change (hsame other hother pair hpair hpath ▸ houtcome)
    have hapart : (∀ entry mode, pair.2 ≠ .conflict entry mode) →
        ∀ entry ∈ merging.conflicts, entry.path ≠ pair.1.path := by
      intro hnot entry hentry heq
      obtain ⟨other, hother, mode, houtcome, hpath⟩ := hconflict entry hentry
      exact hnot entry mode (hsame other hother pair hpair (hpath.symm.trans heq) ▸ houtcome)
    rcases houtcome : pair.2 with _ | change | ⟨entry, mode⟩
    · exact ⟨hnone fun change => by simp [houtcome], hapart fun entry mode => by simp [houtcome]⟩
    · exact ⟨(changes _ _).mpr ⟨pair, hpair, rfl, houtcome⟩,
        hapart fun entry mode => by simp [houtcome]⟩
    · refine ⟨hnone fun change => by simp [houtcome], ?_,
        (conflicts entry).mpr ⟨pair, hpair, mode, houtcome⟩⟩
      have hend := hends pair hpair
      rw [houtcome] at hend
      cases hend with
      | conflict => exact (modes _ _).mpr ⟨pair, hpair, entry, rfl, houtcome⟩
  refine ⟨distinct, fun path hchanged => ?_, fun path hnot => ?_⟩
  · have hmem : (⟨path, fileAt base path, fileAt ours path⟩ : Difference) ∈ pairs.map Prod.fst :=
      hitems ▸ mem_diffTrees.mpr ⟨hchanged.nonempty, hchanged.shared, hchanged.differs, rfl⟩
    obtain ⟨pair, hpair, hfirst⟩ := mem_map.mp hmem
    obtain rfl : pair.1.path = path := congrArg Difference.path hfirst
    exact ⟨pair.2, hends pair hpair, hat pair hpair⟩
  · constructor
    · refine Option.eq_none_iff_forall_ne_some.mpr fun change hvalue => ?_
      obtain ⟨pair, hpair, rfl, -⟩ := (changes _ _).mp hvalue
      exact hnot (hdifference pair hpair).1
    · rintro entry hentry rfl
      obtain ⟨pair, hpair, -, -, hpath⟩ := hconflict entry hentry
      exact hnot (hpath ▸ (hdifference pair hpair).1)

/-! ## Merging with a side that has nothing of its own -/

/-- A path that both sides changed alike is left as theirs has it. -/
theorem settle_same {base theirs : Tree} {ours : Difference}
    (h : ours ∈ diffTrees localeLe base theirs) :
    settle diff3Merge objects origin blobId theirs (diffTrees localeLe base theirs) ours =
      .ok .theirs := by
  rw [settle]
  cases hfind : (diffTrees localeLe base theirs).find? fun change => change.path = ours.path with
  | none => exact absurd (find?_eq_none.mp hfind ours h) (by simp)
  | some found =>
    have hpath : found.path = ours.path := by simpa using find?_some hfind
    have hfound := (mem_diffTrees.mp (mem_of_find?_eq_some hfind)).2.2.2
    rw [hpath] at hfound
    exact if_pos (congrArg Difference.after ((mem_diffTrees.mp h).2.2.2.trans hfound.symm))

/-- **A side that changed nothing, or the same, gives way**: the merge is theirs, without a
conflict. -/
theorem mergeTrees_theirs {base ours theirs : Tree} (h : ours = base ∨ ours = theirs) :
    mergeTrees localeLe diff3Merge objects origin blobId isIgnored base ours theirs [] =
      .ok (.merged theirs) := by
  have hall : ∀ changes, (∀ change ∈ changes, settle diff3Merge objects origin blobId theirs
      (diffTrees localeLe base theirs) change = .ok .theirs) →
      mergeOurs diff3Merge objects origin blobId theirs changes (diffTrees localeLe base theirs) =
        .ok ⟨[], [], []⟩ := by
    intro changes hchanges
    induction changes with
    | nil => rfl
    | cons change changes ih =>
      rw [mergeOurs, foldlM_cons, hchanges change mem_cons_self]
      exact ih (forall_mem_cons.mp hchanges).2
  rw [mergeTrees, hall _ fun change hchange => ?_]
  · cases theirs <;> rfl
  · rcases h with rfl | rfl
    · exact absurd rfl (mem_diffTrees.mp hchange).2.2.1
    · exact settle_same hchange

theorem mergeTrees_theirs_added :
    mergeTrees (fun _ _ => true) (fun _ _ _ => []) (fun _ => ⟨.blob, []⟩)
        OriginObjects.markedOrigin (fun _ => []) (fun _ _ => .ok false) []
        [("a".toList, .leaf ⟨[], FILE_MODE⟩)] [("a".toList, .leaf ⟨[], FILE_MODE⟩)] [] =
      .ok (.merged [("a".toList, .leaf ⟨[], FILE_MODE⟩)]) :=
  mergeTrees_theirs (.inr rfl)

end

end Catamorphic.Git.Trees
