import Catamorphic.Git.WriteTreeProof
import Catamorphic.Lib.Together

/-!
# Deleting what is not there

Unless missing deletes are skipped, a tree is written just as it is with them skipped, where every
path that is deleted leads to a file of the tree.
-/

namespace Catamorphic.Git.Trees

open Folders Maps

/-- Every path that is deleted leads to a file. -/
def Present (entries : Tree) (changes : Changes) : Prop :=
  ∀ path, (path, none) ∈ changes → Node.isLeaf (entryAt entries path) = true

section

variable {entries : Tree} {changes : Changes} {base : List Name} {directory : Name}

theorem isLeaf_of_not {node : Option Node} (hfolder : Node.isFolder node ≠ true)
    (hnone : ¬ node.isNone) : Node.isLeaf node = true := by
  match node with
  | none => exact absurd rfl hnone
  | some (.leaf _) => rfl
  | some (.folder _) => exact absurd rfl hfolder

theorem changeHere_stricter (base : List Name) (entries : Tree) (name : Name)
    (change : TreeChange) : Stricter (change = none → Node.isLeaf (find entries name) = true)
      (changeHere false base entries name change) (changeHere true base entries name change) := by
  simp only [changeHere, Bool.false_eq_true, if_false]
  split
  · exact .error _ _
  · next hfolder =>
    split
    · exact .error _ _
    · cases change with
      | some blob =>
        refine (Stricter.ok _).iff (iff_of_true trivial fun hnone => ?_)
        cases hnone
      | none =>
        dsimp only
        split
        · next hnone =>
          refine .refused _ _ fun hleaf => ?_
          rw [Option.isNone_iff_eq_none.mp hnone] at hleaf
          cases hleaf rfl
        · next hsome =>
          exact (Stricter.ok _).iff (iff_of_true trivial fun _ => isLeaf_of_not hfolder hsome)

theorem foldlM_here_stricter (hdistinct : Distinct changes) :
    Stricter (∀ name, ([name], none) ∈ changes → Node.isLeaf (find entries name) = true)
      ((hereOf changes).foldlM
        (fun entries change => changeHere false base entries change.1 change.2) entries)
      ((hereOf changes).foldlM
        (fun entries change => changeHere true base entries change.1 change.2) entries) := by
  have hkept : (hereOf changes).Pairwise fun change later => ∀ entries next,
      changeHere true base entries change.1 change.2 = .ok next →
        ((later.2 = none → Node.isLeaf (find next later.1) = true) ↔
          (later.2 = none → Node.isLeaf (find entries later.1) = true)) := by
    refine (distinct_hereOf hdistinct).imp fun {change later} hne entries next hok => ?_
    rw [(changeHere_ok hok).2, if_neg fun heq => hne heq.symm]
  have hsteps := Stricter.foldlM
    (fun entries (change : Name × TreeChange) =>
      changeHere_stricter base entries change.1 change.2) hkept entries
  refine hsteps.iff ⟨fun h name hmem => h (name, none) (mem_hereOf.mpr hmem) rfl, ?_⟩
  rintro h ⟨name, change⟩ hmem rfl
  exact h name (mem_hereOf.mp hmem)

variable (skipMissingDeletes : Bool)

/-- A folder with changes in it is rewritten, or what is there is no folder. -/
def rewriteFolder (length : Nat) (entries : Tree) (changes : Changes) (base : List Name)
    (directory : Name) : Except DraftPathError (Name × Child) := do
  let existing := find entries directory
  let inner := nestedIn changes directory
  let fullPath := base ++ [directory]
  if Node.isSymlink existing then throw ⟨.ELOOP, fullPath⟩
  else if Node.isLeaf existing then
    let deleting := inner.all fun change => change.2.isNone
    if deleting && skipMissingDeletes then return (directory, Child.keep)
    else throw ⟨if deleting then .ENOENT else .ENOTDIR,
      fullPath ++ (inner.head?.map Prod.fst).getD []⟩
  else
    match ← rewrite skipMissingDeletes length (Entry.inner existing) inner fullPath with
    | none => return (directory, Child.gone)
    | some entries => return (directory, Child.rewritten entries)

theorem rewrite_step (length : Nat) (entries : Tree) (changes : Changes) (base : List Name) :
    rewrite skipMissingDeletes (length + 1) entries changes base = (do
      let entries ← (hereOf changes).foldlM
        (fun entries change => changeHere skipMissingDeletes base entries change.1 change.2) entries
      let children ← (directoriesOf changes).mapM
        (rewriteFolder skipMissingDeletes length entries changes base)
      let entries := children.foldl (fun entries child => putChild entries child.1 child.2) entries
      return if entries.isEmpty then none else some entries) := rfl

variable {length : Nat}

theorem not_present_of_leaf (hnested : nestedIn changes directory ≠ [])
    (hdeleting : ((nestedIn changes directory).all fun change => change.2.isNone) = true) :
    ¬ Present [] (nestedIn changes directory) := by
  intro hpresent
  obtain ⟨⟨path, change⟩, hmem⟩ := List.exists_mem_of_ne_nil _ hnested
  obtain rfl : change = none := Option.isNone_iff_eq_none.mp (List.all_eq_true.mp hdeleting _ hmem)
  have hleaf := hpresent path hmem
  rw [entryAt_nil] at hleaf
  cases hleaf

theorem rewriteFolder_stricter (hnested : nestedIn changes directory ≠ []) (hinner : Stricter
      (Present (Entry.inner (find entries directory)) (nestedIn changes directory))
      (rewrite false length (Entry.inner (find entries directory)) (nestedIn changes directory)
        (base ++ [directory]))
      (rewrite true length (Entry.inner (find entries directory)) (nestedIn changes directory)
        (base ++ [directory]))) :
    Stricter (Present (Entry.inner (find entries directory)) (nestedIn changes directory))
      (rewriteFolder false length entries changes base directory)
      (rewriteFolder true length entries changes base directory) := by
  simp only [rewriteFolder, Bool.and_false, Bool.and_true, Bool.false_eq_true, if_false]
  split
  · exact .error _ _
  · split
    · next hleaf =>
      split
      · next hdeleting =>
        refine .refused _ _ ?_
        rw [inner_of_leaf hleaf]
        exact not_present_of_leaf hnested hdeleting
      · exact .error _ _
    · refine hinner.bind_ok fun inner => ?_
      cases inner <;> exact .ok _

theorem present_cons_iff (hnonempty : ∀ pair ∈ changes, pair.1 ≠ []) : Present entries changes ↔
    (∀ name, ([name], none) ∈ changes → Node.isLeaf (find entries name) = true) ∧
      ∀ directory ∈ directoriesOf changes,
        Present (Entry.inner (find entries directory)) (nestedIn changes directory) := by
  constructor
  · refine fun h => ⟨fun name => h [name], fun directory _ path hmem => ?_⟩
    obtain ⟨hpath, hmem⟩ := mem_nestedIn.mp hmem
    rw [← entryAt_cons hpath]
    exact h _ hmem
  · rintro ⟨hhere, hnested⟩ path hmem
    match path, hnonempty _ hmem with
    | [name], _ => exact hhere name hmem
    | directory :: second :: rest, _ =>
      have hinner := mem_nestedIn.mpr ⟨List.cons_ne_nil second rest, hmem⟩
      rw [entryAt_cons (List.cons_ne_nil _ _)]
      exact hnested directory (mem_directoriesOf.mpr (List.ne_nil_of_mem hinner)) _ hinner

/-- **A missing file is an error** just where a deleted path leads to none. -/
theorem rewrite_stricter (hdistinct : Distinct changes)
    (hlength : ∀ pair ∈ changes, pair.1 ≠ [] ∧ pair.1.length ≤ length) :
    Stricter (Present entries changes) (rewrite false length entries changes base)
      (rewrite true length entries changes base) := by
  induction length generalizing entries changes base with
  | zero =>
    obtain rfl := changes_nil hlength
    exact (Stricter.ok _).iff (iff_of_true trivial fun path hmem => nomatch hmem)
  | succ length ih =>
    rw [rewrite_step, rewrite_step, present_cons_iff fun pair hpair => (hlength pair hpair).1]
    refine (foldlM_here_stricter hdistinct).bind fun out hout => ?_
    refine Stricter.bind_ok ?_ fun children => .ok _
    obtain ⟨hwritable, hfind⟩ := foldlM_here_ok (distinct_hereOf hdistinct) hout
    have hafter : ∀ directory,
        Entry.inner (find out directory) = Entry.inner (find entries directory) := by
      intro directory
      rw [hfind, valueAt_hereOf hdistinct, ← afterHere]
      exact inner_afterHere fun name change hmem => hwritable _ (mem_hereOf.mpr hmem)
    refine Stricter.mapM fun directory hdirectory => ?_
    rw [← hafter]
    exact rewriteFolder_stricter (mem_directoriesOf.mp hdirectory)
      (ih (distinct_nestedIn hdistinct directory) (lengths_nestedIn hlength directory))

/-- Where no missing file is deleted, writing a tree succeeds as it does with those skipped. -/
theorem writeTree_stricter (hdistinct : Distinct changes) (h : ∀ pair ∈ changes, pair.1 ≠ []) :
    Stricter (Present entries changes) (writeTree false entries changes)
      (writeTree true entries changes) := by
  exact (rewrite_stricter hdistinct (lengths_max h)).bind_ok fun result => .ok _

end

end Catamorphic.Git.Trees
