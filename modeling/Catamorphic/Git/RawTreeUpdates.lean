import Catamorphic.Git.MissingDeletes
import Catamorphic.Git.RawTrees
import Catamorphic.Lib.RenamedFolders

/-!
# Trees that are rewritten

A tree is written with its changes as a tree by the keys of its names would be, and stays in git's
order, with no empty folder at any level.
-/

namespace Catamorphic.Git.RawTrees

open Folders Trees Maps List

/-! ## Git's order -/

theorem compareBytes_cons (a b : UInt8) (as bs : List UInt8) : compareBytes (a :: as) (b :: bs) =
    if (a.toNat : Int) - b.toNat ≠ 0 then (a.toNat : Int) - b.toNat else compareBytes as bs := rfl

theorem compareBytes_flip (as bs : List UInt8) : compareBytes bs as = -compareBytes as bs := by
  induction as generalizing bs with
  | nil => cases bs <;> simp [compareBytes]
  | cons a as ih =>
    cases bs with
    | nil => simp [compareBytes]
    | cons b bs =>
      rw [compareBytes_cons, compareBytes_cons, ih bs]
      split_ifs <;> omega

theorem compareBytes_trans {as bs cs : List UInt8} (hab : compareBytes as bs ≤ 0)
    (hbc : compareBytes bs cs ≤ 0) : compareBytes as cs ≤ 0 := by
  induction as generalizing bs cs with
  | nil =>
    cases cs with
    | nil => simp [compareBytes]
    | cons c cs =>
      simp only [compareBytes, length_nil]
      omega
  | cons a as ih =>
    cases bs with
    | nil =>
      simp only [compareBytes, length_nil, length_cons] at hab
      omega
    | cons b bs =>
      cases cs with
      | nil =>
        simp only [compareBytes, length_nil, length_cons] at hbc
        omega
      | cons c cs =>
        rw [compareBytes_cons] at hab hbc ⊢
        split_ifs at hab hbc ⊢ with hac
        all_goals first | omega | exact ih hab hbc

theorem entryLe_trans (a b c : RawName × RawNode) (hab : entryLe a b = true)
    (hbc : entryLe b c = true) : entryLe a c = true :=
  decide_eq_true (compareBytes_trans (of_decide_eq_true hab) (of_decide_eq_true hbc))

theorem entryLe_total (a b : RawName × RawNode) : (entryLe a b || entryLe b a) = true := by
  rw [Bool.or_eq_true, entryLe, entryLe, decide_eq_true_eq, decide_eq_true_eq,
    compareBytes_flip (treeSortKey a) (treeSortKey b)]
  omega

/-! ## Valid trees -/

/-- **A tree as git has it**: its names are distinct and in git's order, and its folders are valid
trees that are not empty. -/
inductive Valid : RawTree → Prop
  | mk {entries : RawTree} : Distinct entries →
      entries.Pairwise (fun a b => entryLe a b = true) →
      (∀ name inner, (name, Entry.folder inner) ∈ entries → inner ≠ []) →
      (∀ name inner, (name, Entry.folder inner) ∈ entries → Valid inner) → Valid entries

/-- A valid tree but for the order of its own entries. -/
structure Loose (entries : RawTree) : Prop where
  distinct : Distinct entries
  filled : ∀ name inner, (name, Entry.folder inner) ∈ entries → inner ≠ []
  valid : ∀ name inner, (name, Entry.folder inner) ∈ entries → Valid inner

section

variable {entries : RawTree} {name : RawName}

theorem Valid.loose (h : Valid entries) : Loose entries := by
  obtain ⟨hdistinct, -, hfilled, hvalid⟩ := h
  exact ⟨hdistinct, hfilled, hvalid⟩

theorem valid_nil : Valid [] :=
  .mk .nil .nil (fun _ _ h => nomatch h) fun _ _ h => nomatch h

theorem Loose.serializeTree (h : Loose entries) : Valid (serializeTree entries) := by
  have hmem : ∀ entry, entry ∈ RawTrees.serializeTree entries ↔ entry ∈ entries :=
    fun entry => mem_mergeSort
  refine .mk ?_ ?_ ?_ ?_
  · exact (mergeSort_perm entries entryLe).symm.pairwise h.distinct fun h => h.symm
  · exact pairwise_mergeSort entryLe_trans entryLe_total entries
  · exact fun name inner hinner => h.filled name inner ((hmem _).mp hinner)
  · exact fun name inner hinner => h.valid name inner ((hmem _).mp hinner)

theorem Loose.inner (h : Loose entries) : Loose (Entry.inner (find entries name)) := by
  rcases hfound : find entries name with _ | ⟨⟨file⟩ | ⟨inner⟩⟩
  · exact valid_nil.loose
  · exact valid_nil.loose
  · exact (h.valid name inner (mem_of_find hfound)).loose

theorem Loose.erase (h : Loose entries) : Loose (erase entries name) where
  distinct := List.Pairwise.filter _ h.distinct
  filled wanted inner hmem := h.filled wanted inner (mem_filter.mp hmem).1
  valid wanted inner hmem := h.valid wanted inner (mem_filter.mp hmem).1

theorem Loose.put (h : Loose entries) {entry : RawNode}
    (hentry : ∀ inner, entry = .folder inner → inner ≠ [] ∧ Valid inner) :
    Loose (put entries name entry) := by
  have hmem : ∀ pair ∈ Folders.put entries name entry, pair = (name, entry) ∨ pair ∈ entries :=
    fun pair => of_mem_setAt
  constructor
  · exact distinct_setAt h.distinct
  · intro wanted inner hinner
    rcases hmem _ hinner with heq | hold
    · exact (hentry inner (Prod.mk.inj heq).2.symm).1
    · exact h.filled wanted inner hold
  · intro wanted inner hinner
    rcases hmem _ hinner with heq | hold
    · exact (hentry inner (Prod.mk.inj heq).2.symm).2
    · exact h.valid wanted inner hold

end

/-! ## Trees by the keys of their names -/

/-- The key of a name that is given by text. -/
def keyOf (name : Name) : Name := nameKey (nameBytes name)

/-- The changes by the keys of the names. -/
def keyed (changes : Changes) : Changes :=
  changes.map fun change => (change.1.map keyOf, change.2)

theorem nameKey_injective : Function.Injective nameKey := by
  intro bytes others h
  induction bytes generalizing others with
  | nil =>
    cases others with
    | nil => rfl
    | cons other others =>
      rw [nameKey, nameKey, flatMap_nil, flatMap_cons] at h
      exact absurd h.symm (by simp [hexByte])
  | cons byte bytes ih =>
    cases others with
    | nil =>
      rw [nameKey, nameKey, flatMap_nil, flatMap_cons] at h
      exact absurd h (by simp [hexByte])
    | cons other others =>
      obtain ⟨hfirst, hrest⟩ := append_inj h rfl
      rw [hexByte_inj hfirst, ih hrest]

theorem nameBytes_injective : Function.Injective nameBytes := by
  intro name other h
  have hdecode := congrArg Utf8.decode h
  rwa [nameBytes, nameBytes, Utf8.decode_encode, Utf8.decode_encode] at hdecode

theorem keyOf_injective : Function.Injective keyOf :=
  nameKey_injective.comp nameBytes_injective

section

variable {changes : Changes}

theorem hereOf_keyed : hereOf (keyed changes) =
    (hereOf changes).map fun change => (keyOf change.1, change.2) := by
  rw [hereOf, hereOf, keyed, filterMap_map, map_filterMap]
  refine filterMap_congr fun change _ => ?_
  rcases change with ⟨_ | ⟨name, _ | ⟨second, rest⟩⟩, change⟩ <;> rfl

theorem nestedIn_keyed (directory : Name) :
    nestedIn (keyed changes) (keyOf directory) = keyed (nestedIn changes directory) := by
  rw [nestedIn, nestedIn, keyed, keyed, filterMap_map, map_filterMap]
  refine filterMap_congr fun change _ => ?_
  rcases change with ⟨_ | ⟨name, _ | ⟨second, rest⟩⟩, change⟩
  · rfl
  · rfl
  · by_cases h : name = directory
    · subst h
      simp
    · have hkey : keyOf name ≠ keyOf directory := keyOf_injective.ne h
      simp [h, hkey]

theorem directoriesOf_keyed :
    directoriesOf (keyed changes) = (directoriesOf changes).map keyOf := by
  rw [directoriesOf, directoriesOf, ← eraseDups_map keyOf_injective, keyed, filterMap_map,
    map_filterMap]
  refine congrArg List.eraseDups (filterMap_congr fun change _ => ?_)
  rcases change with ⟨_ | ⟨name, _ | ⟨second, rest⟩⟩, change⟩ <;> rfl

end

/-! ## Rewriting side by side -/

section

variable {entry : Option RawNode} {other : Option Node}

section

variable (h : entry.map Entry.value = other.map Entry.value)
include h

theorem isFolder_eq : isFolder entry = Node.isFolder other := by
  rcases entry with _ | ⟨⟨_⟩ | ⟨_⟩⟩ <;> rcases other with _ | ⟨⟨_⟩ | ⟨_⟩⟩ <;>
    simp_all [Entry.value, isFolder, Node.isFolder]

theorem isLeaf_eq : isLeaf entry = Node.isLeaf other := by
  rcases entry with _ | ⟨⟨_⟩ | ⟨_⟩⟩ <;> rcases other with _ | ⟨⟨_⟩ | ⟨_⟩⟩ <;>
    simp_all [Entry.value, isLeaf, Node.isLeaf]

theorem isSymlink_eq : isSymlink entry = Node.isSymlink other := by
  rcases entry with _ | ⟨⟨_⟩ | ⟨_⟩⟩ <;> rcases other with _ | ⟨⟨_⟩ | ⟨_⟩⟩ <;>
    simp_all [Entry.value, isSymlink, Node.isSymlink]

end

theorem modeOver_eq (blob : Blob) (h : entry.map Entry.value = other.map Entry.value) :
    modeOver blob entry = Trees.modeOver blob other := by
  rcases entry with _ | ⟨⟨_⟩ | ⟨_⟩⟩ <;> rcases other with _ | ⟨⟨_⟩ | ⟨_⟩⟩ <;>
    simp_all [Entry.value, modeOver, Trees.modeOver]

end

/-- A tree that may be out of order yet, and the same by the keys of its names. -/
structure Keyed (entries : RawTree) (others : Tree) : Prop where
  loose : Loose entries
  renamed : Renamed nameKey entries others

/-- A tree that is stored, and the same by the keys of its names. -/
structure Stored (entries : RawTree) (others : Tree) : Prop where
  filled : entries ≠ []
  valid : Valid entries
  renamed : Renamed nameKey entries others

/-- The same has become of a folder. -/
inductive SameChild : Child → Trees.Child → Prop
  | keep : SameChild .keep .keep
  | gone : SameChild .gone .gone
  | rewritten {inner : RawTree} {others : Tree} : Stored inner others →
      SameChild (.rewritten inner) (.rewritten others)

section

variable {entries : RawTree} {others : Tree}

section

variable (h : Keyed entries others)
include h

theorem Keyed.inner (name : Name) : Keyed (Entry.inner (find entries (nameBytes name)))
      (Entry.inner (find others (keyOf name))) :=
  ⟨h.loose.inner, (h.renamed.find (nameBytes name)).inner⟩

theorem Keyed.put (name : Name) {entry : RawNode} {other : Node}
    (hentry : ∀ inner, entry = .folder inner → inner ≠ [] ∧ Valid inner)
    (halike : Alike nameKey (some entry) (some other)) :
    Keyed (put entries (nameBytes name) entry) (put others (keyOf name) other) :=
  ⟨h.loose.put hentry, h.renamed.put nameKey_injective halike⟩

theorem Keyed.erase (name : Name) :
    Keyed (erase entries (nameBytes name)) (erase others (keyOf name)) :=
  ⟨h.loose.erase, h.renamed.erase nameKey_injective⟩

theorem Keyed.putChild (name : Name) {child : Child}
    {other : Trees.Child} (hchild : SameChild child other) :
    Keyed (putChild entries name child) (Trees.putChild others (keyOf name) other) := by
  cases hchild with
  | keep => exact h
  | gone => exact h.erase name
  | rewritten hstored =>
    refine h.put name (fun inner heq => ?_) hstored.renamed.alike
    obtain rfl := Entry.folder.inj heq
    exact ⟨hstored.filled, hstored.valid⟩

/-- What is left is stored, if there is anything. -/
theorem Keyed.writtenOf :
    Option.Rel Stored (writtenOf entries) (if others.isEmpty then none else some others) := by
  rw [RawTrees.writtenOf, ← h.renamed.isEmpty]
  split
  · exact .none
  · next hsome =>
    have hperm := mergeSort_perm entries entryLe
    refine .some ⟨fun hnil => ?_, h.loose.serializeTree, h.renamed.perm h.loose.distinct hperm⟩
    rw [serializeTree] at hnil
    rw [hnil] at hperm
    exact hsome (List.isEmpty_iff.mpr hperm.nil_eq.symm)

end

variable (skipMissingDeletes : Bool)

theorem together_changeHere (h : Keyed entries others) (base others_base : List Name)
    (name : Name) (change : TreeChange) :
    Together Keyed (changeHere skipMissingDeletes base entries name change)
      (Trees.changeHere skipMissingDeletes others_base others (keyOf name) change) := by
  have halike : Alike nameKey (find entries (nameBytes name)) (find others (keyOf name)) :=
    h.renamed.find (nameBytes name)
  simp only [changeHere, Trees.changeHere, isFolder_eq halike.value, isSymlink_eq halike.value,
    halike.isNone]
  split
  · exact .error
  · split
    · exact .error
    · cases change with
      | none =>
        dsimp only
        split
        · split
          · exact .ok h
          · exact .error
        · exact .ok (h.erase name)
      | some blob =>
        refine .ok (h.put name (fun inner heq => by cases heq) ?_)
        rw [modeOver_eq blob halike.value]
        exact alike_leaf _

theorem together_here (h : Keyed entries others) (base others_base : List Name)
    (changes : Changes) : Together Keyed ((hereOf changes).foldlM (fun entries change =>
        changeHere skipMissingDeletes base entries change.1 change.2) entries)
      ((hereOf (keyed changes)).foldlM (fun entries change =>
        Trees.changeHere skipMissingDeletes others_base entries change.1 change.2) others) := by
  rw [hereOf_keyed]
  have hitems : List.Forall₂ (fun change other => other = (keyOf change.1, change.2))
      (hereOf changes) ((hereOf changes).map fun change => (keyOf change.1, change.2)) :=
    List.forall₂_map_right_iff.mpr (List.forall₂_same.mpr fun change _ => rfl)
  refine Together.foldlM hitems (fun entries others change other hkeyed heq => ?_) h
  subst heq
  exact together_changeHere skipMissingDeletes hkeyed base others_base change.1 change.2

/-- A folder with changes in it is rewritten, or what is there is no folder. -/
def rewriteFolder (length : Nat) (entries : RawTree) (changes : Changes) (base : List Name)
    (directory : Name) : Except DraftPathError (Name × Child) := do
  let existing := find entries (nameBytes directory)
  let inner := nestedIn changes directory
  let fullPath := base ++ [directory]
  if isSymlink existing then throw ⟨.ELOOP, fullPath⟩
  else if isLeaf existing then
    let deleting := inner.all fun change => change.2.isNone
    if deleting && skipMissingDeletes then return (directory, Child.keep)
    else throw ⟨if deleting then .ENOENT else .ENOTDIR,
      fullPath ++ (inner.head?.map Prod.fst).getD []⟩
  else
    match ← rewrite skipMissingDeletes length (Entry.inner existing) inner fullPath with
    | none => return (directory, Child.gone)
    | some entries => return (directory, Child.rewritten entries)

/-- What has become of a folder, and of the same by its key. -/
def SameFolder (child : Name × Child) (other : Name × Trees.Child) : Prop :=
  other.1 = keyOf child.1 ∧ SameChild child.2 other.2

variable {skipMissingDeletes} {length : Nat}

theorem Keyed.putChildren {children : List (Name × Child)}
    {keyedChildren : List (Name × Trees.Child)}
    (hchildren : List.Forall₂ SameFolder children keyedChildren) (h : Keyed entries others) :
    Keyed (children.foldl (fun entries child => RawTrees.putChild entries child.1 child.2) entries)
      (keyedChildren.foldl (fun entries child => Trees.putChild entries child.1 child.2)
        others) := by
  induction hchildren generalizing entries others with
  | nil => exact h
  | cons hfirst _ ih =>
    refine ih ?_
    dsimp only
    rw [hfirst.1]
    exact h.putChild _ hfirst.2

theorem together_folder {changes : Changes} {base others_base : List Name}
    {directory : Name} (h : Keyed entries others) (hinner : Together (Option.Rel Stored)
      (rewrite skipMissingDeletes length (Entry.inner (find entries (nameBytes directory)))
        (nestedIn changes directory) (base ++ [directory]))
      (Trees.rewrite skipMissingDeletes length (Entry.inner (find others (keyOf directory)))
        (keyed (nestedIn changes directory)) (others_base ++ [keyOf directory]))) :
    Together SameFolder (rewriteFolder skipMissingDeletes length entries changes base directory)
      (Trees.rewriteFolder skipMissingDeletes length others (keyed changes) others_base
        (keyOf directory)) := by
  have halike : Alike nameKey (find entries (nameBytes directory))
    (find others (keyOf directory)) :=
    h.renamed.find (nameBytes directory)
  have hdeleting : ((keyed (nestedIn changes directory)).all fun change => change.2.isNone) =
      (nestedIn changes directory).all fun change => change.2.isNone := by
    rw [keyed, all_map]
    rfl
  simp only [rewriteFolder, Trees.rewriteFolder, isSymlink_eq halike.value,
    isLeaf_eq halike.value, nestedIn_keyed, hdeleting]
  split
  · exact .error
  · split
    · split
      · exact .ok ⟨rfl, .keep⟩
      · exact .error
    · refine hinner.bind fun result other hresult => ?_
      cases hresult with
      | none => exact .ok ⟨rfl, .gone⟩
      | some hstored => exact .ok ⟨rfl, .rewritten hstored⟩

/-- **A tree and the same by its keys are rewritten alike.** -/
theorem together_rewrite {changes : Changes} {base others_base : List Name}
    (hlength : ∀ pair ∈ changes, pair.1 ≠ [] ∧ pair.1.length ≤ length) (hne : changes ≠ [])
    (h : Keyed entries others) :
    Together (Option.Rel Stored) (rewrite skipMissingDeletes length entries changes base)
      (Trees.rewrite skipMissingDeletes length others (keyed changes) others_base) := by
  induction length generalizing entries others changes base others_base with
  | zero => exact absurd (changes_nil hlength) hne
  | succ length ih =>
    refine (together_here skipMissingDeletes h base others_base changes).bind
      fun entries others hhere => ?_
    have hitems : List.Forall₂
        (fun directory other => other = keyOf directory ∧ directory ∈ directoriesOf changes)
        (directoriesOf changes) (directoriesOf (keyed changes)) := by
      rw [directoriesOf_keyed]
      exact List.forall₂_map_right_iff.mpr
        (List.forall₂_same.mpr fun directory hdirectory => ⟨rfl, hdirectory⟩)
    refine (Together.mapM hitems fun directory other hdirectory => ?_).bind
      fun children keyedChildren hchildren => .ok (hhere.putChildren hchildren).writtenOf
    obtain ⟨rfl, hdirectory⟩ := hdirectory
    exact together_folder hhere (ih (lengths_nestedIn hlength directory)
      (mem_directoriesOf.mp hdirectory) (hhere.inner directory))

end

/-! ## Writing a tree -/

/-- The names on a path as they are stored. -/
def pathBytes (path : Path) : List RawName := (segmentsOf path).map nameBytes

theorem pathBytes_injective : Function.Injective pathBytes :=
  (map_injective_iff.mpr nameBytes_injective).comp segmentsOf_injective

theorem pathBytes_ne_nil (path : Path) : pathBytes path ≠ [] := by
  rw [pathBytes, Ne, map_eq_nil_iff]
  exact segmentsOf_ne_nil path

/-- The file, link or submodule at a path. -/
def leafAt (tree : RawTree) (path : List RawName) : Option TreeFile :=
  (entryAt tree path).bind Entry.value

/-- What is to become of a path. -/
def changeAt (changes : List (Path × TreeChange)) (path : List RawName) : Option TreeChange :=
  valueAt (changes.map fun change => (pathBytes change.1, change.2)) path

/-- What a path says after the changes: what its change wrote, or what it said before. -/
def written (tree : RawTree) (changes : List (Path × TreeChange)) (path : List RawName) :
    Option TreeFile :=
  (changeAt changes path).elim (leafAt tree path) fun change =>
    change.map fun blob => ⟨blob.oid, modeOver blob (entryAt tree path)⟩

/-- **The changes fit the tree**: none is at a folder or a symbolic link, or beneath a link that is
there or is written; no file is written beneath another, but for one of the tree that is deleted;
and unless missing deletes are skipped, what is deleted is there. -/
structure Fits (skipMissingDeletes : Bool) (tree : RawTree)
    (changes : List (Path × TreeChange)) : Prop where
  place : ∀ path change, (path, change) ∈ changes →
    isFolder (entryAt tree (pathBytes path)) = false ∧
      isSymlink (entryAt tree (pathBytes path)) = false
  link : ∀ path change, (path, change) ∈ changes → ∀ above below,
    pathBytes path = above ++ below → above ≠ [] → below ≠ [] →
      isSymlink (entryAt tree above) = false ∧
        ∀ other blob, (other, some blob) ∈ changes → pathBytes other = above →
          blob.mode ≠ some symlinkMode
  room : ∀ path blob, (path, some blob) ∈ changes → ∀ above below,
    pathBytes path = above ++ below → above ≠ [] → below ≠ [] →
      (∀ other written, (other, some written) ∈ changes → pathBytes other ≠ above) ∧
        (isLeaf (entryAt tree above) = true →
          ∃ other, (other, none) ∈ changes ∧ pathBytes other = above)
  present : skipMissingDeletes = false → ∀ path, (path, none) ∈ changes →
    isLeaf (entryAt tree (pathBytes path)) = true

section

variable {skipMissingDeletes : Bool} {tree : RawTree} {others : Tree}
variable {changes : List (Path × TreeChange)} {change : TreeChange}

theorem mem_keyed {path : List Name} : (path, change) ∈ keyed (segmented changes) ↔
      ∃ file, (file, change) ∈ changes ∧ (pathBytes file).map nameKey = path := by
  have hpath : ∀ file, (pathBytes file).map nameKey = (segmentsOf file).map keyOf :=
    fun file => map_map
  simp only [keyed, segmented, mem_map, Prod.mk.injEq, Prod.exists, hpath]
  constructor
  · rintro ⟨_, _, ⟨file, change, hmem, rfl, rfl⟩, rfl, rfl⟩
    exact ⟨file, hmem, rfl⟩
  · rintro ⟨file, hmem, rfl⟩
    exact ⟨_, change, ⟨file, change, hmem, rfl, rfl⟩, rfl, rfl⟩

theorem mem_keyed_file {file : Path} (h : (file, change) ∈ changes) :
    ((pathBytes file).map nameKey, change) ∈ keyed (segmented changes) :=
  mem_keyed.mpr ⟨file, h, rfl⟩

theorem keyed_ne_nil : ∀ pair ∈ keyed (segmented changes), pair.1 ≠ [] := by
  rintro ⟨path, change⟩ hmem
  obtain ⟨file, -, rfl⟩ := mem_keyed.mp hmem
  simpa using pathBytes_ne_nil file

theorem segmented_ne_nil : ∀ pair ∈ segmented changes, pair.1 ≠ [] := by
  intro pair hmem
  obtain ⟨change, -, rfl⟩ := mem_map.mp hmem
  exact segmentsOf_ne_nil _

theorem keyed_eq : keyed (segmented changes) =
    changes.map fun change => ((pathBytes change.1).map nameKey, change.2) := by
  rw [keyed, segmented, map_map]
  refine map_congr_left fun change _ => ?_
  rw [Function.comp_apply, pathBytes, map_map]
  rfl

theorem distinct_keyed (h : Distinct changes) : Distinct (keyed (segmented changes)) := by
  rw [keyed_eq]
  refine pairwise_map.mpr (h.imp fun hne heq => hne ?_)
  exact pathBytes_injective (map_injective_iff.mpr nameKey_injective heq)

theorem valueAt_keyed (path : List RawName) :
    valueAt (keyed (segmented changes)) (path.map nameKey) = changeAt changes path := by
  rw [keyed_eq, changeAt]
  induction changes with
  | nil => rfl
  | cons first changes ih =>
    have hpath : (pathBytes first.1).map nameKey = path.map nameKey ↔ pathBytes first.1 = path :=
      (map_injective_iff.mpr nameKey_injective).eq_iff
    simp only [map_cons, valueAt_cons, hpath, ih]

section

variable (h : Renamed nameKey tree others)
include h

theorem writable_iff (path : List RawName) : Writable (entryAt others (path.map nameKey)) ↔
      isFolder (entryAt tree path) = false ∧ isSymlink (entryAt tree path) = false := by
  rw [isFolder_eq (h.same path), isSymlink_eq (h.same path)]
  rfl

theorem fits_of_keyed (hfits : Trees.Fits others (keyed (segmented changes)))
    (hpresent : skipMissingDeletes = false → Present others (keyed (segmented changes))) :
    Fits skipMissingDeletes tree changes where
  place path change hmem := (writable_iff h _).mp (hfits.place _ _ (mem_keyed_file hmem))
  link := by
    intro path change hmem above below heq habove hbelow
    obtain ⟨hlink, hmode⟩ := hfits.link _ _ (mem_keyed_file hmem) (above.map nameKey)
      (below.map nameKey) (by rw [heq, map_append]) (by simpa using habove)
      (by simpa using hbelow)
    rw [← isSymlink_eq (h.same above)] at hlink
    refine ⟨hlink, fun other blob hother hsame => hmode blob ?_⟩
    exact hsame ▸ mem_keyed_file hother
  room := by
    intro path blob hmem above below heq habove hbelow
    obtain ⟨hwritten, hfile⟩ := hfits.room _ _ (mem_keyed_file hmem) (above.map nameKey)
      (below.map nameKey) (by rw [heq, map_append]) (by simpa using habove)
      (by simpa using hbelow)
    refine ⟨fun other blob hother hsame => hwritten blob (hsame ▸ mem_keyed_file hother), ?_⟩
    intro hleaf
    rw [isLeaf_eq (h.same above)] at hleaf
    obtain ⟨other, hother, hsame⟩ := mem_keyed.mp (hfile hleaf)
    exact ⟨other, hother, map_injective_iff.mpr nameKey_injective hsame⟩
  present := by
    intro hskip path hmem
    rw [isLeaf_eq (h.same _)]
    exact hpresent hskip _ (mem_keyed_file hmem)

theorem keyed_of_fits (hfits : Fits skipMissingDeletes tree changes) :
    Trees.Fits others (keyed (segmented changes)) where
  place := by
    intro path change hmem
    obtain ⟨file, hfile, rfl⟩ := mem_keyed.mp hmem
    exact (writable_iff h _).mpr (hfits.place file change hfile)
  link := by
    intro path change hmem above below heq habove hbelow
    obtain ⟨file, hfile, rfl⟩ := mem_keyed.mp hmem
    obtain ⟨up, down, hpath, rfl, rfl⟩ := map_eq_append_iff.mp heq
    obtain ⟨hlink, hmode⟩ := hfits.link file change hfile up down hpath (by simpa using habove)
      (by simpa using hbelow)
    rw [isSymlink_eq (h.same up)] at hlink
    refine ⟨hlink, fun blob hblob => ?_⟩
    obtain ⟨other, hother, hsame⟩ := mem_keyed.mp hblob
    exact hmode other blob hother (map_injective_iff.mpr nameKey_injective hsame)
  room := by
    intro path blob hmem above below heq habove hbelow
    obtain ⟨file, hfile, rfl⟩ := mem_keyed.mp hmem
    obtain ⟨up, down, hpath, rfl, rfl⟩ := map_eq_append_iff.mp heq
    obtain ⟨hwritten, hdeleted⟩ := hfits.room file blob hfile up down hpath (by simpa using habove)
      (by simpa using hbelow)
    constructor
    · intro other hother
      obtain ⟨written, hwrites, hsame⟩ := mem_keyed.mp hother
      exact hwritten written other hwrites (map_injective_iff.mpr nameKey_injective hsame)
    · intro hleaf
      rw [← isLeaf_eq (h.same up)] at hleaf
      obtain ⟨other, hother, rfl⟩ := hdeleted hleaf
      exact mem_keyed_file hother

theorem present_of_fits
    (hfits : Fits skipMissingDeletes tree changes) (hskip : skipMissingDeletes = false) :
    Present others (keyed (segmented changes)) := by
  intro path hmem
  obtain ⟨file, hfile, rfl⟩ := mem_keyed.mp hmem
  rw [← isLeaf_eq (h.same _)]
  exact hfits.present hskip file hfile

omit h in
/-- What is stored, or nothing, as a tree of its own. -/
theorem valid_getD {result : Option RawTree} {other : Option Tree}
    (h : Option.Rel Stored result other) :
    Valid (result.getD []) ∧ Renamed nameKey (result.getD []) (other.getD []) := by
  cases h with
  | none => exact ⟨valid_nil, renamed_nil⟩
  | some hstored => exact ⟨hstored.valid, hstored.renamed⟩

omit h in
theorem together_writeTree (htree : Valid tree) (h : Renamed nameKey tree others)
    (changes : List (Path × TreeChange)) :
    Together (fun result other => Valid result ∧ Renamed nameKey result other)
      (writeTree skipMissingDeletes tree changes)
      (Trees.writeTree skipMissingDeletes others (keyed (segmented changes))) := by
  have hkeyed : Keyed tree others := ⟨htree.loose, h⟩
  have hlengths : ((keyed (segmented changes)).map fun change => change.1.length) =
      (segmented changes).map fun change => change.1.length := by
    rw [keyed, map_map]
    exact map_congr_left fun change _ => length_map _
  rw [writeTree, Trees.writeTree, hlengths]
  by_cases hnil : segmented changes = []
  · -- nothing changes, and the tree is written as it is
    rw [hnil]
    have hwritten := valid_getD hkeyed.writtenOf
    refine .ok ⟨hwritten.1, ?_⟩
    rcases hempty : others.isEmpty with _ | _
    · simpa [hempty] using hwritten.2
    · simpa [List.isEmpty_iff.mp hempty] using hwritten.2
  · exact (together_rewrite (lengths_max segmented_ne_nil) hnil hkeyed).map
      fun result other => valid_getD

theorem leafAt_eq (path : List RawName) :
    leafAt tree path = Trees.leafAt others (path.map nameKey) := by
  have hsame := h.same path
  rw [kindAt, kindAt] at hsame
  rw [leafAt, Trees.leafAt]
  revert hsame
  rcases entryAt tree path with _ | ⟨⟨_⟩ | ⟨_⟩⟩ <;>
    rcases entryAt others (path.map nameKey) with _ | ⟨⟨_⟩ | ⟨_⟩⟩ <;> simp [Entry.value]

theorem written_eq (path : List RawName) : written tree changes path =
      Trees.written others (keyed (segmented changes)) (path.map nameKey) := by
  rw [written, Trees.written, valueAt_keyed]
  rcases changeAt changes path with _ | _ | blob
  · exact leafAt_eq h path
  · rfl
  · exact congrArg (fun mode => some (TreeFile.mk blob.oid mode)) (modeOver_eq blob (h.same path))

end

theorem leafAt_nil : leafAt tree [] = none := by
  rfl

theorem changeAt_nil : changeAt changes [] = none := by
  refine valueAt_eq_none fun change hmem => ?_
  obtain ⟨⟨path, _⟩, -, heq⟩ := mem_map.mp hmem
  exact pathBytes_ne_nil path (Prod.mk.inj heq).1

/-- **A tree that is written is updated path by path**: writing succeeds exactly where the changes
fit, and the result is a valid tree with the files of the old one, but for what was changed. -/
theorem writeTree_updates (skipMissingDeletes : Bool) (htree : Valid tree)
    (hdistinct : Distinct changes) :
    ((∃ result, writeTree skipMissingDeletes tree changes = .ok result) ↔
      Fits skipMissingDeletes tree changes) ∧
    ∀ result, writeTree skipMissingDeletes tree changes = .ok result →
      Valid result ∧ ∀ path, leafAt result path = written tree changes path := by
  have hrenamed := renamed_under nameKey_injective tree
  have htogether := @together_writeTree skipMissingDeletes tree _ htree hrenamed changes
  have hkeyed := distinct_keyed hdistinct
  have hfits := @writeTree_ok_iff (under nameKey tree) _ hkeyed keyed_ne_nil
  have hstricter := @writeTree_stricter (under nameKey tree) _ hkeyed keyed_ne_nil
  constructor
  · rw [htogether.ok_iff]
    cases skipMissingDeletes with
    | true =>
        rw [hfits]
        exact ⟨fun h => fits_of_keyed hrenamed h nofun, keyed_of_fits hrenamed⟩
    | false =>
        constructor
        · rintro ⟨other, hother⟩
          obtain ⟨htrue, hpresent⟩ := (hstricter other).mp hother
          exact fits_of_keyed hrenamed (hfits.mp ⟨other, htrue⟩) fun _ => hpresent
        · intro h
          obtain ⟨other, hother⟩ := hfits.mpr (keyed_of_fits hrenamed h)
          exact ⟨other, (hstricter other).mpr ⟨hother, present_of_fits hrenamed h rfl⟩⟩
  · intro result hresult
    obtain ⟨other, hother, hvalid, hsame⟩ := htogether.of_ok hresult
    refine ⟨hvalid, fun path => ?_⟩
    have htrue : Trees.writeTree true (under nameKey tree) (keyed (segmented changes)) =
        .ok other := by
      cases skipMissingDeletes with
      | true => exact hother
      | false => exact ((hstricter other).mp hother).1
    by_cases hpath : path = []
    · subst hpath
      rw [leafAt_nil, written, changeAt_nil, leafAt_nil]
      rfl
    · rw [leafAt_eq hsame, written_eq hrenamed]
      exact leafAt_writeTree hkeyed keyed_ne_nil htrue (by simpa using hpath)

end

/-! ## A tree with one file -/

/-- A tree whose one file is in a folder. -/
def nested : RawTree := [([0x61], .folder [([0x62], .leaf ⟨[], FILE_MODE⟩)])]

/-- The file in the folder is deleted, and another is written beside. -/
def movedOut : List (Path × TreeChange) :=
  [("a/b".toList, none), ("c".toList, some ⟨['1'], none⟩)]

theorem valid_nested : Valid nested := by
  have hinner : Valid [([0x62], .leaf ⟨[], FILE_MODE⟩)] := by
    refine .mk (by simp [Distinct]) (by simp) ?_ ?_ <;> simp
  refine .mk (by simp [Distinct, nested]) (by simp [nested]) ?_ ?_
  · rintro name inner hmem
    obtain ⟨-, rfl⟩ : name = [0x61] ∧ inner = _ := by simpa [nested] using hmem
    exact cons_ne_nil _ _
  · rintro name inner hmem
    obtain ⟨-, rfl⟩ : name = [0x61] ∧ inner = _ := by simpa [nested] using hmem
    exact hinner

theorem writeTree_updates_movedOut :
    ((∃ result, writeTree true nested movedOut = .ok result) ↔ Fits true nested movedOut) ∧
      ∀ result, writeTree true nested movedOut = .ok result →
        Valid result ∧ ∀ path, leafAt result path = written nested movedOut path :=
  writeTree_updates true valid_nested (by simp [Distinct, movedOut])

/-- A deletion fails where no file is written, and a file is not written at a folder although the
folder's one file is deleted with it. -/
theorem writeTree_refused :
    writeTree false [] [("a".toList, none)] = .error ⟨.ENOENT, ["a".toList]⟩ ∧
      writeTree true nested [("a/b".toList, none), ("a".toList, some ⟨['1'], none⟩)] =
        .error ⟨.EISDIR, ["a".toList]⟩ :=
  ⟨rfl, rfl⟩

end Catamorphic.Git.RawTrees
