import Catamorphic.Git.WriteTree
import Catamorphic.Lib.Maps

/-!
# What a tree says after changes were written

Writing succeeds exactly where every path fits the tree, and then a changed path says what was
written and every other path what it said before.
-/

namespace Catamorphic.Git.Trees

open Folders Maps List Option Bool

variable {changes : Changes} {name : Name}

/-! ## The changes of a level -/

theorem mem_hereOf {change : TreeChange} :
    (name, change) ∈ hereOf changes ↔ ([name], change) ∈ changes := by
  rw [hereOf, mem_filterMap]
  constructor
  · rintro ⟨⟨path, other⟩, hmem, hsome⟩
    match path, hmem, hsome with
    | [_], hmem, hsome =>
      obtain ⟨rfl, rfl⟩ := Prod.mk.inj (some.inj hsome)
      exact hmem
  · exact fun hmem => ⟨_, hmem, rfl⟩

variable {directory : Name} {path : List Name}

theorem mem_nestedIn {change : TreeChange} : (path, change) ∈ nestedIn changes directory ↔
      path ≠ [] ∧ (directory :: path, change) ∈ changes := by
  rw [nestedIn, mem_filterMap]
  constructor
  · rintro ⟨⟨whole, other⟩, hmem, hsome⟩
    match whole, hmem, hsome with
    | first :: name :: rest, hmem, hsome =>
      dsimp only at hsome
      split at hsome
      · next heq =>
        obtain ⟨rfl, rfl⟩ := Prod.mk.inj (some.inj hsome)
        exact ⟨cons_ne_nil _ _, heq ▸ hmem⟩
      · cases hsome
  · rintro ⟨hne, hmem⟩
    obtain ⟨name, rest, rfl⟩ := exists_cons_of_ne_nil hne
    exact ⟨_, hmem, if_pos rfl⟩

theorem mem_directoriesOf :
    directory ∈ directoriesOf changes ↔ nestedIn changes directory ≠ [] := by
  rw [directoriesOf, mem_eraseDups, mem_filterMap]
  constructor
  · rintro ⟨⟨whole, change⟩, hmem, hsome⟩
    match whole, hmem, hsome with
    | first :: name :: rest, hmem, hsome =>
      cases hsome
      exact ne_nil_of_mem (mem_nestedIn.mpr ⟨cons_ne_nil _ _, hmem⟩)
  · intro hne
    obtain ⟨⟨path, change⟩, hmem⟩ := exists_mem_of_ne_nil _ hne
    obtain ⟨hpath, hmem⟩ := mem_nestedIn.mp hmem
    obtain ⟨name, rest, rfl⟩ := exists_cons_of_ne_nil hpath
    exact ⟨_, hmem, rfl⟩

section

variable (h : Distinct changes)
include h

theorem distinct_hereOf : Distinct (hereOf changes) := by
  refine List.Pairwise.filterMap _ ?_ h
  rintro ⟨path, change⟩ ⟨path', change'⟩ hne here hhere here' hhere'
  match path, path', hhere, hhere' with
  | [_], [_], hhere, hhere' =>
    cases hhere
    cases hhere'
    exact fun heq => hne (congrArg (fun name => [name]) heq)

theorem distinct_nestedIn (directory : Name) : Distinct (nestedIn changes directory) := by
  refine List.Pairwise.filterMap _ ?_ h
  rintro ⟨path, change⟩ ⟨path', change'⟩ hne inner hinner inner' hinner'
  match path, path', hinner, hinner' with
  | first :: name :: rest, first' :: name' :: rest', hinner, hinner' =>
    dsimp only at hinner hinner'
    split at hinner <;> split at hinner'
    · next heq heq' =>
      cases hinner
      cases hinner'
      exact fun hsame => hne (by rw [heq, heq']; exact congrArg (directory :: ·) hsame)
    all_goals simp_all

theorem valueAt_nestedIn (hpath : path ≠ []) :
    valueAt (nestedIn changes directory) path = valueAt changes (directory :: path) := by
  rcases hchange : valueAt changes (directory :: path) with _ | change
  · refine valueAt_eq_none fun value hmem => ?_
    rw [valueAt_of_mem h (mem_nestedIn.mp hmem).2] at hchange
    cases hchange
  · exact valueAt_of_mem (distinct_nestedIn h directory)
      (mem_nestedIn.mpr ⟨hpath, mem_of_valueAt hchange⟩)

theorem valueAt_hereOf : valueAt (hereOf changes) name = valueAt changes [name] := by
  rcases hchange : valueAt changes [name] with _ | change
  · refine valueAt_eq_none fun value hmem => ?_
    rw [valueAt_of_mem h (mem_hereOf.mp hmem)] at hchange
    cases hchange
  · exact valueAt_of_mem (distinct_hereOf h) (mem_hereOf.mpr (mem_of_valueAt hchange))

end

/-! ## The changes of a tree's own files -/

/-- A file can be written there, or deleted. -/
def Writable (existing : Option Node) : Prop :=
  Node.isFolder existing = false ∧ Node.isSymlink existing = false

/-- What a change makes of an entry. -/
def changed (existing : Option Node) : Option TreeChange → Option Node
  | none => existing
  | some none => none
  | some (some blob) => some (.leaf ⟨blob.oid, modeOver blob existing⟩)

section

variable {entries out : Tree} {base : List Name} {name : Name} {change : TreeChange}

theorem changeHere_ok (h : changeHere true base entries name change = .ok out) :
    Writable (find entries name) ∧ ∀ other, find out other =
        if other = name then changed (find entries name) (some change) else find entries other := by
  simp only [changeHere] at h
  split at h
  · cases h
  · next hfolder =>
    split at h
    · cases h
    · next hlink =>
      refine ⟨⟨(not_eq_true _).mp hfolder, (not_eq_true _).mp hlink⟩, fun other => ?_⟩
      cases change with
      | none =>
        simp only [if_true] at h
        split at h
        · next hnone =>
          obtain rfl := Except.ok.inj h
          split
          · next heq =>
            subst heq
            rw [isNone_iff_eq_none.mp hnone]
            rfl
          · rfl
        · obtain rfl := Except.ok.inj h
          exact find_erase
      | some blob =>
        obtain rfl := Except.ok.inj h
        exact find_put

theorem changeHere_of_writable (h : Writable (find entries name)) :
    ∃ out, changeHere true base entries name change = .ok out := by
  simp only [changeHere, h.1, h.2]
  cases change with
  | none =>
    by_cases hnone : (find entries name).isNone
    · exact ⟨_, if_pos hnone⟩
    · exact ⟨_, if_neg hnone⟩
  | some blob => exact ⟨_, rfl⟩

variable {here : List (Name × TreeChange)}

theorem foldlM_here_ok (hdistinct : Distinct here)
    (h : here.foldlM (fun entries change => changeHere true base entries change.1 change.2)
      entries = .ok out) :
    (∀ pair ∈ here, Writable (find entries pair.1)) ∧
      ∀ other, find out other = changed (find entries other) (valueAt here other) := by
  induction here generalizing entries with
  | nil =>
    obtain rfl := Except.ok.inj h
    exact ⟨fun pair hpair => absurd hpair not_mem_nil, fun other => rfl⟩
  | cons first here ih =>
    have hpair := pairwise_cons.mp hdistinct
    rw [foldlM_cons] at h
    rcases hfirst : changeHere true base entries first.1 first.2 with error | next
    · rw [hfirst] at h
      cases h
    · rw [hfirst] at h
      obtain ⟨hwritable, hfind⟩ := changeHere_ok hfirst
      obtain ⟨hrest, hout⟩ := ih hpair.2 h
      constructor
      · rintro pair (_ | ⟨_, hmem⟩)
        · exact hwritable
        · have hother := hrest pair hmem
          rwa [hfind, if_neg fun heq => hpair.1 pair hmem heq.symm] at hother
      · intro other
        rw [hout, hfind, valueAt_cons]
        by_cases heq : other = first.1
        · subst heq
          rw [if_pos rfl, if_pos rfl, valueAt_eq_none fun value hmem => hpair.1 _ hmem rfl]
          rfl
        · rw [if_neg heq, if_neg fun hsame => heq hsame.symm]

theorem foldlM_here_of_writable (hdistinct : Distinct here)
    (h : ∀ pair ∈ here, Writable (find entries pair.1)) :
    ∃ out, here.foldlM (fun entries change => changeHere true base entries change.1 change.2)
      entries = .ok out := by
  induction here generalizing entries with
  | nil => exact ⟨entries, rfl⟩
  | cons first here ih =>
    have hpair := pairwise_cons.mp hdistinct
    obtain ⟨next, hnext⟩ :=
      @changeHere_of_writable entries base first.1 first.2 (h first (.head _))
    rw [foldlM_cons, hnext]
    refine ih hpair.2 fun pair hmem => ?_
    rw [(changeHere_ok hnext).2, if_neg fun heq => hpair.1 pair hmem heq.symm]
    exact h pair (mem_cons_of_mem _ hmem)

end

/-! ## Folders -/

/-- The entry that is left of a folder's, with what has become of the folder. -/
def Child.over (existing : Option Node) : Child → Option Node
  | .keep => existing
  | .gone => none
  | .rewritten inner => some (.folder inner)

theorem find_putChild {entries : Tree} {child : Child} :
    find (putChild entries directory child) name =
      if name = directory then child.over (find entries directory) else find entries name := by
  cases child with
  | keep =>
    rw [putChild, Child.over]
    split
    · next heq => rw [heq]
    · rfl
  | gone => exact find_erase
  | rewritten inner => exact find_put

theorem find_foldl_putChild {children : List (Name × Child)} (hdistinct : Distinct children)
    {entries : Tree} :
    find (children.foldl (fun entries child => putChild entries child.1 child.2) entries) name =
      match valueAt children name with
      | some child => child.over (find entries name)
      | none => find entries name := by
  induction children generalizing entries with
  | nil => rfl
  | cons first children ih =>
    have hpair := pairwise_cons.mp hdistinct
    rw [foldl_cons, ih hpair.2, valueAt_cons, find_putChild]
    by_cases heq : first.1 = name
    · subst heq
      rw [if_pos rfl, if_pos rfl, valueAt_eq_none fun value hmem => hpair.1 _ hmem rfl]
    · rw [if_neg heq, if_neg fun hsame => heq hsame.symm]

/-! ## What fits -/

/-- **The changes fit the tree**: nothing is written or deleted at a folder or a symbolic link, or
beneath a link, and nothing is written beneath a file, but for one that is deleted. -/
structure Fits (entries : Tree) (changes : Changes) : Prop where
  place : ∀ path change, (path, change) ∈ changes → Writable (entryAt entries path)
  link : ∀ path change, (path, change) ∈ changes → ∀ above below, path = above ++ below →
    above ≠ [] → below ≠ [] → Node.isSymlink (entryAt entries above) = false ∧
      ∀ blob, (above, some blob) ∈ changes → blob.mode ≠ some symlinkMode
  room : ∀ path blob, (path, some blob) ∈ changes → ∀ above below, path = above ++ below →
    above ≠ [] → below ≠ [] → (∀ other, (above, some other) ∉ changes) ∧
      (Node.isLeaf (entryAt entries above) = true → (above, none) ∈ changes)

/-- An entry of the tree's own, once its own files are changed. -/
def afterHere (entries : Tree) (changes : Changes) (name : Name) : Option Node :=
  changed (find entries name) (valueAt changes [name])

/-- What the tree's own level asks of the changes. -/
structure Level (entries : Tree) (changes : Changes) : Prop where
  here : ∀ name change, ([name], change) ∈ changes → Writable (find entries name)
  link : ∀ directory, nestedIn changes directory ≠ [] →
    Node.isSymlink (afterHere entries changes directory) = false
  keep : ∀ directory, Node.isLeaf (afterHere entries changes directory) = true →
    ∀ pair ∈ nestedIn changes directory, pair.2 = none

variable {node : Option Node}

section

variable {entries : Tree} {changes : Changes} {name directory : Name} {path : List Name}
  {blob : Blob}

theorem entryAt_cons (hpath : path ≠ []) :
    entryAt entries (directory :: path) = entryAt (Entry.inner (find entries directory)) path := by
  obtain ⟨second, rest, rfl⟩ := exists_cons_of_ne_nil hpath
  exact entryAt_cons_cons

theorem inner_of_leaf (h : Node.isLeaf node = true) : Entry.inner node = [] := by
  match node, h with
  | some (.leaf _), _ => rfl

theorem entryAt_nil (path : List Name) : entryAt ([] : Tree) path = none := by
  match path with
  | [] => rfl
  | [_] => rfl
  | _ :: _ :: _ => rfl

theorem inner_of_writable (h : Writable node) : Entry.inner node = [] := by
  match node, h with
  | none, _ => rfl
  | some (.leaf _), _ => rfl
  | some (.folder _), h => cases h.1

theorem inner_changed {change : TreeChange} : Entry.inner (changed node (some change)) = [] := by
  cases change <;> rfl

/-- What is in a folder is no matter of the tree's own files. -/
theorem inner_afterHere
    (here : ∀ name change, ([name], change) ∈ changes → Writable (find entries name)) :
    Entry.inner (afterHere entries changes directory) = Entry.inner (find entries directory) := by
  unfold afterHere
  rcases hchange : valueAt changes [directory] with _ | change
  · rfl
  · rw [inner_changed, inner_of_writable (here _ _ (mem_of_valueAt hchange))]

theorem symlink_modeOver (h : Writable node) (hmode : blob.mode ≠ some symlinkMode) :
    modeOver blob node ≠ symlinkMode := by
  rcases hblob : blob.mode with _ | mode
  · match node, h with
    | none, _ => simpa only [modeOver, hblob] using by decide
    | some (.leaf file), h =>
      simpa only [modeOver, hblob, getD_none, Node.isSymlink, decide_eq_false_iff_not]
        using h.2
    | some (.folder _), h => cases h.1
  · match node, h with
    | none, _ =>
      simp only [modeOver, hblob, getD_some]
      exact fun heq => hmode (by rw [hblob, heq])
    | some (.leaf file), h =>
      simp only [modeOver, hblob, getD_some]
      exact fun heq => hmode (by rw [hblob, heq])
    | some (.folder _), h => cases h.1

theorem modeOver_symlink (hmode : blob.mode = some symlinkMode) :
    modeOver blob node = symlinkMode := by
  match node with
  | none => simp only [modeOver, hmode, getD_some]
  | some (.leaf file) => simp only [modeOver, hmode, getD_some]
  | some (.folder _) => simp only [modeOver, hmode, getD_some]

section

variable (hdistinct : Distinct changes)
include hdistinct

theorem Fits.level (h : Fits entries changes) : Level entries changes := by
  have here : ∀ name change, ([name], change) ∈ changes → Writable (find entries name) :=
    fun name => h.place [name]
  refine ⟨here, fun directory hnested => ?_, fun directory hleaf pair hpair => ?_⟩
  · obtain ⟨⟨path, change⟩, hmem⟩ := exists_mem_of_ne_nil _ hnested
    obtain ⟨hpath, hmem⟩ := mem_nestedIn.mp hmem
    obtain ⟨hlink, hmode⟩ := h.link _ _ hmem [directory] path rfl (by simp) hpath
    unfold afterHere
    rcases hchange : valueAt changes [directory] with _ | _ | blob
    · exact hlink
    · rfl
    · have hblob := mem_of_valueAt hchange
      exact decide_eq_false (symlink_modeOver (here _ _ hblob) (hmode blob hblob))
  · obtain ⟨path, change⟩ := pair
    obtain ⟨hpath, hmem⟩ := mem_nestedIn.mp hpair
    rcases change with _ | blob
    · rfl
    · obtain ⟨hwritten, hfile⟩ := h.room _ blob hmem [directory] path rfl (by simp) hpath
      unfold afterHere at hleaf
      rcases hchange : valueAt changes [directory] with _ | _ | other
      · rw [hchange] at hleaf
        rw [valueAt_of_mem hdistinct (hfile hleaf)] at hchange
        cases hchange
      · rw [hchange] at hleaf
        cases hleaf
      · exact absurd (mem_of_valueAt hchange) (hwritten other)

omit hdistinct in
theorem Fits.nested (h : Fits entries changes) (directory : Name) :
    Fits (Entry.inner (find entries directory)) (nestedIn changes directory) where
  place := by
    intro path change hmem
    obtain ⟨hpath, hmem⟩ := mem_nestedIn.mp hmem
    have hplace := h.place _ _ hmem
    rwa [entryAt_cons hpath] at hplace
  link := by
    rintro path change hmem above below rfl habove hbelow
    obtain ⟨hlink, hmode⟩ := h.link _ _ (mem_nestedIn.mp hmem).2 (directory :: above) below rfl
      (by simp) hbelow
    rw [entryAt_cons habove] at hlink
    exact ⟨hlink, fun blob hblob => hmode blob (mem_nestedIn.mp hblob).2⟩
  room := by
    rintro path blob hmem above below rfl habove hbelow
    obtain ⟨hwritten, hfile⟩ := h.room _ _ (mem_nestedIn.mp hmem).2 (directory :: above) below rfl
      (by simp) hbelow
    rw [entryAt_cons habove] at hfile
    exact ⟨fun other hother => hwritten other (mem_nestedIn.mp hother).2,
      fun hleaf => mem_nestedIn.mpr ⟨habove, hfile hleaf⟩⟩

/-- What is no leaf afterwards was not written, and was deleted if it was one. -/
theorem afterHere_of_leaf (h : Node.isLeaf (afterHere entries changes directory) = false) :
    (∀ blob, ([directory], some blob) ∉ changes) ∧
      (Node.isLeaf (find entries directory) = true → ([directory], none) ∈ changes) := by
  unfold afterHere at h
  constructor
  · intro blob hmem
    rw [valueAt_of_mem hdistinct hmem] at h
    cases h
  · intro hleaf
    rcases hchange : valueAt changes [directory] with _ | _ | blob
    · rw [hchange] at h
      rw [changed, hleaf] at h
      cases h
    · exact mem_of_valueAt hchange
    · rw [hchange] at h
      cases h

theorem link_here (here : ∀ name change, ([name], change) ∈ changes → Writable (find entries name))
    (h : Node.isSymlink (afterHere entries changes directory) = false) :
    Node.isSymlink (find entries directory) = false ∧
      ∀ blob, ([directory], some blob) ∈ changes → blob.mode ≠ some symlinkMode := by
  unfold afterHere at h
  constructor
  · rcases hchange : valueAt changes [directory] with _ | change
    · rwa [hchange] at h
    · exact (here _ _ (mem_of_valueAt hchange)).2
  · intro blob hmem hmode
    rw [valueAt_of_mem hdistinct hmem, changed] at h
    simp only [modeOver_symlink hmode] at h
    cases h

theorem fits_of_level (hnonempty : ∀ pair ∈ changes, pair.1 ≠ []) (hlevel : Level entries changes)
    (hnested : ∀ directory, nestedIn changes directory ≠ [] →
      Node.isLeaf (afterHere entries changes directory) = false →
      Fits (Entry.inner (find entries directory)) (nestedIn changes directory)) :
    Fits entries changes := by
  -- beneath a leaf nothing is there, and everything is deleted
  have hleaf : ∀ directory, Node.isLeaf (afterHere entries changes directory) = true →
      Entry.inner (find entries directory) = [] := by
    intro directory h
    rw [← inner_afterHere hlevel.here, inner_of_leaf h]
  constructor
  · intro path change hmem
    match path, hnonempty _ hmem with
    | [name], _ => exact hlevel.here name change hmem
    | directory :: second :: rest, _ =>
      have hinner := mem_nestedIn.mpr ⟨cons_ne_nil second rest, hmem⟩
      rw [entryAt_cons (cons_ne_nil _ _)]
      rcases hcase : Node.isLeaf (afterHere entries changes directory) with _ | _
      · exact (hnested directory (ne_nil_of_mem hinner) hcase).place _ _ hinner
      · rw [hleaf directory hcase, entryAt_nil]
        exact ⟨rfl, rfl⟩
  · rintro path change hmem above below rfl habove hbelow
    match above, habove with
    | [directory], _ =>
      have hinner := mem_nestedIn.mpr ⟨hbelow, hmem⟩
      exact link_here hdistinct hlevel.here (hlevel.link directory (ne_nil_of_mem hinner))
    | directory :: second :: rest, _ =>
      have hinner := mem_nestedIn.mpr ⟨cons_ne_nil second (rest ++ below), hmem⟩
      rw [entryAt_cons (cons_ne_nil _ _)]
      rcases hcase : Node.isLeaf (afterHere entries changes directory) with _ | _
      · obtain ⟨hlink, hmode⟩ :=
          (hnested directory (ne_nil_of_mem hinner) hcase).link _ _ hinner (second :: rest)
            below rfl (cons_ne_nil _ _) hbelow
        exact ⟨hlink, fun blob hblob =>
          hmode blob (mem_nestedIn.mpr ⟨cons_ne_nil _ _, hblob⟩)⟩
      · rw [hleaf directory hcase, entryAt_nil]
        refine ⟨rfl, fun blob hblob => ?_⟩
        cases hlevel.keep directory hcase _ (mem_nestedIn.mpr ⟨cons_ne_nil _ _, hblob⟩)
  · rintro path blob hmem above below rfl habove hbelow
    match above, habove with
    | [directory], _ =>
      have hinner := mem_nestedIn.mpr ⟨hbelow, hmem⟩
      refine afterHere_of_leaf hdistinct ((not_eq_true _).mp fun hcase => ?_)
      cases hlevel.keep directory hcase _ hinner
    | directory :: second :: rest, _ =>
      have hinner := mem_nestedIn.mpr ⟨cons_ne_nil second (rest ++ below), hmem⟩
      rw [entryAt_cons (cons_ne_nil _ _)]
      have hcase : Node.isLeaf (afterHere entries changes directory) = false :=
        (not_eq_true _).mp fun hcase => by cases hlevel.keep directory hcase _ hinner
      obtain ⟨hwritten, hfile⟩ :=
        (hnested directory (ne_nil_of_mem hinner) hcase).room _ _ hinner (second :: rest)
          below rfl (cons_ne_nil _ _) hbelow
      exact ⟨fun other hother =>
        hwritten other (mem_nestedIn.mpr ⟨cons_ne_nil _ _, hother⟩),
        fun hfound => (mem_nestedIn.mp (hfile hfound)).2⟩

end

end

/-! ## Rewriting -/

/-- A folder with changes in it is rewritten. -/
def rewriteChild (length : Nat) (entries : Tree) (changes : Changes) (base : List Name)
    (directory : Name) : Except DraftPathError (Name × Child) := do
  let existing := find entries directory
  let inner := nestedIn changes directory
  let fullPath := base ++ [directory]
  if Node.isSymlink existing then throw ⟨.ELOOP, fullPath⟩
  else if Node.isLeaf existing then
    let deleting := inner.all fun change => change.2.isNone
    if deleting && true then return (directory, Child.keep)
    else throw ⟨if deleting then .ENOENT else .ENOTDIR,
      fullPath ++ (inner.head?.map Prod.fst).getD []⟩
  else
    match ← rewrite true length (Entry.inner existing) inner fullPath with
    | none => return (directory, Child.gone)
    | some entries => return (directory, Child.rewritten entries)

theorem rewrite_succ (length : Nat) (entries : Tree) (changes : Changes) (base : List Name) :
    rewrite true (length + 1) entries changes base = (do
      let entries ← (hereOf changes).foldlM
        (fun entries change => changeHere true base entries change.1 change.2) entries
      let children ← (directoriesOf changes).mapM (rewriteChild length entries changes base)
      let entries := children.foldl (fun entries child => putChild entries child.1 child.2) entries
      return if entries.isEmpty then none else some entries) := rfl

/-- What becomes of a folder whose entries are rewritten. -/
def childOf : Option Tree → Child
  | none => .gone
  | some entries => .rewritten entries

variable {result : Option Tree}

section

variable {length : Nat} {entries : Tree} {changes : Changes} {base : List Name} {directory : Name}

theorem rewriteChild_ok {result : Name × Child}
    (h : rewriteChild length entries changes base directory = .ok result) :
    result.1 = directory ∧ Node.isSymlink (find entries directory) = false ∧
      ((Node.isLeaf (find entries directory) = true ∧ result.2 = .keep ∧
          ∀ pair ∈ nestedIn changes directory, pair.2 = none) ∨
        (Node.isLeaf (find entries directory) = false ∧
          ∃ inner, rewrite true length (Entry.inner (find entries directory))
              (nestedIn changes directory) (base ++ [directory]) = .ok inner ∧
            result.2 = childOf inner)) := by
  simp only [rewriteChild] at h
  split at h
  · cases h
  · next hlink =>
    split at h
    · next hleaf =>
      split at h
      · next hdeleting =>
        obtain rfl := Except.ok.inj h
        refine ⟨rfl, (not_eq_true _).mp hlink, .inl ⟨hleaf, rfl, ?_⟩⟩
        simpa using hdeleting
      · cases h
    · next hleaf =>
      rcases hinner : rewrite true length (Entry.inner (find entries directory))
        (nestedIn changes directory) (base ++ [directory]) with error | inner
      · rw [hinner] at h
        cases h
      · rw [hinner] at h
        refine ⟨?_, (not_eq_true _).mp hlink, .inr ⟨(not_eq_true _).mp hleaf, inner, rfl, ?_⟩⟩ <;>
        · cases inner <;> obtain rfl := Except.ok.inj h <;> rfl

theorem rewriteChild_of_fits (hlink : Node.isSymlink (find entries directory) = false)
    (hkeep : Node.isLeaf (find entries directory) = true →
      ∀ pair ∈ nestedIn changes directory, pair.2 = none)
    (hinner : Node.isLeaf (find entries directory) = false →
      ∃ inner, rewrite true length (Entry.inner (find entries directory))
        (nestedIn changes directory) (base ++ [directory]) = .ok inner) :
    ∃ result, rewriteChild length entries changes base directory = .ok result := by
  simp only [rewriteChild, hlink]
  rcases hleaf : Node.isLeaf (find entries directory) with _ | _
  · obtain ⟨inner, hinner⟩ := hinner hleaf
    rw [hinner]
    cases inner <;> exact ⟨_, rfl⟩
  · have hdeleting : ((nestedIn changes directory).all fun change => change.2.isNone) = true :=
      all_eq_true.mpr fun pair hpair => by rw [hkeep hleaf pair hpair]; rfl
    rw [hdeleting]
    exact ⟨_, rfl⟩

/-- What a rewrite that succeeds leaves of the tree's entries. -/
structure Rewritten (length : Nat) (entries : Tree) (changes : Changes) (base : List Name)
    (result : Option Tree) : Prop where
  level : Level entries changes
  inside : ∀ directory, nestedIn changes directory ≠ [] →
    Node.isLeaf (afterHere entries changes directory) = false →
    ∃ inner, rewrite true length (Entry.inner (find entries directory))
        (nestedIn changes directory) (base ++ [directory]) = .ok inner ∧
      find (result.getD []) directory = inner.map Entry.folder
  other : ∀ name, (nestedIn changes name = [] ∨
      Node.isLeaf (afterHere entries changes name) = true) →
    find (result.getD []) name = afterHere entries changes name

theorem rewritten_of_ok (hdistinct : Distinct changes)
    (h : rewrite true (length + 1) entries changes base = .ok result) :
    Rewritten length entries changes base result := by
  rw [rewrite_succ] at h
  rcases hhere : (hereOf changes).foldlM
      (fun entries change => changeHere true base entries change.1 change.2) entries with _ | out
  · rw [hhere] at h
    cases h
  · rcases hchildren : (directoriesOf changes).mapM (rewriteChild length out changes base) with
      _ | children
    · rw [hhere] at h
      simp only [bind, Except.bind, hchildren] at h
      cases h
    · rw [hhere] at h
      simp only [bind, Except.bind, hchildren, pure, Except.pure, Except.ok.injEq] at h
      obtain ⟨hwritable, hfind⟩ := foldlM_here_ok (distinct_hereOf hdistinct) hhere
      have hafter : ∀ name, find out name = afterHere entries changes name := fun name => by
        rw [hfind, valueAt_hereOf hdistinct, afterHere]
      have here : ∀ name change, ([name], change) ∈ changes → Writable (find entries name) :=
        fun name change hmem => hwritable _ (mem_hereOf.mpr hmem)
      have hforall := mapM_ok hchildren
      have hdist : Distinct children := by
        rw [distinct_iff_nodup, map_eq_of_forall₂ hforall fun directory result hok =>
          (rewriteChild_ok hok).1, directoriesOf]
        exact nodup_eraseDups _
      have hresult : ∀ name, find (result.getD []) name =
          match valueAt children name with
          | some child => child.over (find out name)
          | none => find out name := by
        intro name
        rw [← find_foldl_putChild hdist, ← h]
        split
        · next hempty =>
          rw [List.isEmpty_iff.mp hempty]
          rfl
        · rfl
      have hchild : ∀ directory, nestedIn changes directory ≠ [] →
          ∃ child, valueAt children directory = some child ∧
            rewriteChild length out changes base directory = .ok (directory, child) := by
        intro directory hnested
        obtain ⟨⟨name, child⟩, hmem, hok⟩ :=
          exists_of_forall₂ hforall (mem_directoriesOf.mpr hnested)
        obtain rfl := (rewriteChild_ok hok).1
        exact ⟨child, valueAt_of_mem hdist hmem, hok⟩
      refine ⟨⟨here, fun directory hnested => ?_, fun directory hleaf pair hpair => ?_⟩,
        fun directory hnested hleaf => ?_, fun name hname => ?_⟩
      · obtain ⟨child, -, hok⟩ := hchild directory hnested
        exact hafter directory ▸ (rewriteChild_ok hok).2.1
      · obtain ⟨child, -, hok⟩ := hchild directory (ne_nil_of_mem hpair)
        rw [← hafter] at hleaf
        rcases (rewriteChild_ok hok).2.2 with ⟨-, -, hkeep⟩ | ⟨hnot, -⟩
        · exact hkeep pair hpair
        · rw [hleaf] at hnot
          cases hnot
      · obtain ⟨child, hvalue, hok⟩ := hchild directory hnested
        rw [← hafter] at hleaf
        rcases (rewriteChild_ok hok).2.2 with ⟨hnot, -⟩ | ⟨-, inner, hinner, rfl⟩
        · rw [hleaf] at hnot
          cases hnot
        · rw [hafter, inner_afterHere here] at hinner
          refine ⟨inner, hinner, ?_⟩
          rw [hresult, hvalue]
          cases inner <;> rfl
      · rw [hresult, ← hafter]
        rcases hvalue : valueAt children name with _ | child
        · rfl
        · have hnested : nestedIn changes name ≠ [] := by
            have hmem := mem_map_of_mem (f := Prod.fst) (mem_of_valueAt hvalue)
            rw [map_eq_of_forall₂ hforall fun directory result hok =>
              (rewriteChild_ok hok).1] at hmem
            exact mem_directoriesOf.mp hmem
          obtain ⟨other, hother, hok⟩ := hchild name hnested
          cases hvalue.symm.trans hother
          have hleaf := hname.resolve_left hnested
          rw [← hafter] at hleaf
          rcases (rewriteChild_ok hok).2.2 with ⟨-, hkeep, -⟩ | ⟨hnot, -⟩
          · obtain rfl : child = .keep := hkeep
            rfl
          · rw [hleaf] at hnot
            cases hnot

theorem rewrite_of_level (hdistinct : Distinct changes) (h : Level entries changes)
    (hinside : ∀ directory, nestedIn changes directory ≠ [] →
      Node.isLeaf (afterHere entries changes directory) = false →
      ∃ inner, rewrite true length (Entry.inner (find entries directory))
        (nestedIn changes directory) (base ++ [directory]) = .ok inner) :
    ∃ result, rewrite true (length + 1) entries changes base = .ok result := by
  obtain ⟨out, hhere⟩ := @foldlM_here_of_writable entries base _ (distinct_hereOf hdistinct)
    fun pair hpair => h.here _ _ (mem_hereOf.mp hpair)
  have hafter : ∀ name, find out name = afterHere entries changes name := fun name => by
    rw [(foldlM_here_ok (distinct_hereOf hdistinct) hhere).2, valueAt_hereOf hdistinct, afterHere]
  obtain ⟨children, hchildren⟩ :
      ∃ children, (directoriesOf changes).mapM (rewriteChild length out changes base) =
        .ok children := by
    refine mapM_of_ok fun directory hdirectory => ?_
    have hnested := mem_directoriesOf.mp hdirectory
    refine rewriteChild_of_fits ?_ ?_ ?_
    · rw [hafter]
      exact h.link directory hnested
    · rw [hafter]
      exact h.keep directory
    · rw [hafter, inner_afterHere h.here]
      exact hinside directory hnested
  rw [rewrite_succ, hhere]
  simp only [bind, Except.bind, hchildren]
  exact ⟨_, rfl⟩

theorem lengths_nestedIn (h : ∀ pair ∈ changes, pair.1 ≠ [] ∧ pair.1.length ≤ length + 1)
    (directory : Name) :
    ∀ pair ∈ nestedIn changes directory, pair.1 ≠ [] ∧ pair.1.length ≤ length := by
  rintro ⟨path, change⟩ hmem
  obtain ⟨hpath, hmem⟩ := mem_nestedIn.mp hmem
  have hlength := (h _ hmem).2
  exact ⟨hpath, Nat.le_of_succ_le_succ hlength⟩

theorem changes_nil (h : ∀ pair ∈ changes, pair.1 ≠ [] ∧ pair.1.length ≤ 0) : changes = [] := by
  refine eq_nil_iff_forall_not_mem.mpr fun pair hpair => ?_
  obtain ⟨hne, hlength⟩ := h pair hpair
  exact hne (eq_nil_of_length_eq_zero (Nat.le_zero.mp hlength))

/-- **Rewriting succeeds exactly where the changes fit.** -/
theorem rewrite_ok_iff (hdistinct : Distinct changes)
    (hlength : ∀ pair ∈ changes, pair.1 ≠ [] ∧ pair.1.length ≤ length) :
    (∃ result, rewrite true length entries changes base = .ok result) ↔ Fits entries changes := by
  induction length generalizing entries changes base with
  | zero =>
    obtain rfl := changes_nil hlength
    exact iff_of_true ⟨_, rfl⟩ ⟨by simp, by simp, by simp⟩
  | succ length ih =>
    have hinner := fun directory => @ih (Entry.inner (find entries directory))
      (nestedIn changes directory) (base ++ [directory]) (distinct_nestedIn hdistinct directory)
      (lengths_nestedIn hlength directory)
    constructor
    · rintro ⟨result, hok⟩
      have hrewritten := rewritten_of_ok hdistinct hok
      refine fits_of_level hdistinct (fun pair hpair => (hlength pair hpair).1)
        hrewritten.level fun directory hnested hleaf => ?_
      obtain ⟨inner, hok, -⟩ := hrewritten.inside directory hnested hleaf
      exact (hinner directory).mp ⟨inner, hok⟩
    · intro hfits
      exact rewrite_of_level hdistinct (hfits.level hdistinct) fun directory _ _ =>
        (hinner directory).mpr (hfits.nested directory)

/-! ## What is read afterwards -/

/-- The file that a path leads to; a submodule is one too. -/
def leafAt (entries : Tree) (path : List Name) : Option TreeFile :=
  match entryAt entries path with
  | some (.leaf file) => some file
  | _ => none

/-- What a path says after the changes. -/
def written (entries : Tree) (changes : Changes) (path : List Name) : Option TreeFile :=
  match valueAt changes path with
  | none => leafAt entries path
  | some none => none
  | some (some blob) => some ⟨blob.oid, modeOver blob (entryAt entries path)⟩

theorem leafAt_cons (hpath : path ≠ []) :
    leafAt entries (directory :: path) = leafAt (Entry.inner (find entries directory)) path := by
  rw [leafAt, leafAt, entryAt_cons hpath]

theorem written_cons (hdistinct : Distinct changes) (hpath : path ≠ []) :
    written entries changes (directory :: path) =
      written (Entry.inner (find entries directory)) (nestedIn changes directory) path := by
  rw [written, written, valueAt_nestedIn hdistinct hpath, entryAt_cons hpath, leafAt_cons hpath]

theorem written_one : written entries changes [directory] =
    match afterHere entries changes directory with
    | some (.leaf file) => some file
    | _ => none := by
  rw [written, afterHere]
  rcases valueAt changes [directory] with _ | _ | blob <;> rfl

/-- Beneath a leaf there is nothing, and nothing is written. -/
theorem written_beneath_leaf (h : Level entries changes)
    (hleaf : Node.isLeaf (afterHere entries changes directory) = true) (path : List Name) :
    written (Entry.inner (find entries directory)) (nestedIn changes directory) path =
      leafAt (Entry.inner (find entries directory)) path := by
  rw [written]
  rcases hvalue : valueAt (nestedIn changes directory) path with _ | _ | blob
  · rfl
  · rw [← inner_afterHere h.here, inner_of_leaf hleaf, leafAt, entryAt_nil]
  · cases h.keep directory hleaf _ (mem_of_valueAt hvalue)

/-- **What a path says after a rewrite**: the file its change wrote, or what it said before. -/
theorem rewrite_written (hdistinct : Distinct changes)
    (hlength : ∀ pair ∈ changes, pair.1 ≠ [] ∧ pair.1.length ≤ length)
    (h : rewrite true length entries changes base = .ok result) (hpath : path ≠ []) :
    leafAt (result.getD []) path = written entries changes path := by
  induction length generalizing entries changes base result path with
  | zero =>
    obtain rfl := changes_nil hlength
    obtain rfl := Except.ok.inj h
    rfl
  | succ length ih =>
    have hrewritten := rewritten_of_ok hdistinct h
    rcases path with _ | ⟨name, _ | ⟨second, rest⟩⟩
    · exact absurd rfl hpath
    · rw [written_one]
      by_cases hother : nestedIn changes name = [] ∨
          Node.isLeaf (afterHere entries changes name) = true
      · rw [leafAt, entryAt, hrewritten.other name hother]
        rcases afterHere entries changes name with _ | ⟨⟨_⟩ | ⟨_⟩⟩ <;> rfl
      · obtain ⟨hnested, hleaf⟩ := not_or.mp hother
        have hleaf := (not_eq_true _).mp hleaf
        obtain ⟨inner, -, hfind⟩ := hrewritten.inside name hnested hleaf
        rw [leafAt, entryAt, hfind]
        rcases hafter : afterHere entries changes name with _ | ⟨⟨_⟩ | ⟨_⟩⟩
        · cases inner <;> rfl
        · rw [hafter] at hleaf
          cases hleaf
        · cases inner <;> rfl
    · have hrest : second :: rest ≠ [] := cons_ne_nil _ _
      rw [written_cons hdistinct hrest, leafAt_cons hrest]
      by_cases hother : nestedIn changes name = [] ∨
          Node.isLeaf (afterHere entries changes name) = true
      · rw [hrewritten.other name hother, inner_afterHere hrewritten.level.here]
        rcases hother with hnested | hleaf
        · rw [hnested]
          rfl
        · exact (written_beneath_leaf hrewritten.level hleaf _).symm
      · obtain ⟨hnested, hleaf⟩ := not_or.mp hother
        obtain ⟨inner, hinner, hfind⟩ :=
          hrewritten.inside name hnested ((not_eq_true _).mp hleaf)
        rw [← ih (distinct_nestedIn hdistinct name) (lengths_nestedIn hlength name)
          hinner hrest, hfind]
        cases inner <;> rfl

theorem lengths_max (h : ∀ pair ∈ changes, pair.1 ≠ []) : ∀ pair ∈ changes, pair.1 ≠ [] ∧
      pair.1.length ≤ (changes.map fun change => change.1.length).foldl max 0 := by
  have hmax : ∀ (lengths : List Nat) (first : Nat), first ≤ lengths.foldl max first ∧
      ∀ n ∈ lengths, n ≤ lengths.foldl max first := by
    intro lengths
    induction lengths with
    | nil => exact fun first => ⟨Nat.le_refl _, fun n hn => absurd hn not_mem_nil⟩
    | cons n lengths ih =>
      intro first
      obtain ⟨hfirst, hrest⟩ := ih (max first n)
      refine ⟨Nat.le_trans (Nat.le_max_left _ _) hfirst, ?_⟩
      rintro m (_ | ⟨_, hm⟩)
      · exact Nat.le_trans (Nat.le_max_right _ _) hfirst
      · exact hrest m hm
  exact fun pair hpair => ⟨h pair hpair, (hmax _ 0).2 _ (mem_map_of_mem hpair)⟩

/-- **A tree is written exactly where the changes fit it.** -/
theorem writeTree_ok_iff (hdistinct : Distinct changes) (h : ∀ pair ∈ changes, pair.1 ≠ []) :
    (∃ tree, writeTree true entries changes = .ok tree) ↔ Fits entries changes := by
  rw [← @rewrite_ok_iff _ entries changes [] hdistinct (lengths_max h), writeTree]
  constructor
  · rintro ⟨tree, hok⟩
    rcases hresult : rewrite true ((changes.map fun change => change.1.length).foldl max 0) entries
      changes [] with error | result
    · rw [hresult] at hok
      cases hok
    · exact ⟨result, hresult⟩
  · rintro ⟨result, hresult⟩
    exact ⟨result.getD [], by rw [hresult]; rfl⟩

theorem leafAt_writeTree (hdistinct : Distinct changes) (h : ∀ pair ∈ changes, pair.1 ≠ [])
    {tree : Tree} (hok : writeTree true entries changes = .ok tree) {path : List Name}
    (hpath : path ≠ []) : leafAt tree path = written entries changes path := by
  rw [writeTree] at hok
  rcases hresult : rewrite true ((changes.map fun change => change.1.length).foldl max 0) entries
    changes [] with error | result
  · rw [hresult] at hok
    cases hok
  · rw [hresult] at hok
    obtain rfl := Except.ok.inj hok
    exact rewrite_written hdistinct (lengths_max h) hresult hpath

end

end Catamorphic.Git.Trees
