import Catamorphic.Lib.Folders
import Catamorphic.Lib.Maps

/-!
# Folders under other names

Two trees say the same, the one under other names, when their paths lead to the same leaves and to
folders alike. Nothing hangs on the order of the entries.
-/

namespace Catamorphic.Folders

open Maps List

variable {Name Other Leaf : Type}

/-- A leaf's value; none of a folder. -/
def Entry.value : Entry Name Leaf → Option Leaf
  | .leaf value => some value
  | .folder _ => none

mutual

/-- An entry with its names replaced. -/
def Entry.under (key : Name → Other) : Entry Name Leaf → Entry Other Leaf
  | .leaf value => .leaf value
  | .folder entries => .folder (under key entries)

def under (key : Name → Other) : Entries Name Leaf → Entries Other Leaf
  | [] => []
  | (name, entry) :: entries => (key name, entry.under key) :: under key entries

end

variable [DecidableEq Name] [DecidableEq Other] {entry : Entry Name Leaf}

/-! ## What a path leads to -/

/-- A leaf's value, or that it is a folder. -/
def kindAt (entries : Entries Name Leaf) (path : List Name) : Option (Option Leaf) :=
  (entryAt entries path).map Entry.value

section

variable {entries : Entries Name Leaf} {name : Name} {path : List Name}

theorem kindAt_nil : kindAt entries [] = none := by
  rfl

theorem kindAt_one : kindAt entries [name] = (find entries name).map Entry.value := rfl

theorem kindAt_cons (hpath : path ≠ []) :
    kindAt entries (name :: path) = kindAt (Entry.inner (find entries name)) path := by
  obtain ⟨second, rest, rfl⟩ := exists_cons_of_ne_nil hpath
  rw [kindAt, kindAt, entryAt_cons_cons]

theorem kindAt_empty : kindAt ([] : Entries Name Leaf) path = none := by
  match path with
  | [] => rfl
  | [_] => rfl
  | _ :: _ :: _ => rfl

theorem find_of_mem (hdistinct : Distinct entries)
    (h : (name, entry) ∈ entries) : find entries name = some entry :=
  valueAt_of_mem hdistinct h

theorem mem_of_find (h : find entries name = some entry) : (name, entry) ∈ entries :=
  mem_of_valueAt h

/-- Names that are distinct are found in any order. -/
theorem find_perm {others : Entries Name Leaf} (hdistinct : Distinct entries)
    (hperm : others.Perm entries) : find others name = find entries name := by
  rcases hfound : find entries name with _ | entry
  · refine find_eq_none_iff.mpr fun old hold => ?_
    exact find_eq_none_iff.mp hfound old (hperm.mem_iff.mp hold)
  · have hothers : Distinct others := hperm.symm.pairwise hdistinct fun h => h.symm
    exact find_of_mem hothers (hperm.mem_iff.mpr (mem_of_find hfound))

theorem isEmpty_iff_find : entries.isEmpty = true ↔ ∀ name, find entries name = none := by
  rw [List.isEmpty_iff]
  constructor
  · rintro rfl name
    rfl
  · intro h
    refine eq_nil_iff_forall_not_mem.mpr fun old hold => ?_
    exact find_eq_none_iff.mp (h old.1) old hold rfl

end

/-! ## Trees that say the same -/

variable {key : Name → Other}

/-- Every path leads to the same in both, and other names lead nowhere. -/
structure Renamed (key : Name → Other) (entries : Entries Name Leaf)
    (others : Entries Other Leaf) : Prop where
  same : ∀ path, kindAt entries path = kindAt others (path.map key)
  named : ∀ path, kindAt others path ≠ none → ∃ names : List Name, path = names.map key

/-- Entries, or their absence, that say the same. -/
structure Alike (key : Name → Other) (entry : Option (Entry Name Leaf))
    (other : Option (Entry Other Leaf)) : Prop where
  value : entry.map Entry.value = other.map Entry.value
  inner : Renamed key (Entry.inner entry) (Entry.inner other)

section

variable {entries : Entries Name Leaf} {others : Entries Other Leaf} {name : Name} {other : Other}

theorem renamed_nil : Renamed key ([] : Entries Name Leaf) [] where
  same path := by rw [kindAt_empty, kindAt_empty]
  named path h := absurd kindAt_empty h

theorem alike_none : Alike key (none : Option (Entry Name Leaf)) none := ⟨rfl, renamed_nil⟩

theorem alike_leaf (value : Leaf) : Alike key (some (.leaf value)) (some (.leaf value)) :=
  ⟨rfl, renamed_nil⟩

theorem Renamed.alike (h : Renamed key entries others) :
    Alike key (some (.folder entries)) (some (.folder others)) :=
  ⟨rfl, h⟩

theorem Alike.isNone {entry : Option (Entry Name Leaf)} {other : Option (Entry Other Leaf)}
    (h : Alike key entry other) : entry.isNone = other.isNone := by
  simpa using congrArg Option.isNone h.value

theorem Renamed.find (h : Renamed key entries others) (name : Name) :
    Alike key (find entries name) (find others (key name)) where
  value := h.same [name]
  inner := by
    constructor
    · intro path
      by_cases hpath : path = []
      · rw [hpath]
        exact kindAt_nil.trans kindAt_nil.symm
      · have hsame := h.same (name :: path)
        rwa [kindAt_cons hpath, map_cons, kindAt_cons (by simpa using hpath)] at hsame
    · intro path hsome
      have hpath : path ≠ [] := by
        rintro rfl
        exact hsome kindAt_nil
      rw [← kindAt_cons hpath] at hsome
      obtain ⟨names, hnames⟩ := h.named _ hsome
      obtain ⟨_, rest, -, -, hrest⟩ := map_eq_cons_iff.mp hnames.symm
      exact ⟨rest, hrest.symm⟩

theorem Renamed.named_find (h : Renamed key entries others)
    (hfound : Folders.find others other ≠ none) : ∃ name, other = key name := by
  have hsome : kindAt others [other] ≠ none := by simpa [kindAt_one] using hfound
  obtain ⟨names, hnames⟩ := h.named _ hsome
  obtain ⟨name, _, -, hname, -⟩ := map_eq_cons_iff.mp hnames.symm
  exact ⟨name, hname.symm⟩

theorem renamed_of_find (hfind : ∀ name, Alike key (find entries name) (find others (key name)))
    (hnamed : ∀ other, find others other ≠ none → ∃ name, other = key name) :
    Renamed key entries others := by
  constructor
  · rintro (_ | ⟨name, path⟩)
    · exact kindAt_nil.trans kindAt_nil.symm
    · by_cases hpath : path = []
      · subst hpath
        exact (hfind name).value
      · rw [kindAt_cons hpath, map_cons, kindAt_cons (by simpa using hpath)]
        exact (hfind name).inner.same path
  · rintro (_ | ⟨other, path⟩) hsome
    · exact absurd kindAt_nil hsome
    · have hother : find others other ≠ none := by
        intro hnone
        refine hsome ?_
        by_cases hpath : path = []
        · rw [hpath, kindAt_one, hnone, Option.map_none]
        · rw [kindAt_cons hpath, hnone]
          exact kindAt_empty
      obtain ⟨name, rfl⟩ := hnamed other hother
      by_cases hpath : path = []
      · exact ⟨[name], by rw [hpath]; rfl⟩
      · rw [kindAt_cons hpath] at hsome
        obtain ⟨names, rfl⟩ := (hfind name).inner.named path hsome
        exact ⟨name :: names, rfl⟩

theorem Renamed.put (hkey : Function.Injective key) (h : Renamed key entries others)
    {other : Entry Other Leaf} (hentry : Alike key (some entry) (some other)) :
    Renamed key (put entries name entry) (put others (key name) other) := by
  refine renamed_of_find (fun wanted => ?_) fun wanted hfound => ?_
  · simp only [find_put, hkey.eq_iff]
    split
    · exact hentry
    · exact h.find wanted
  · rw [find_put] at hfound
    split at hfound
    · next heq => exact ⟨name, heq⟩
    · exact h.named_find hfound

theorem Renamed.erase (hkey : Function.Injective key) (h : Renamed key entries others) :
    Renamed key (erase entries name) (erase others (key name)) := by
  refine renamed_of_find (fun wanted => ?_) fun wanted hfound => ?_
  · simp only [find_erase, hkey.eq_iff]
    split
    · exact alike_none
    · exact h.find wanted
  · rw [find_erase] at hfound
    split at hfound
    · exact absurd rfl hfound
    · exact h.named_find hfound

theorem Renamed.isEmpty (h : Renamed key entries others) : entries.isEmpty = others.isEmpty := by
  rw [Bool.eq_iff_iff, isEmpty_iff_find, isEmpty_iff_find]
  constructor
  · intro hnone other
    by_contra hfound
    obtain ⟨name, rfl⟩ := h.named_find hfound
    refine hfound (Option.isNone_iff_eq_none.mp ?_)
    rw [← (h.find name).isNone, hnone]
    rfl
  · intro hnone name
    refine Option.isNone_iff_eq_none.mp ?_
    rw [(h.find name).isNone, hnone]
    rfl

theorem Renamed.perm (hdistinct : Distinct entries) {sorted : Entries Name Leaf}
    (hperm : sorted.Perm entries) (h : Renamed key entries others) : Renamed key sorted others := by
  refine renamed_of_find (fun name => ?_) fun other => h.named_find
  rw [find_perm hdistinct hperm]
  exact h.find name

theorem find_under (hkey : Function.Injective key) (name : Name) :
    find (under key entries) (key name) = (find entries name).map (Entry.under key) := by
  induction entries with
  | nil => rfl
  | cons first entries ih =>
    simp only [under, find_cons, hkey.eq_iff, ih]
    split <;> rfl

omit [DecidableEq Name] in
theorem named_of_find_under (h : find (under key entries) other ≠ none) :
    ∃ name, other = key name := by
  induction entries with
  | nil => exact absurd rfl h
  | cons first entries ih =>
    rw [under, find_cons] at h
    split at h
    · next heq => exact ⟨first.1, heq.symm⟩
    · exact ih h

/-- **Replacing the names changes nothing else**, as long as they stay apart. -/
theorem renamed_under (hkey : Function.Injective key) (entries : Entries Name Leaf) :
    Renamed key entries (under key entries) := by
  induction hheight : heights entries using Nat.strongRecOn generalizing entries with
  | ind n ih =>
    refine renamed_of_find (fun name => ?_) fun other => named_of_find_under
    rw [find_under hkey]
    rcases hfound : Folders.find entries name with _ | ⟨⟨value⟩ | ⟨inner⟩⟩
    · exact alike_none
    · exact alike_leaf value
    · have hlt : heights inner < n := by
        rw [← hheight]
        exact heights_inner_lt hfound
      exact (ih _ hlt inner rfl).alike

end

end Catamorphic.Folders
