import Mathlib.Data.List.Basic

/-!
# Folders

A tree of named entries, each a leaf or a folder. Of the entries of a folder the first of a name
is the one that counts, so a folder's meaning is what its paths lead to.
-/

namespace Catamorphic.Folders

open List

inductive Entry (Name Leaf : Type)
  | leaf (value : Leaf)
  | folder (entries : List (Name × Entry Name Leaf))

abbrev Entries (Name Leaf : Type) := List (Name × Entry Name Leaf)

variable {Name Leaf : Type}

mutual

def Entry.same [DecidableEq Name] [DecidableEq Leaf] :
    Entry Name Leaf → Entry Name Leaf → Bool
  | .leaf value, .leaf other => value = other
  | .folder entries, .folder others => sameEntries entries others
  | _, _ => false

def sameEntries [DecidableEq Name] [DecidableEq Leaf] :
    Entries Name Leaf → Entries Name Leaf → Bool
  | [], [] => true
  | (name, entry) :: entries, (name', entry') :: entries' =>
    name = name' && entry.same entry' && sameEntries entries entries'
  | _, _ => false

end

mutual

theorem Entry.same_iff [DecidableEq Name] [DecidableEq Leaf] (entry other : Entry Name Leaf) :
    entry.same other = true ↔ entry = other := by
  cases entry with
  | leaf value => cases other <;> simp [Entry.same]
  | folder entries =>
    cases other with
    | leaf value => simp [Entry.same]
    | folder others => simp [Entry.same, sameEntries_iff entries others]

theorem sameEntries_iff [DecidableEq Name] [DecidableEq Leaf] (entries others : Entries Name Leaf) :
    sameEntries entries others = true ↔ entries = others := by
  cases entries with
  | nil => cases others <;> simp [sameEntries]
  | cons first entries =>
    cases others with
    | nil => simp [sameEntries]
    | cons second others =>
      obtain ⟨name, entry⟩ := first
      obtain ⟨name', entry'⟩ := second
      simp [sameEntries, Entry.same_iff entry entry', sameEntries_iff entries others, and_assoc]

end

instance [DecidableEq Name] [DecidableEq Leaf] : DecidableEq (Entry Name Leaf) := fun entry other =>
  decidable_of_iff _ (Entry.same_iff entry other)

mutual

/-- How deep folders are nested in an entry. -/
def Entry.height : Entry Name Leaf → Nat
  | .leaf _ => 0
  | .folder entries => heights entries

def heights : Entries Name Leaf → Nat
  | [] => 0
  | (_, entry) :: entries => max (entry.height + 1) (heights entries)

end

section

variable [DecidableEq Name]

/-- `entries.get(name)` -/
def find (entries : Entries Name Leaf) (name : Name) : Option (Entry Name Leaf) :=
  (entries.find? fun entry => entry.1 = name).map Prod.snd

/-- `entries.delete(name)` -/
def erase (entries : Entries Name Leaf) (name : Name) : Entries Name Leaf :=
  entries.filter fun entry => entry.1 ≠ name

/-- `entries.set(name, entry)` -/
def put (entries : Entries Name Leaf) (name : Name) (entry : Entry Name Leaf) :
    Entries Name Leaf :=
  if entries.any fun old => old.1 = name then
    entries.map fun old => if old.1 = name then (name, entry) else old
  else entries ++ [(name, entry)]

/-- The entry a path leads to. -/
def entryAt : Entries Name Leaf → List Name → Option (Entry Name Leaf)
  | _, [] => none
  | entries, [name] => find entries name
  | entries, name :: path =>
    match find entries name with
    | some (.folder inner) => entryAt inner path
    | _ => none

/-- The entries of a folder that may not be there. -/
def Entry.inner : Option (Entry Name Leaf) → Entries Name Leaf
  | some (.folder entries) => entries
  | _ => []

variable {entries : Entries Name Leaf} {name other : Name} {entry : Entry Name Leaf}

theorem find_cons (first : Name × Entry Name Leaf) :
    find (first :: entries) name = if first.1 = name then some first.2 else find entries name := by
  by_cases h : first.1 = name <;> simp [find, h]

theorem find_erase : find (erase entries name) other =
    if other = name then none else find entries other := by
  induction entries with
  | nil => simp [find, erase]
  | cons first entries ih =>
    rw [erase] at ih ⊢
    by_cases hname : first.1 = name
    · rw [filter_cons_of_neg (by simpa using hname), ih, find_cons]
      split_ifs with h h' <;> simp_all
    · rw [filter_cons_of_pos (by simpa using hname), find_cons, find_cons, ih]
      split_ifs <;> simp_all

theorem find_append_one : find (entries ++ [(name, entry)]) other =
    (find entries other).or (if other = name then some entry else none) := by
  induction entries with
  | nil =>
    rw [nil_append, find_cons]
    split_ifs <;> simp_all [find]
  | cons first entries ih =>
    rw [cons_append, find_cons, find_cons, ih]
    split_ifs <;> simp_all

theorem find_replaced :
    find (entries.map fun old => if old.1 = name then (name, entry) else old) other =
      if other = name then (find entries name).map fun _ => entry else find entries other := by
  induction entries with
  | nil => simp [find]
  | cons first entries ih =>
    rw [map_cons, find_cons, find_cons, find_cons, ih]
    split_ifs <;> simp_all

theorem find_eq_none_iff : find entries name = none ↔ ∀ old ∈ entries, old.1 ≠ name := by
  simp [find]

theorem find_put : find (put entries name entry) other =
    if other = name then some entry else find entries other := by
  unfold put
  split
  · next hany =>
    rw [find_replaced]
    obtain ⟨old, hold, hname⟩ := any_eq_true.mp hany
    have hsome : find entries name ≠ none := fun hnone =>
      find_eq_none_iff.mp hnone old hold (of_decide_eq_true hname)
    obtain ⟨found, hfound⟩ := Option.ne_none_iff_exists'.mp hsome
    rw [hfound, Option.map_some]
  · next hany =>
    have hnone : find entries name = none := find_eq_none_iff.mpr fun old hold heq =>
      hany (any_eq_true.mpr ⟨old, hold, decide_eq_true heq⟩)
    rw [find_append_one]
    split_ifs with hother
    · rw [hother, hnone, Option.none_or]
    · rw [Option.or_none]

theorem entryAt_cons_cons {second : Name} {path : List Name} :
    entryAt entries (name :: second :: path) =
      entryAt (Entry.inner (find entries name)) (second :: path) := by
  rw [entryAt]
  · cases find entries name with
    | none => cases path <;> simp [Entry.inner, entryAt, find]
    | some found =>
      cases found with
      | folder inner => rfl
      | leaf value => cases path <;> simp [Entry.inner, entryAt, find]
  · simp

/-- What a name leads to is no deeper than the folder. -/
theorem height_of_find (h : find entries name = some entry) : entry.height < heights entries := by
  induction entries with
  | nil => simp [find] at h
  | cons first entries ih =>
    rw [find_cons] at h
    rw [heights]
    split at h
    · cases h
      exact Nat.lt_of_lt_of_le (Nat.lt_succ_self _) (Nat.le_max_left _ _)
    · have := ih h
      omega

theorem heights_inner_lt (h : find entries name = some entry) :
    heights (Entry.inner (some entry)) < heights entries := by
  have hheight := height_of_find h
  cases entry with
  | leaf value =>
    simp only [Entry.inner, heights]
    omega
  | folder inner => simpa only [Entry.inner, Entry.height] using hheight

end

end Catamorphic.Folders
