import Mathlib.Logic.Function.Basic

/-!
# Tables shared by several owners

A table keeps at most one row under a key, and every row has an owner. A writer inserts a
row or changes its own: a row of another owner under the same key stays as it is. Each
owner reads its own rows, so what one owner writes changes nothing that another reads.
-/

namespace Catamorphic.Table

open Option Function

variable {κ ρ σ : Type*} [DecidableEq σ]

/-- The row an owner reads under a key. -/
def own (table : κ → Option ρ) (ownerOf : ρ → σ) (owner : σ) (key : κ) : Option ρ :=
  (table key).filter (ownerOf · = owner)

/-- Something holds of every row with its key. -/
def Each (P : κ → ρ → Prop) (table : κ → Option ρ) : Prop :=
  ∀ key, ∀ row ∈ table key, P key row

/-- `insert … on conflict (key) do update … where owner = …`. -/
def upsert [DecidableEq κ] (table : κ → Option ρ) (ownerOf : ρ → σ) (key : κ) (owner : σ)
    (insert : ρ) (set : ρ → ρ) : κ → Option ρ :=
  update table key <|
    match table key with
    | none => some insert
    | some row => some (if ownerOf row = owner then set row else row)

/-- `update … where key = … and owner = …`. -/
def change [DecidableEq κ] (table : κ → Option ρ) (ownerOf : ρ → σ) (key : κ) (owner : σ)
    (set : ρ → ρ) : κ → Option ρ :=
  update table key <|
    (table key).map fun row => if ownerOf row = owner then set row else row

variable {table : κ → Option ρ} {ownerOf : ρ → σ} {key key' : κ} {owner owner' : σ}
  {insert : ρ} {set : ρ → ρ} {P : κ → ρ → Prop}

theorem own_of_none (h : table key = none) : own table ownerOf owner key = none := by
  rw [own, h, filter_none]

theorem own_of_some {row : ρ} (h : table key = some row) :
    own table ownerOf owner key = if ownerOf row = owner then some row else none := by
  rw [own, h, filter_some]
  by_cases hrow : ownerOf row = owner <;> simp

/-- Where no other owner has a row, an owner reads whatever there is. -/
theorem own_eq (h : ∀ row ∈ table key, ownerOf row = owner) :
    own table ownerOf owner key = table key := by
  cases hrow : table key with
  | none => exact own_of_none hrow
  | some row => rw [own_of_some hrow, if_pos (h row hrow)]

variable [DecidableEq κ]

/-- **An owner reads what it put under its key**: the row inserted, or its row as set. -/
theorem own_upsert_self (h : ∀ row ∈ table key, ownerOf row = owner)
    (hinsert : ownerOf insert = owner) (hset : ∀ row, ownerOf (set row) = ownerOf row) :
    own (upsert table ownerOf key owner insert set) ownerOf owner key =
      some (((own table ownerOf owner key).map set).getD insert) := by
  cases hrow : table key with
  | none => simp [own, upsert, hrow, hinsert]
  | some row =>
    have hrow' : ownerOf row = owner := h row hrow
    simp [own, upsert, hrow, hrow', hset, filter_some]

/-- What is under other keys stays. -/
theorem own_upsert_of_ne (hne : key' ≠ key) :
    own (upsert table ownerOf key owner insert set) ownerOf owner' key' =
      own table ownerOf owner' key' := by
  rw [own, upsert, update_of_ne hne, ← own]

/-- **What other owners read stays.** -/
theorem own_upsert_other (hne : owner' ≠ owner) (hinsert : ownerOf insert = owner)
    (hset : ∀ row, ownerOf (set row) = ownerOf row) (key' : κ) :
    own (upsert table ownerOf key owner insert set) ownerOf owner' key' =
      own table ownerOf owner' key' := by
  by_cases hkey : key' = key
  · subst hkey
    cases hrow : table key' with
    | none => simp [own, upsert, hrow, hinsert, Ne.symm hne]
    | some row =>
      by_cases hown : ownerOf row = owner
      · simp [own, upsert, hrow, hown, hset, Ne.symm hne, filter_some]
      · simp [own, upsert, hrow, hown]
  · exact own_upsert_of_ne hkey

theorem own_change_of_ne (hne : key' ≠ key) :
    own (change table ownerOf key owner set) ownerOf owner' key' =
      own table ownerOf owner' key' := by
  rw [own, change, update_of_ne hne, ← own]

theorem own_change_self (hset : ∀ row, ownerOf (set row) = ownerOf row) :
    own (change table ownerOf key owner set) ownerOf owner key =
      (own table ownerOf owner key).map set := by
  cases hrow : table key with
  | none => simp [own, change, hrow]
  | some row =>
    by_cases hown : ownerOf row = owner
    · simp [own, change, hrow, hown, hset, filter_some]
    · simp [own, change, hrow, hown, filter_some]

theorem own_change_other (hne : owner' ≠ owner)
    (hset : ∀ row, ownerOf (set row) = ownerOf row) (key' : κ) :
    own (change table ownerOf key owner set) ownerOf owner' key' =
      own table ownerOf owner' key' := by
  by_cases hkey : key' = key
  · subst hkey
    cases hrow : table key' with
    | none => simp [own, change, hrow]
    | some row =>
      by_cases hown : ownerOf row = owner
      · simp [own, change, hrow, hown, hset, Ne.symm hne, filter_some]
      · simp [own, change, hrow, hown]
  · exact own_change_of_ne hkey

/-- Only the owner's row is set. -/
theorem Each.upsert_own (h : Each P table) (hinsert : P key insert)
    (hset : ∀ row, ownerOf row = owner → P key row → P key (set row)) :
    Each P (upsert table ownerOf key owner insert set) := by
  intro key' row hrow
  by_cases hkey : key' = key
  · subst hkey
    rw [Table.upsert, update_self] at hrow
    cases hold : table key' with
    | none =>
      simp only [hold, mem_some_iff] at hrow
      exact hrow ▸ hinsert
    | some old =>
      simp only [hold, mem_some_iff] at hrow
      rw [← hrow]
      split
      · exact hset old ‹_› (h key' old hold)
      · exact h key' old hold
  · rw [Table.upsert, update_of_ne hkey] at hrow
    exact h key' row hrow

theorem Each.upsert (h : Each P table) (hinsert : P key insert)
    (hset : ∀ row, P key row → P key (set row)) :
    Each P (upsert table ownerOf key owner insert set) :=
  h.upsert_own hinsert fun row _ => hset row

theorem Each.change (h : Each P table) (hset : ∀ row, P key row → P key (set row)) :
    Each P (change table ownerOf key owner set) := by
  intro key' row hrow
  by_cases hkey : key' = key
  · subst hkey
    rw [Table.change, update_self, mem_def, map_eq_some_iff] at hrow
    obtain ⟨old, hold, rfl⟩ := hrow
    split
    · exact hset old (h key' old hold)
    · exact h key' old hold
  · rw [Table.change, update_of_ne hkey] at hrow
    exact h key' row hrow

section Rows

variable {row row' : ρ}

/-- A row of a table with one row set. -/
theorem update_some (h : update table key (some row) key' = some row') :
    key' = key ∧ row' = row ∨ key' ≠ key ∧ table key' = some row' := by
  by_cases hsame : key' = key
  · subst hsame
    rw [update_self] at h
    exact .inl ⟨rfl, (some.inj h).symm⟩
  · rw [update_of_ne hsame] at h
    exact .inr ⟨hsame, h⟩

/-- A row of a table with one row deleted. -/
theorem update_none (h : update table key none key' = some row') :
    key' ≠ key ∧ table key' = some row' := by
  by_cases hsame : key' = key
  · rw [hsame, update_self] at h
    cases h
  · rw [update_of_ne hsame] at h
    exact ⟨hsame, h⟩

end Rows

end Catamorphic.Table
