import Mathlib.Logic.Function.Basic

/-!
# Rows under locks

Transactions of a database that show each other only what is committed. A transaction holds
the lock of every row it selects for update, changes, inserts or deletes, until it ends; while
it does, the row stands for it as it left it, and for all others as it was committed. Nobody
changes a row that another transaction holds.
-/

namespace Catamorphic.RowLocks

open Option

/-- A table, with the rows that transactions hold. -/
structure Store (κ ρ τ : Type*) where
  /-- What is committed. -/
  rows : κ → Option ρ
  /-- Who holds a row, and how it stands for them. -/
  held : κ → Option (τ × Option ρ)

variable {κ ρ τ : Type*} [DecidableEq τ]

def Store.start (rows : κ → Option ρ) : Store κ ρ τ where
  rows := rows
  held := fun _ => none

/-- A row as a transaction sees it. -/
def Store.view (s : Store κ ρ τ) (t : τ) (k : κ) : Option ρ :=
  match s.held k with
  | none => s.rows k
  | some (owner, row) => if owner = t then row else s.rows k

/-- No other transaction holds the row. -/
def Store.free (s : Store κ ρ τ) (t : τ) (k : κ) : Bool :=
  (s.held k).all fun held => held.1 = t

/-- The transaction holds the row, and leaves it so. -/
def Store.hold [DecidableEq κ] (s : Store κ ρ τ) (t : τ) (k : κ) (row : Option ρ) :
    Store κ ρ τ :=
  { s with held := Function.update s.held k (some (t, row)) }

/-- `update … where`, on one row; `none` while another transaction holds it. -/
def Store.update [DecidableEq κ] (s : Store κ ρ τ) (t : τ) (k : κ) (which : ρ → Bool)
    (set : ρ → ρ) : Option (Store κ ρ τ) :=
  match s.view t k with
  | none => some s
  | some row =>
    if which row then
      if s.free t k then some (s.hold t k (some (set row))) else none
    else some s

def Store.rollback (s : Store κ ρ τ) (t : τ) : Store κ ρ τ :=
  { s with held := fun k => (s.held k).filter fun held => held.1 ≠ t }

def Store.commit (s : Store κ ρ τ) (t : τ) : Store κ ρ τ :=
  { s.rollback t with rows := s.view t }

variable {s : Store κ ρ τ} {t t' : τ} {k k' : κ} {row : Option ρ}

theorem view_held (h : s.held k = some (t, row)) : s.view t k = row := by
  rw [Store.view, h]
  exact if_pos rfl

theorem view_other (h : s.held k = some (t, row)) (hne : t ≠ t') : s.view t' k = s.rows k := by
  rw [Store.view, h]
  exact if_neg hne

theorem view_none (h : s.held k = none) : s.view t k = s.rows k := by
  rw [Store.view, h]

/-- Who does not hold a row sees what is committed. -/
theorem view_of_not_held (h : ∀ row, s.held k ≠ some (t, row)) : s.view t k = s.rows k := by
  cases hheld : s.held k with
  | none => exact view_none hheld
  | some held =>
    obtain ⟨owner, row⟩ := held
    exact view_other hheld fun howner => h row (howner ▸ hheld)

/-- Where a transaction sees something else than what is committed, it holds the row. -/
theorem held_of_view (h : s.view t k ≠ s.rows k) : s.held k = some (t, s.view t k) := by
  cases hheld : s.held k with
  | none => exact absurd (view_none hheld) h
  | some held =>
    obtain ⟨owner, row⟩ := held
    by_cases howner : owner = t
    · subst howner
      rw [view_held hheld]
    · exact absurd (view_other hheld howner) h

theorem eq_of_free (h : s.free t k = true) {owner : τ} (hheld : s.held k = some (owner, row)) :
    owner = t := by
  rw [Store.free, hheld] at h
  exact of_decide_eq_true h

variable {which : ρ → Bool} {set : ρ → ρ} {s' : Store κ ρ τ}

section Hold

variable [DecidableEq κ]

omit [DecidableEq τ] in
@[simp] theorem hold_rows : (s.hold t k row).rows = s.rows := rfl

omit [DecidableEq τ] in
theorem hold_held_self : (s.hold t k row).held k = some (t, row) :=
  Function.update_self ..

omit [DecidableEq τ] in
theorem hold_held_of_ne (hne : k' ≠ k) : (s.hold t k row).held k' = s.held k' :=
  Function.update_of_ne hne ..

theorem hold_view_self : (s.hold t k row).view t k = row :=
  view_held hold_held_self

theorem hold_view_of_ne (hne : k' ≠ k) : (s.hold t k row).view t' k' = s.view t' k' := by
  rw [Store.view, Store.view, hold_held_of_ne hne]
  rfl

/-- **Others see nothing of what a transaction does to a row.** -/
theorem hold_view_other (hfree : s.free t k = true) (hne : t' ≠ t) :
    (s.hold t k row).view t' k' = s.view t' k' := by
  by_cases hkey : k' = k
  · subst hkey
    rw [view_other hold_held_self (Ne.symm hne), hold_rows]
    cases hheld : s.held k' with
    | none => exact (view_none hheld).symm
    | some held =>
      have hmine : s.held k' = some (t, held.2) := by
        rw [hheld, ← eq_of_free hfree hheld]
      exact (view_other hmine (Ne.symm hne)).symm
  · exact hold_view_of_ne hkey

omit [DecidableEq τ] in
/-- A row held after a row was taken. -/
theorem hold_some {row' : Option ρ} (h : (s.hold t k row).held k' = some (t', row')) :
    k' = k ∧ t' = t ∧ row' = row ∨ k' ≠ k ∧ s.held k' = some (t', row') := by
  by_cases hkey : k' = k
  · rw [hkey, hold_held_self, some.injEq, Prod.mk.injEq] at h
    exact .inl ⟨hkey, h.1.symm, h.2.symm⟩
  · rw [hold_held_of_ne hkey] at h
    exact .inr ⟨hkey, h⟩

section

variable (h : s.update t k which set = some s')
include h

/-- **What an update does**: nothing, or it sets a row that nobody else holds. -/
theorem update_cases :
    s' = s ∨ ∃ row, s.view t k = some row ∧ which row = true ∧ s.free t k = true ∧
      s' = s.hold t k (some (set row)) := by
  rw [Store.update] at h
  cases hview : s.view t k with
  | none =>
    rw [hview] at h
    exact .inl (some.inj h).symm
  | some row =>
    simp only [hview] at h
    by_cases hwhich : which row = true
    · rw [if_pos hwhich] at h
      by_cases hfree : s.free t k = true
      · rw [if_pos hfree] at h
        exact .inr ⟨row, rfl, hwhich, hfree, (some.inj h).symm⟩
      · rw [if_neg hfree] at h
        cases h
    · rw [if_neg hwhich] at h
      exact .inl (some.inj h).symm

/-- What a transaction sees of a row that it updated. -/
theorem update_view {row : ρ} (hview : s.view t k = some row) :
    s'.view t k = some (if which row then set row else row) := by
  rw [Store.update, hview] at h
  by_cases hwhich : which row = true
  · simp only [if_pos hwhich] at h ⊢
    split at h
    · cases h
      exact hold_view_self
    · cases h
  · simp only [if_neg hwhich] at h ⊢
    cases h
    exact hview

/-- It holds the row that it updated. -/
theorem update_held {row : ρ} (hview : s.view t k = some row)
    (hwhich : which row = true) : s'.held k = some (t, some (set row)) := by
  rw [Store.update, hview] at h
  simp only [if_pos hwhich] at h
  split at h
  · cases h
    exact hold_held_self
  · cases h

/-- An update leaves the other rows alone. -/
theorem update_view_of_ne (hne : k' ≠ k) : s'.view t' k' = s.view t' k' := by
  rcases update_cases h with rfl | ⟨row, -, -, -, rfl⟩
  · rfl
  · exact hold_view_of_ne hne

end

end Hold

section Ends

@[simp] theorem rollback_rows : (s.rollback t).rows = s.rows := rfl

theorem rollback_held : (s.rollback t).held k = (s.held k).filter fun held => held.1 ≠ t := rfl

theorem rollback_some (h : (s.rollback t).held k = some (t', row)) :
    t' ≠ t ∧ s.held k = some (t', row) := by
  obtain ⟨hheld, hne⟩ := filter_eq_some_iff.mp h
  exact ⟨of_decide_eq_true hne, hheld⟩

theorem rollback_held_other (h : s.held k = some (t', row)) (hne : t' ≠ t) :
    (s.rollback t).held k = some (t', row) := by
  rw [rollback_held, h]
  exact filter_some_pos (decide_eq_true hne)

/-- Others see the same after a rollback. -/
theorem rollback_view (hne : t' ≠ t) : (s.rollback t).view t' k = s.view t' k := by
  cases hheld : s.held k with
  | none =>
    have hback : (s.rollback t).held k = none := by
      rw [rollback_held, hheld]
      rfl
    rw [view_none hback, view_none hheld, rollback_rows]
  | some held =>
    obtain ⟨owner, row⟩ := held
    by_cases howner : owner = t
    · have hback : (s.rollback t).held k = none := by
        rw [rollback_held, hheld]
        exact filter_some_neg (by simpa using howner)
      rw [view_none hback, view_other hheld (howner ▸ Ne.symm hne), rollback_rows]
    · have hback := rollback_held_other hheld howner
      by_cases hmine : owner = t'
      · subst hmine
        rw [view_held hback, view_held hheld]
      · rw [view_other hback hmine, view_other hheld hmine, rollback_rows]

/-- **Who holds a row sees what it saw, whoever else commits.** -/
theorem commit_view_held (h : s.held k = some (t', row)) (hne : t' ≠ t) :
    (s.commit t).view t' k = row :=
  view_held (rollback_held_other h hne)

/-- Who does not hold a row sees what was committed. -/
theorem commit_view_other (h : ∀ row, s.held k ≠ some (t', row)) :
    (s.commit t).view t' k = s.view t k := by
  cases hheld : (s.commit t).held k with
  | none => exact view_none hheld
  | some held =>
    obtain ⟨owner, row⟩ := held
    have hback : (s.rollback t).held k = some (owner, row) := hheld
    have howner : owner ≠ t' := fun heq => h row (heq ▸ (rollback_some hback).2)
    exact view_other hheld howner

end Ends

end Catamorphic.RowLocks
