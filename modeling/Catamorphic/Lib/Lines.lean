import Mathlib.Data.List.Basic

/-!
# Lines

A text over any alphabet with a newline symbol is a list of complete lines and the rest
after the last newline. `split` takes a text apart and `join` puts it together; `glue` is
what appending two texts does to their lines.
-/

namespace Catamorphic.Lines

open List

variable {α : Type*} (nl : α)

/-- Lines written out, each with its newline. -/
def join (ls : List (List α)) : List α := (ls.map (fun l => l ++ [nl])).flatten

/-- A second text after a first: its first line completes the first one's rest. -/
def glue (s t : List (List α) × List α) : List (List α) × List α :=
  match t.1 with
  | [] => (s.1, s.2 ++ t.2)
  | l :: ls => (s.1 ++ (s.2 ++ l) :: ls, t.2)

@[simp] theorem join_nil : join nl [] = [] := rfl

@[simp] theorem join_cons (l : List α) (ls : List (List α)) :
    join nl (l :: ls) = l ++ nl :: join nl ls := by simp [join]

@[simp] theorem join_append (ls ls' : List (List α)) :
    join nl (ls ++ ls') = join nl ls ++ join nl ls' := by simp [join]

theorem glue_assoc (s t u : List (List α) × List α) : glue (glue s t) u = glue s (glue t u) := by
  obtain ⟨t₁, t₂⟩ := t
  obtain ⟨u₁, u₂⟩ := u
  cases t₁ <;> cases u₁ <;> simp [glue]

variable [DecidableEq α]

/-- The complete lines of a text, and the rest. -/
def split : List α → List (List α) × List α
  | [] => ([], [])
  | x :: xs =>
    if x = nl then ([] :: (split xs).1, (split xs).2)
    else match (split xs).1 with
      | [] => ([], x :: (split xs).2)
      | l :: ls => ((x :: l) :: ls, (split xs).2)

abbrev lines (s : List α) : List (List α) := (split nl s).1
abbrev rest (s : List α) : List α := (split nl s).2

variable {nl}

theorem split_cons_ne {x : α} (h : x ≠ nl) (xs : List α) :
    split nl (x :: xs) = glue ([], [x]) (split nl xs) := by
  rw [split, if_neg h, glue]
  cases hs : (split nl xs).1 with
  | nil => simp
  | cons l ls => simp

theorem split_cons_nl (xs : List α) :
    split nl (nl :: xs) = ([] :: (split nl xs).1, (split nl xs).2) := by
  rw [split, if_pos rfl]

/-- **The lines of two texts in a row.** -/
theorem split_append (s t : List α) : split nl (s ++ t) = glue (split nl s) (split nl t) := by
  induction s with
  | nil =>
    simp only [split, glue]
    cases h : (split nl t).1 <;> simp [← h]
  | cons x xs ih =>
    by_cases hx : x = nl
    · subst hx
      rw [cons_append, split_cons_nl, split_cons_nl, ih]
      simp only [glue]
      cases (split x t).1 <;> simp
    · rw [cons_append, split_cons_ne hx, split_cons_ne hx, ih, glue_assoc]

variable {s t : List α}

/-- A second text without a newline only lengthens the rest. -/
theorem split_append_of_nil (h : lines nl t = []) :
    split nl (s ++ t) = (lines nl s, rest nl s ++ rest nl t) := by
  rw [split_append, glue, show (split nl t).1 = [] from h]

variable {l : List α}

/-- A second text with a newline completes the rest. -/
theorem split_append_of_cons {ls : List (List α)} (h : lines nl t = l :: ls) :
    split nl (s ++ t) = (lines nl s ++ (rest nl s ++ l) :: ls, rest nl t) := by
  rw [split_append, glue, show (split nl t).1 = l :: ls from h]

theorem split_eq_of_not_mem (h : nl ∉ s) : split nl s = ([], s) := by
  induction s with
  | nil => rfl
  | cons x xs ih =>
    have hx : x ≠ nl := fun he => h (he ▸ mem_cons_self)
    rw [split_cons_ne hx, ih (fun hm => h (mem_cons_of_mem _ hm)), glue]
    rfl

theorem split_line (h : nl ∉ l) (s : List α) :
    split nl (l ++ nl :: s) = (l :: lines nl s, rest nl s) := by
  rw [split_append, split_eq_of_not_mem h, split_cons_nl, glue]
  simp

/-- **Taking apart what was put together.** -/
theorem split_join {ls : List (List α)} {r : List α} (hls : ∀ l ∈ ls, nl ∉ l) (hr : nl ∉ r) :
    split nl (join nl ls ++ r) = (ls, r) := by
  induction ls with
  | nil => exact split_eq_of_not_mem hr
  | cons l ls ih =>
    rw [join_cons, append_assoc, cons_append, split_line (hls l mem_cons_self), lines, rest,
      ih (fun l' hl' => hls l' (mem_cons_of_mem _ hl'))]

/-- **Putting together what was taken apart.** -/
theorem join_split (nl : α) (s : List α) : join nl (lines nl s) ++ rest nl s = s := by
  induction s with
  | nil => rfl
  | cons x xs ih =>
    by_cases hx : x = nl
    · subst hx
      rw [lines, rest, split_cons_nl, join_cons]
      simpa using ih
    · rw [lines, rest, split_cons_ne hx, glue]
      rw [lines, rest] at ih
      cases h : (split nl xs).1 with
      | nil | cons l ls => rw [h] at ih; simpa using ih

theorem not_mem_rest (s : List α) : nl ∉ rest nl s := by
  induction s with
  | nil => exact not_mem_nil
  | cons x xs ih =>
    by_cases hx : x = nl
    · subst hx
      rw [rest, split_cons_nl]
      exact ih
    · rw [rest, split_cons_ne hx, glue]
      cases (split nl xs).1 with
      | nil => simpa [Ne.symm hx] using ih
      | cons l ls => exact ih

theorem not_mem_lines (s : List α) : ∀ l ∈ lines nl s, nl ∉ l := by
  induction s with
  | nil => intro l hl; cases hl
  | cons x xs ih =>
    by_cases hx : x = nl
    · subst hx
      rw [lines, split_cons_nl]
      intro l hl
      rcases mem_cons.mp hl with rfl | hl
      · exact not_mem_nil
      · exact ih l hl
    · rw [lines, split_cons_ne hx, glue]
      cases h : (split nl xs).1 with
      | nil => simp
      | cons l ls =>
        rw [lines, h] at ih
        intro l' hl'
        simp only [nil_append, mem_cons] at hl'
        rcases hl' with rfl | hl'
        · have := ih l mem_cons_self
          simpa [Ne.symm hx] using this
        · exact ih l' (mem_cons_of_mem _ hl')

/-- A text goes on: its lines, then what becomes of its rest. -/
theorem split_rest_append (s t : List α) : split nl (s ++ t) =
    (lines nl s ++ lines nl (rest nl s ++ t), rest nl (rest nl s ++ t)) := by
  have hjoin : ∀ ls : List (List α), (∀ l ∈ ls, nl ∉ l) → ∀ u,
      split nl (join nl ls ++ u) = (ls ++ lines nl u, rest nl u) := by
    intro ls
    induction ls with
    | nil => intro _ u; rfl
    | cons l ls ih =>
      intro hls u
      have hrest := ih (forall_mem_cons.mp hls).2 u
      rw [join_cons, append_assoc, cons_append, split_line (hls l (.head _))]
      rw [lines, rest, hrest, cons_append]
  conv_lhs => rw [← join_split nl s, append_assoc]
  exact hjoin _ (not_mem_lines s) _

theorem split_append_line (s t : List α) :
    split nl (s ++ nl :: t) = (lines nl s ++ rest nl s :: lines nl t, rest nl t) := by
  rw [split_rest_append, lines, lines, rest, rest, split_line (not_mem_rest s)]

theorem lines_eq_nil_iff : lines nl s = [] ↔ nl ∉ s := by
  constructor
  · intro h hm
    rw [← join_split nl s, h, join_nil, nil_append] at hm
    exact not_mem_rest s hm
  · intro h
    rw [lines, split_eq_of_not_mem h]

theorem rest_eq_self (h : nl ∉ s) : rest nl s = s := by
  rw [rest, split_eq_of_not_mem h]

/-! ## One line's newline -/

/-- `text.replace(/\n$/, "")` -/
def chomp (nl : α) (s : List α) : List α := if s.getLast? = some nl then s.dropLast else s

theorem chomp_append_newline (s : List α) : chomp nl (s ++ [nl]) = s := by simp [chomp]

theorem chomp_of_getLast (h : s.getLast? ≠ some nl) : chomp nl s = s := if_neg h

theorem chomp_cases (nl : α) (s : List α) : chomp nl s = s ∨ s = chomp nl s ++ [nl] := by
  by_cases h : s.getLast? = some nl
  · obtain ⟨t, rfl⟩ := List.getLast?_eq_some_iff.mp h
    exact .inr (by rw [chomp_append_newline])
  · exact .inl (chomp_of_getLast h)

theorem chomp_append (s : List α) (ht : t ≠ []) : chomp nl (s ++ t) = s ++ chomp nl t := by
  rcases chomp_cases nl t with h | h
  · have hlast : t.getLast? ≠ some nl := by
      intro hlast
      obtain ⟨u, rfl⟩ := List.getLast?_eq_some_iff.mp hlast
      rw [chomp_append_newline] at h
      simpa using congrArg List.length h
    rw [h, chomp_of_getLast (by rwa [List.getLast?_append_of_ne_nil s ht])]
  · conv_lhs => rw [h, ← append_assoc, chomp_append_newline]

theorem chomp_cons {x : α} (hx : x ≠ nl) (xs : List α) : ∃ ys, chomp nl (x :: xs) = x :: ys := by
  cases xs with
  | nil => exact ⟨[], chomp_of_getLast (by simpa using hx)⟩
  | cons y ys => exact ⟨_, chomp_append [x] (cons_ne_nil y ys)⟩

/-- A text is what remains of it without its newline, and that newline. -/
theorem chomp_prefix (nl : α) (s : List α) : ∃ tail, s = chomp nl s ++ tail := by
  rcases chomp_cases nl s with h | h
  · exact ⟨[], by rw [append_nil, h]⟩
  · exact ⟨_, h⟩

omit [DecidableEq α] in
/-- A text is cut in one way at the first `nl` of it. -/
theorem append_cons_inj {xs ys zs ws : List α} (hxs : nl ∉ xs) (hys : nl ∉ ys)
    (h : xs ++ nl :: zs = ys ++ nl :: ws) : xs = ys ∧ zs = ws := by
  induction xs generalizing ys with
  | nil =>
    cases ys with
    | nil => exact ⟨rfl, (List.cons.inj h).2⟩
    | cons y ys => exact absurd (List.cons.inj h).1 (ne_of_not_mem_cons hys)
  | cons x xs ih =>
    cases ys with
    | nil => exact absurd (List.cons.inj h).1.symm (ne_of_not_mem_cons hxs)
    | cons y ys =>
      obtain ⟨rfl, hrest⟩ := List.cons.inj h
      obtain ⟨rfl, hzs⟩ := ih (not_mem_of_not_mem_cons hxs)
        (not_mem_of_not_mem_cons hys) hrest
      exact ⟨rfl, hzs⟩

/-! ## Lines with their newlines -/

/-- The lines of a text, each with its newline, and the rest where there is one. -/
def pieces (nl : α) (s : List α) : List (List α) :=
  (lines nl s).map (fun l => l ++ [nl]) ++ if rest nl s = [] then [] else [rest nl s]

/-- A line with its newline. -/
def Complete (nl : α) (p : List α) : Prop := ∃ l, nl ∉ l ∧ p = l ++ [nl]

theorem pieces_flatten (s : List α) : (pieces nl s).flatten = s := by
  conv_rhs => rw [← join_split nl s]
  rw [pieces, flatten_append, ← join]
  split
  · next h => rw [h, flatten_nil]
  · rw [flatten_singleton]

theorem pieces_complete (h : nl ∉ l) (s : List α) :
    pieces nl (l ++ [nl] ++ s) = (l ++ [nl]) :: pieces nl s := by
  rw [append_assoc, singleton_append, pieces, lines, rest, split_line h, map_cons,
    cons_append, pieces]

theorem pieces_rest (h : nl ∉ l) (hne : l ≠ []) : pieces nl l = [l] := by
  rw [pieces, lines_eq_nil_iff.mpr h, rest_eq_self h, if_neg hne]
  rfl

theorem mem_pieces {p : List α} (h : p ∈ pieces nl s) : Complete nl p ∨ (nl ∉ p ∧ p ≠ []) := by
  rw [pieces, mem_append, mem_map] at h
  rcases h with ⟨l, hl, rfl⟩ | h
  · exact .inl ⟨l, not_mem_lines s l hl, rfl⟩
  · by_cases hr : rest nl s = []
    · rw [if_pos hr] at h
      cases h
    · rw [if_neg hr, mem_singleton] at h
      exact .inr ⟨h ▸ not_mem_rest s, h ▸ hr⟩

/-- Only the last piece may be without a newline. -/
theorem complete_of_followed {p q : List α} (h : [p, q] <:+: pieces nl s) : Complete nl p := by
  obtain ⟨before, after, h⟩ := h
  rw [append_assoc, cons_append, singleton_append] at h
  have hmem : p ∈ (lines nl s).map fun l => l ++ [nl] := by
    rcases append_eq_append_iff.mp h with ⟨mid, hmid, hlast⟩ | ⟨mid, hmid, hlast⟩
    · cases mid with
      | nil =>
        split at hlast <;> simp at hlast
      | cons x mid =>
        rw [cons_append, List.cons.injEq] at hlast
        rw [hmid, hlast.1]
        exact mem_append_right _ mem_cons_self
    · split at hlast
      · simp at hlast
      · have hlen := congrArg List.length hlast
        simp at hlen
        omega
  obtain ⟨l, hl, rfl⟩ := mem_map.mp hmem
  exact ⟨l, not_mem_lines s l hl, rfl⟩

/-- **Pieces put together come apart again** where only the last may be without a newline. -/
theorem pieces_of_flatten {ps : List (List α)} (hps : ∀ p ∈ ps, Complete nl p ∨ (nl ∉ p ∧ p ≠ []))
    (hfollowed : ∀ p q, [p, q] <:+: ps → Complete nl p) : pieces nl ps.flatten = ps := by
  induction ps with
  | nil => rfl
  | cons p ps ih =>
    have htail := ih (forall_mem_cons.mp hps).2
      fun q r h => hfollowed q r (h.trans (suffix_cons p ps).isInfix)
    rw [flatten_cons]
    rcases hps p mem_cons_self with ⟨l, hl, rfl⟩ | ⟨hp, hne⟩
    · rw [pieces_complete hl, htail]
    · cases ps with
      | nil => rw [flatten_nil, append_nil, pieces_rest hp hne]
      | cons q ps =>
        obtain ⟨l, _, rfl⟩ := hfollowed p q ⟨[], ps, rfl⟩
        exact absurd (mem_append_right l mem_cons_self) hp

end Catamorphic.Lines
