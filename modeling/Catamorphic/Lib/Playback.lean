import Mathlib.Data.List.Infix

/-!
# Programs that are played again

A deterministic program is what it does next, given what its calls came to so far: it makes
a call, or it ends. A path lists the calls of one run with what each came to. Where what a
call comes to depends on the path before it only, there is one path, which every run follows
for some time; a call is then told from all others by its node and by how many calls of that
node there were before it.
-/

namespace Catamorphic.Playback

open List

variable {α ω ν : Type*}

/-- What the calls of a path came to. -/
abbrev outcomes (path : List (α × ω)) : List ω := path.map Prod.snd

section

variable (next : List ω → Option α) (answer : List (α × ω) → α → Option ω)

/-- Each call is the one made next, and comes to what `answer` says. -/
inductive Path : List (α × ω) → Prop
  | nil : Path []
  | snoc {p : List (α × ω)} {a : α} {o : ω} :
      Path p → next (outcomes p) = some a → answer p a = some o → Path (p ++ [(a, o)])

/-- A path, followed for as many calls as are given; to its end, where that comes first. -/
def play : Nat → List (α × ω) → List (α × ω)
  | 0, p => p
  | n + 1, p =>
    match next (outcomes p) with
    | none => p
    | some a =>
      match answer p a with
      | none => p
      | some o => play n (p ++ [(a, o)])

/-- No further call is answered. -/
def Stopped (p : List (α × ω)) : Prop := ∀ a, next (outcomes p) = some a → answer p a = none

end

variable {next : List ω → Option α} {answer : List (α × ω) → α → Option ω}
  {p q : List (α × ω)} {a b : α} {o : ω}

theorem Path.play (h : Path next answer p) (n : Nat) : Path next answer (play next answer n p) := by
  induction n generalizing p with
  | zero => exact h
  | succ n ih =>
    rw [Playback.play]
    split
    · exact h
    · rename_i a ha
      split
      · exact h
      · rename_i o ho
        exact ih (h.snoc ha ho)

theorem Path.snoc_inv (h : Path next answer (p ++ [(a, o)])) :
    Path next answer p ∧ next (outcomes p) = some a ∧ answer p a = some o := by
  generalize hq : p ++ [(a, o)] = q at h
  cases h with
  | nil => simp at hq
  | @snoc p' a' o' h ha ho =>
    obtain ⟨rfl, hlast⟩ := append_inj' hq rfl
    obtain ⟨rfl, rfl⟩ := Prod.mk.inj (singleton_inj.mp hlast)
    exact ⟨h, ha, ho⟩

/-- What a path begins with is a path. -/
theorem Path.of_append (h : Path next answer (p ++ q)) : Path next answer p := by
  induction q using List.reverseRecOn with
  | nil => rwa [append_nil] at h
  | append_singleton q e ih =>
    rw [← append_assoc] at h
    exact ih h.snoc_inv.1

/-- The next call of a path is the call after it in every longer one. -/
theorem Path.call_inv (h : Path next answer (p ++ (a, o) :: q)) :
    next (outcomes p) = some a ∧ answer p a = some o := by
  rw [append_cons] at h
  exact h.of_append.snoc_inv.2

/-- **There is one path**: of two, one begins the other. -/
theorem Path.total (hp : Path next answer p) (hq : Path next answer q) : p <+: q ∨ q <+: p := by
  induction hp with
  | nil => exact .inl nil_prefix
  | @snoc p a o hp ha ho ih =>
    rcases ih with ⟨rest, rfl⟩ | hqp
    · cases rest with
      | nil => exact .inr (by simp)
      | cons e rest =>
        obtain ⟨b, o'⟩ := e
        obtain ⟨hb, ho'⟩ := hq.call_inv
        obtain rfl : a = b := Option.some.inj (ha.symm.trans hb)
        obtain rfl : o = o' := Option.some.inj (ho.symm.trans ho')
        exact .inl ⟨rest, by simp⟩
    · exact .inr (hqp.trans (prefix_append _ _))

/-- A path that stopped begins no other. -/
theorem Path.prefix_of_stopped (hp : Path next answer p) (hstop : Stopped next answer p)
    (hq : Path next answer q) : q <+: p := by
  rcases hp.total hq with ⟨rest, rfl⟩ | h
  · cases rest with
    | nil => simp
    | cons e rest =>
      obtain ⟨hb, ho⟩ := hq.call_inv
      rw [hstop _ hb] at ho
      cases ho
  · exact h

/-- **Two paths that stopped are the same.** -/
theorem Path.eq_of_stopped (hp : Path next answer p) (hq : Path next answer q)
    (hpstop : Stopped next answer p) (hqstop : Stopped next answer q) : p = q :=
  (hq.prefix_of_stopped hqstop hp).eq_of_length_le
    (hp.prefix_of_stopped hpstop hq).length_le

/-! ## The names of calls -/

section

variable (node : α → ν) [DecidableEq ν]

/-- How many calls of a node there were. -/
def occurrence (path : List (α × ω)) (n : ν) : Nat := path.countP (node ·.1 = n)

variable {node}

theorem occurrence_snoc (n : ν) :
    occurrence node (p ++ [(a, o)]) n = occurrence node p n + if node a = n then 1 else 0 := by
  simp [occurrence]

theorem occurrence_le (h : p <+: q) (n : ν) : occurrence node p n ≤ occurrence node q n :=
  h.sublist.countP_le

/-- **A node and its occurrence name one call of the program.** -/
theorem Path.call_unique (hp : Path next answer p) (hq : Path next answer q)
    (ha : next (outcomes p) = some a) (hb : next (outcomes q) = some b) (hnode : node a = node b)
    (hocc : occurrence node p (node a) = occurrence node q (node b)) : p = q := by
  -- Had one path passed the other's call, it would have counted it.
  have key : ∀ {p q : List (α × ω)} {a b : α}, next (outcomes p) = some a →
      Path next answer q → node a = node b →
      occurrence node p (node a) = occurrence node q (node b) → p <+: q → p = q := by
    intro p q a b ha hq hnode hocc hpq
    obtain ⟨rest, rfl⟩ := hpq
    cases rest with
    | nil => simp
    | cons e rest =>
      obtain ⟨c, o⟩ := e
      obtain rfl : a = c := Option.some.inj (ha.symm.trans hq.call_inv.1)
      have hle : occurrence node (p ++ [(a, o)]) (node a) ≤
          occurrence node (p ++ [(a, o)] ++ rest) (node a) :=
        occurrence_le (prefix_append _ rest) _
      rw [occurrence_snoc, if_pos rfl, ← append_cons, hocc, hnode] at hle
      omega
  rcases hp.total hq with h | h
  · exact key ha hq hnode hocc h
  · exact (key hb hp hnode.symm hocc.symm h).symm

end

end Catamorphic.Playback
