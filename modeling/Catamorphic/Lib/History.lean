import Mathlib.Logic.Function.Basic
import Mathlib.Logic.Relation

/-!
# Histories with several parents

A history gives each of its points the points right before it. What stands before a point is
reached over these; a history that grows keeps what stood before what; and the names that
point into it lose nothing when one of them moves on to a point that its old one stands
before.
-/

namespace Catamorphic.History

open Relation

variable {V N : Type*}

/-- `a` is `b` or stands before it. -/
def Before (parents : V → List V) (a b : V) : Prop :=
  ReflTransGen (fun child parent => parent ∈ parents child) b a

/-- Some name points at `a` or after it. -/
def Held (parents : V → List V) (names : N → Option V) (a : V) : Prop :=
  ∃ name, ∃ tip ∈ names name, Before parents a tip

variable {parents parents' : V → List V} {names : N → Option V} {a b c : V}

theorem Before.refl (a : V) : Before parents a a := ReflTransGen.refl

theorem Before.trans (h : Before parents a b) (h' : Before parents b c) : Before parents a c :=
  ReflTransGen.trans h' h

theorem Before.of_parent (h : a ∈ parents b) : Before parents a b := ReflTransGen.single h

/-- What stood before a point still does when points are given parents. -/
theorem Before.mono (h : Before parents a b) (hgrow : ∀ v, parents v ⊆ parents' v) :
    Before parents' a b :=
  ReflTransGen.mono (fun child _ hparent => hgrow child hparent) _ _ h

/-- What stands before a point lies in every set that holds it and, with a point, its parents. -/
theorem Before.mem {I : V → Prop} (h : Before parents a b) (hb : I b)
    (hclosed : ∀ v, I v → ∀ parent ∈ parents v, I parent) : I a := by
  induction h with
  | refl => exact hb
  | tail _ hparent ih => exact hclosed _ ih _ hparent

theorem Held.mono (h : Held parents names a) (hgrow : ∀ v, parents v ⊆ parents' v) :
    Held parents' names a := by
  obtain ⟨name, tip, htip, hbefore⟩ := h
  exact ⟨name, tip, htip, hbefore.mono hgrow⟩

/-- **A name that moves on to a point after its old one loses nothing.** -/
theorem Held.move [DecidableEq N] (h : Held parents names a) {name : N} {tip : V}
    (hmove : ∀ old ∈ names name, Before parents old tip) :
    Held parents (Function.update names name (some tip)) a := by
  obtain ⟨other, held, hheld, hbefore⟩ := h
  by_cases hother : other = name
  · subst hother
    exact ⟨other, tip, Function.update_self other (some tip) names,
      hbefore.trans (hmove held hheld)⟩
  · exact ⟨other, held, (Function.update_of_ne hother (some tip) names).trans hheld, hbefore⟩

end Catamorphic.History
