import Mathlib.Logic.Relation

/-!
# Copying everything reachable

A traversal of a graph marks vertices as seen and puts them into a set, following the
edges of each vertex it puts there itself and none of a vertex it finds there already.
`Covered` is the invariant that makes this right: a seen vertex is waiting for its turn,
or it is in the set and either everything it reaches is in the set or its edges have all
been followed. When nothing waits, the set has everything the seen vertices reach.
-/

namespace Catamorphic.Traversal

open Relation

variable {V : Type*} (edge : V → V → Prop)

/-- Everything reachable from `v` is in the set. -/
def Complete (present : V → Prop) (v : V) : Prop :=
  ∀ w, ReflTransGen edge v w → present w

/-- The invariant of a traversal. -/
def Covered (present seen waiting followed : V → Prop) : Prop :=
  ∀ v, seen v → waiting v ∨
    (present v ∧ (Complete edge present v ∨ ∀ w, edge v w → seen w ∨ followed w))

variable {edge} {present present' seen waiting followed : V → Prop} {v : V}

theorem Complete.self (h : Complete edge present v) : present v := h v .refl

/-- What is reachable stays in a set that only grows. -/
theorem Complete.mono (h : Complete edge present v)
    (hgrow : ∀ w, present w → present' w) : Complete edge present' v :=
  fun w hw => hgrow w (h w hw)

theorem Covered.mono (h : Covered edge present seen waiting followed)
    (hgrow : ∀ w, present w → present' w) : Covered edge present' seen waiting followed := by
  intro v hv
  rcases h v hv with hw | ⟨hp, hc | hf⟩
  · exact .inl hw
  · exact .inr ⟨hgrow v hp, .inl (hc.mono hgrow)⟩
  · exact .inr ⟨hgrow v hp, .inr hf⟩

/-- **When nothing waits and every edge leads to a seen vertex, the set is complete.** -/
theorem Covered.complete (h : Covered edge present seen waiting followed)
    (hwait : ∀ v, ¬ waiting v) (hseen : ∀ v, followed v → seen v) (hv : seen v) :
    Complete edge present v := by
  intro w hw
  induction hw using ReflTransGen.head_induction_on with
  | refl =>
    rcases h w hv with hwv | ⟨hp, _⟩
    · exact absurd hwv (hwait w)
    · exact hp
  | @head a c hac hcw ih =>
    rcases h a hv with hwa | ⟨_, hc | hf⟩
    · exact absurd hwa (hwait a)
    · exact hc w (.head hac hcw)
    · exact ih ((hf c hac).elim id (hseen c))

end Catamorphic.Traversal
