import Catamorphic.Lib.History
import Mathlib.Data.Set.Card
import Mathlib.Order.Defs.LinearOrder

/-!
# Where two histories meet

Two tips are followed at once, newest point first, each point knowing from which of the tips
it has been seen. The walk ends when nothing waits but points seen from both. It has then seen
from both sides every shared point it has seen at all, if each point where the shared history
is entered can be reached from either tip over points newer than itself: when such a point
comes up, both sides have come to it.
-/

namespace Catamorphic.History

open Relation

variable {V T : Type*} (parents : V → List V) (tip : Bool → V)

/-- No point stands before one of its parents. -/
def Acyclic : Prop := ∀ v, ∀ parent ∈ parents v, ¬ Before parents v parent

def Reached (side : Bool) (v : V) : Prop := Before parents v (tip side)

/-- Reached from both tips. -/
def Shared (v : V) : Prop := ∀ side, Reached parents tip side v

/-- Shared, and before no other shared point. -/
def Best (v : V) : Prop :=
  Shared parents tip v ∧ ∀ w, Shared parents tip w → Before parents v w → w = v

/-- Where the shared history is entered: a shared tip, or a shared parent of a point that is
not shared. -/
def Entry (v : V) : Prop :=
  Shared parents tip v ∧ ((∃ side, v = tip side) ∨
    ∃ child side, Reached parents tip side child ∧ ¬ Shared parents tip child ∧
      v ∈ parents child)

variable {parents tip} {a b v w : V} {side : Bool}

theorem Before.antisymm (hacyclic : Acyclic parents) (h : Before parents a b)
    (h' : Before parents b a) : a = b := by
  rcases ReflTransGen.cases_head h with rfl | ⟨parent, hparent, hrest⟩
  · rfl
  · exact absurd (Before.trans h' hrest) (hacyclic b parent hparent)

theorem Reached.parent (h : Reached parents tip side v) (hparent : w ∈ parents v) :
    Reached parents tip side w := (Before.of_parent hparent).trans h

/-- **Above every shared point is a best one.** -/
theorem Shared.exists_best (hacyclic : Acyclic parents)
    (hfinite : {v | Reached parents tip true v}.Finite) (h : Shared parents tip v) :
    ∃ best, Best parents tip best ∧ Before parents v best := by
  induction hn : {w | Shared parents tip w ∧ Before parents v w}.ncard using
    Nat.strong_induction_on generalizing v with
  | _ n ih =>
    by_cases hbest : ∀ w, Shared parents tip w → Before parents v w → w = v
    · exact ⟨v, ⟨h, hbest⟩, .refl v⟩
    · push Not at hbest
      obtain ⟨w, hw, hvw, hne⟩ := hbest
      have hfin : {w | Shared parents tip w ∧ Before parents v w}.Finite :=
        hfinite.subset fun w hw => hw.1 true
      have hless : {x | Shared parents tip x ∧ Before parents w x} ⊂
          {x | Shared parents tip x ∧ Before parents v x} := by
        refine ⟨fun x hx => ⟨hx.1, hvw.trans hx.2⟩, fun hsub => ?_⟩
        exact hne (Before.antisymm hacyclic (hsub ⟨h, .refl v⟩).2 hvw)
      obtain ⟨best, hbest, hbefore⟩ := ih _ (hn ▸ Set.ncard_lt_ncard hless hfin) hw rfl
      exact ⟨best, hbest, hvw.trans hbefore⟩

/-! ## The walk -/

variable (parents tip)

/-- What the walk keeps: from which tips a point has been seen, and what waits. -/
structure Walked (seen : Bool → V → Prop) (waiting : V → Prop) : Prop where
  tips : ∀ side, seen side (tip side)
  sound : ∀ side v, seen side v → Reached parents tip side v
  /-- A point that does not wait has been followed. -/
  followed : ∀ v, ¬ waiting v → ∀ side, seen side v → ∀ parent ∈ parents v, seen side parent
  /-- A shared point does not come up before both sides have come to it. -/
  unmet : ∀ v, Shared parents tip v → ∀ side, seen side v → ¬ seen (!side) v → waiting v
  /-- A shared point is entered, or has been seen from another one. -/
  entered : ∀ v, Shared parents tip v → ∀ side, seen side v → Entry parents tip v ∨
    (∀ side, seen side v) ∧ ∃ child, (∀ side, seen side child) ∧ v ∈ parents child

/-- From the tip to `v`, over points newer than `v`. -/
def NewerWay [LT T] (time : V → T) (v tip : V) : Prop :=
  ReflTransGen (fun child parent => parent ∈ parents child ∧ time v < time child) tip v

/-- Every point where the shared history is entered is older than some way to it. -/
def OlderEntries [LT T] (time : V → T) : Prop :=
  ∀ v, Entry parents tip v → ∀ side, NewerWay parents time v (tip side)

variable {parents tip} {seen seen' : Bool → V → Prop} {waiting waiting' : V → Prop}

section

variable (h : Walked parents tip seen waiting) {time : V → T}
include h

/-- A side comes to a point before it comes up, over a way that is newer. -/
theorem Walked.seen_of_way [LinearOrder T]
    (hnewest : ∀ w, waiting w → time w ≤ time v) (hway : NewerWay parents time v (tip side)) :
    seen side v := by
  have hall : ∀ w, ReflTransGen (fun child parent => parent ∈ parents child ∧
      time v < time child) (tip side) w → seen side w := by
    intro w hw
    induction hw with
    | refl => exact h.tips side
    | tail _ hstep ih =>
      have hdone : ¬ waiting _ := fun hwait => absurd hstep.2 (not_lt.mpr (hnewest _ hwait))
      exact h.followed _ hdone side ih _ hstep.1
  exact hall v hway

/-- **A shared point that comes up has been seen from both tips.** -/
theorem Walked.met [LinearOrder T]
    (hentries : OlderEntries parents tip time) (hnewest : ∀ w, waiting w → time w ≤ time v)
    (hshared : Shared parents tip v) (hseen : seen side v) : ∀ side, seen side v := by
  rcases h.entered v hshared side hseen with hentry | ⟨hall, _⟩
  · exact fun side => h.seen_of_way hnewest (hentries v hentry side)
  · exact hall

/-- **A step of the walk**: the newest point comes up, and its parents are seen from where it
has been seen. -/
theorem Walked.step [LinearOrder T]
    (hentries : OlderEntries parents tip time) (hnewest : ∀ w, waiting w → time w ≤ time v)
    (hseen' : ∀ side w, seen' side w ↔ seen side w ∨ (w ∈ parents v ∧ seen side v))
    (hstay : ∀ w, waiting w → w ≠ v → waiting' w)
    (hnew : ∀ side w, seen' side w → ¬ seen side w → waiting' w) :
    Walked parents tip seen' waiting' := by
  have hmono : ∀ side w, seen side w → seen' side w := fun side w hw =>
    (hseen' side w).mpr (.inl hw)
  refine ⟨fun side => hmono side _ (h.tips side), ?_, ?_, ?_, ?_⟩
  · intro side w hw
    rcases (hseen' side w).mp hw with hw | ⟨hparent, hv⟩
    · exact h.sound side w hw
    · exact (h.sound side v hv).parent hparent
  · intro w hwait side hw parent hparent
    have hold : seen side w := by
      by_contra hne
      exact hwait (hnew side w hw hne)
    by_cases hwv : w = v
    · exact (hseen' side parent).mpr (.inr ⟨hwv ▸ hparent, hwv ▸ hold⟩)
    · have hdone : ¬ waiting w := fun hw' => hwait (hstay w hw' hwv)
      exact hmono side parent (h.followed w hdone side hold parent hparent)
  · intro w hshared side hw hother
    by_cases hold : seen side w
    · have hwait := h.unmet w hshared side hold fun hs => hother (hmono _ _ hs)
      refine hstay w hwait fun hwv => hother (hmono _ _ ?_)
      subst hwv
      exact h.met hentries hnewest hshared hold _
    · exact hnew side w hw hold
  · intro w hshared side hw
    rcases (hseen' side w).mp hw with hold | ⟨hparent, hv⟩
    · rcases h.entered w hshared side hold with hentry | ⟨hall, child, hchild, hparent⟩
      · exact .inl hentry
      · exact .inr ⟨fun s => hmono s w (hall s), child, fun s => hmono s child (hchild s), hparent⟩
    · by_cases hvshared : Shared parents tip v
      · have hmet := h.met hentries hnewest hvshared hv
        exact .inr ⟨fun s => (hseen' s w).mpr (.inr ⟨hparent, hmet s⟩), v,
          fun s => hmono s v (hmet s), hparent⟩
      · exact .inl ⟨hshared, .inr ⟨v, side, h.sound side v hv, hvshared, hparent⟩⟩

end

/-! ## The end of the walk -/

/-- A shared point that has been seen has been seen from both tips. -/
theorem Walked.both (h : Walked parents tip seen waiting)
    (hend : ∀ v, waiting v → ∀ side, seen side v) (hshared : Shared parents tip v)
    (hseen : seen side v) : ∀ side, seen side v := by
  have hother : seen (!side) v := by
    by_contra hne
    exact hne (hend v (h.unmet v hshared side hseen hne) (!side))
  intro s
  cases s <;> cases side <;> assumption

section

variable (h : Walked parents tip seen waiting) (hacyclic : Acyclic parents)
  (hend : ∀ v, waiting v → ∀ side, seen side v)
include h hacyclic hend

/-- **A point with no other shared point on the way to it has been seen.** -/
theorem Walked.seen_of_reached (hreached : Reached parents tip side v)
    (hfree : ∀ w, Reached parents tip side w → Before parents v w → w ≠ v →
      ¬ Shared parents tip w) : seen side v := by
  induction hreached with
  | refl => exact h.tips side
  | @tail child parent hchild hparent ih =>
    have hne : child ≠ parent := by
      rintro rfl
      exact hacyclic child child hparent (.refl child)
    have hchildfree := hfree child hchild (.of_parent hparent) hne
    have hseen : seen side child := by
      refine ih fun w hw hbefore hwne => ?_
      refine hfree w hw ((Before.of_parent hparent).trans hbefore) ?_
      rintro rfl
      exact hacyclic child w hparent hbefore
    refine h.followed child (fun hwait => hchildfree fun s => ?_) side hseen parent hparent
    exact h.sound s child (hend child hwait s)

/-- What one tip alone reaches has been seen from it. -/
theorem Walked.seen_of_not_shared
    (hreached : Reached parents tip side v) (hshared : ¬ Shared parents tip v) : seen side v :=
  h.seen_of_reached hacyclic hend hreached fun _ _ hbefore _ hw =>
    hshared fun s => hbefore.trans (hw s)

/-- The best shared points have been seen from both tips. -/
theorem Walked.seen_of_best (hbest : Best parents tip v) : ∀ side, seen side v := by
  intro side
  refine h.seen_of_reached hacyclic hend (hbest.1 side) fun w _ hbefore hne hw => ?_
  exact hne (hbest.2 w hw hbefore)

end

end Catamorphic.History
