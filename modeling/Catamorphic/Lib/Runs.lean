import Mathlib.Data.List.Basic

/-!
# Runs of a partial step function

A system is a step function `σ → ε → Option σ`: `none` says the event cannot happen in
that state. A run may be restricted to events that meet a condition on the state they
happen in. This module has the reachable states of such runs, the rule that carries an
invariant over a run, and the execution of a given list of events.
-/

namespace Catamorphic.Runs

open Option

variable {σ ε : Type*}

/-- The states reached from `s₀` by events that all meet `ok` where they happen. -/
inductive Reach (step : σ → ε → Option σ) (ok : σ → ε → Prop) (s₀ : σ) : σ → Prop
  | init : Reach step ok s₀ s₀
  | tail {s s' : σ} {e : ε} :
      Reach step ok s₀ s → ok s e → step s e = some s' → Reach step ok s₀ s'

/-- No condition on the events. -/
abbrev anyEvent : σ → ε → Prop := fun _ _ => True

/-- The state after a list of events, when each of them can happen. -/
def exec (step : σ → ε → Option σ) : σ → List ε → Option σ
  | s, [] => some s
  | s, e :: es => (step s e).bind (fun s' => exec step s' es)

variable {step : σ → ε → Option σ} {ok : σ → ε → Prop} {s₀ s s' : σ} {es : List ε}

section

variable (h : Reach step ok s₀ s) {I : σ → Prop}
include h

/-- **What holds first and is kept by every step holds in every state reached.** -/
theorem Reach.invariant (h₀ : I s₀)
    (hstep : ∀ s e s', I s → ok s e → step s e = some s' → I s') : I s := by
  induction h with
  | init => exact h₀
  | tail _ hok hs ih => exact hstep _ _ _ ih hok hs

/-- The same, where a step lemma may also use that its state was reached. -/
theorem Reach.invariant_reached (h₀ : I s₀)
    (hstep : ∀ s e s', Reach step ok s₀ s → I s → ok s e → step s e = some s' → I s') : I s := by
  induction h with
  | init => exact h₀
  | tail hr hok hs ih => exact hstep _ _ _ hr ih hok hs

/-- A condition may be weakened. -/
theorem Reach.mono {ok' : σ → ε → Prop} (himp : ∀ s e, ok s e → ok' s e) : Reach step ok' s₀ s := by
  induction h with
  | init => exact .init
  | tail _ hok hs ih => exact .tail ih (himp _ _ hok) hs

theorem Reach.trans (h' : Reach step ok s s') : Reach step ok s₀ s' := by
  induction h' with
  | init => exact h
  | tail _ hok hs ih => exact .tail ih hok hs

end

/-- A state that a list of events leads to is reached, under what each of them meets anywhere. -/
theorem reach_of_execAll {s s' : σ} (hok : ∀ e ∈ es, ∀ s, ok s e)
    (h : exec step s es = some s') : Reach step ok s s' := by
  induction es generalizing s with
  | nil =>
    rw [exec, some.injEq] at h
    subst h
    exact .init
  | cons e es ih =>
    rw [exec, bind_eq_some_iff] at h
    obtain ⟨s₁, hs, hes⟩ := h
    exact (Reach.tail .init (hok e List.mem_cons_self s) hs).trans
      (ih (fun e' he' => hok e' (List.mem_cons_of_mem _ he')) hes)

theorem reach_of_exec {s s' : σ} (h : exec step s es = some s') : Reach step anyEvent s s' :=
  reach_of_execAll (fun _ _ _ => trivial) h

theorem exec_append (s : σ) (es es' : List ε) :
    exec step s (es ++ es') = (exec step s es).bind fun s' => exec step s' es' := by
  induction es generalizing s with
  | nil => rfl
  | cons e es ih =>
    rw [List.cons_append, exec, exec, bind_assoc]
    exact congrArg _ (funext ih)

/-- A list of events each of which meets a decidable condition where it happens. -/
def execOk (step : σ → ε → Option σ) (ok : σ → ε → Prop) [∀ s e, Decidable (ok s e)] :
    σ → List ε → Option σ
  | s, [] => some s
  | s, e :: es => if ok s e then (step s e).bind (fun s' => execOk step ok s' es) else none

theorem reach_of_execOk [∀ s e, Decidable (ok s e)] {s s' : σ}
    (h : execOk step ok s es = some s') : Reach step ok s s' := by
  induction es generalizing s with
  | nil =>
    rw [execOk, some.injEq] at h
    subst h
    exact .init
  | cons e es ih =>
    rw [execOk] at h
    split at h
    · rename_i hok
      obtain ⟨s₁, hs, hes⟩ := bind_eq_some_iff.mp h
      exact (Reach.tail .init hok hs).trans (ih hes)
    · cases h

end Catamorphic.Runs
