import Mathlib.Data.List.Basic

/-!
# Computations that ask a source

A computation asks a source that stays as it is, keeps a state, and may fail with the state
kept. The rules say how each way of putting such computations together runs.
-/

namespace Catamorphic

/-- Asks an `S`, keeps a `σ`, fails with an `E`. -/
abbrev Asks (S σ E α : Type) := ExceptT E (StateT σ (ReaderM S)) α

namespace Asks

variable {S σ E α β : Type}

/-- How the computation ends, and the state it leaves. -/
def runOn (m : Asks S σ E α) (source : S) (state : σ) : Except E α × σ :=
  (m.run.run state).run source

/-- What is read off the source. -/
def ask (f : S → α) : Asks S σ E α := ExceptT.lift (StateT.lift fun source => f source)

@[simp]
theorem runOn_pure (a : α) (source : S) (state : σ) :
    runOn (pure a : Asks S σ E α) source state = (.ok a, state) := rfl

@[simp]
theorem runOn_throw (e : E) (source : S) (state : σ) :
    runOn (throw e : Asks S σ E α) source state = (.error e, state) := rfl

@[simp]
theorem runOn_ask (f : S → α) (source : S) (state : σ) :
    runOn (ask f : Asks S σ E α) source state = (.ok (f source), state) := rfl

@[simp]
theorem runOn_get (source : S) (state : σ) :
    runOn (get : Asks S σ E σ) source state = (.ok state, state) := rfl

@[simp]
theorem runOn_set (state' : σ) (source : S) (state : σ) :
    runOn (set state' : Asks S σ E PUnit) source state = (.ok ⟨⟩, state') := rfl

theorem runOn_bind (m : Asks S σ E α) (f : α → Asks S σ E β) (source : S) (state : σ) :
    runOn (m >>= f) source state = match runOn m source state with
      | (.ok a, state') => runOn (f a) source state'
      | (.error e, state') => (.error e, state') := by
  have hrun : runOn (m >>= f) source state =
      runOn (ExceptT.mk (StateT.bind m.run (ExceptT.bindCont f))) source state :=
    rfl
  rw [hrun, runOn, runOn]
  simp only [ExceptT.run_mk, StateT.run, StateT.bind, ReaderT.run_bind]
  rcases ReaderT.run (m.run state) source with ⟨_ | _, state'⟩ <;> rfl

end Asks

end Catamorphic
