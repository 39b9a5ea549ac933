import Mathlib.Data.List.Basic

/-!
# Operations on what others change too

A computation works on a state that others change as they like before each of its operations, and
an operation may fail before it does anything. What the computation does is told by its events: it
*ends with* what holds of its result and its events whatever the others do. The rules follow the
ways such computations are put together; one that is tried again is told by its rounds.
-/

namespace Catamorphic

/-- What comes before an operation: what others make of the state, and how the operation fails. -/
structure Meanwhile (S F : Type) where
  others : S → S
  fault : Option F

/-- What a computation is run on; after the last of `meanwhile` the others do nothing. -/
structure Contest (S F V : Type) where
  state : S
  meanwhile : List (Meanwhile S F)
  events : List V

/-- Works on an `S`, has events in `V`, fails with an `E`, where an operation fails with an `F`. -/
abbrev Contended (S F V E α : Type) := ExceptT E (StateM (Contest S F V)) α

namespace Contended

variable {S F V E α β : Type}

/-- How the computation ends, and what it leaves. -/
def runOn (m : Contended S F V E α) (contest : Contest S F V) : Except E α × Contest S F V :=
  (m.run.run contest).run

/-- What an operation finds. -/
def Contest.found : Contest S F V → Contest S F V
  | ⟨state, [], events⟩ => ⟨state, [], events⟩
  | ⟨state, first :: meanwhile, events⟩ => ⟨first.others state, meanwhile, events⟩

/-- What an operation that does not fail comes to. -/
def operated (found : Contest S F V) : Except E (α × S × List V) → Except E α × Contest S F V
  | .error e => (.error e, found)
  | .ok (a, state, events) => (.ok a, ⟨state, found.meanwhile, found.events ++ events⟩)

/-- One operation, done at once. -/
def operation (thrown : F → E) (f : S → Except E (α × S × List V)) : Contended S F V E α :=
  ExceptT.mk (StateT.mk fun contest =>
    let found := Contest.found contest
    (contest.meanwhile.head?.bind Meanwhile.fault).elim (operated found (f found.state))
      fun fault => (.error (thrown fault), found))

/-- Events of the computation's own. -/
def note (events : List V) : Contended S F V E Unit :=
  ExceptT.mk (StateT.mk fun contest =>
    (.ok (), ⟨contest.state, contest.meanwhile, contest.events ++ events⟩))

@[simp]
theorem runOn_pure (a : α) (contest : Contest S F V) :
    runOn (pure a : Contended S F V E α) contest = (.ok a, contest) := rfl

@[simp]
theorem runOn_throw (e : E) (contest : Contest S F V) :
    runOn (throw e : Contended S F V E α) contest = (.error e, contest) := rfl

variable {m : Contended S F V E α} {contest left : Contest S F V} {a : α} {e : E}

theorem runOn_bind_ok (h : runOn m contest = (.ok a, left)) (f : α → Contended S F V E β) :
    runOn (m >>= f) contest = runOn (f a) left := by
  have hrun : runOn (m >>= f) contest =
      runOn (ExceptT.mk (StateT.bind m.run (ExceptT.bindCont f))) contest := rfl
  rw [hrun, runOn]
  simp only [ExceptT.run_mk, StateT.run, StateT.bind]
  rw [runOn, StateT.run, Id.run] at h
  rw [h]
  rfl

theorem runOn_bind_error (h : runOn m contest = (.error e, left))
    (f : α → Contended S F V E β) : runOn (m >>= f) contest = (.error e, left) := by
  have hrun : runOn (m >>= f) contest =
      runOn (ExceptT.mk (StateT.bind m.run (ExceptT.bindCont f))) contest := rfl
  rw [hrun, runOn]
  simp only [ExceptT.run_mk, StateT.run, StateT.bind]
  rw [runOn, StateT.run, Id.run] at h
  rw [h]
  rfl

theorem runOn_tryCatch_ok (h : runOn m contest = (.ok a, left))
    (f : E → Contended S F V E α) : runOn (tryCatch m f) contest = (.ok a, left) := by
  have hrun : runOn (tryCatch m f) contest = runOn (ExceptT.tryCatch m f) contest := rfl
  rw [hrun, runOn, ExceptT.tryCatch, ExceptT.run_mk, StateT.run_bind, Id.run_bind]
  have hleft : (StateT.run m contest).run = (.ok a, left) := h
  rw [hleft]
  rfl

theorem runOn_tryCatch_error (h : runOn m contest = (.error e, left))
    (f : E → Contended S F V E α) : runOn (tryCatch m f) contest = runOn (f e) left := by
  have hrun : runOn (tryCatch m f) contest = runOn (ExceptT.tryCatch m f) contest := rfl
  rw [hrun, runOn, ExceptT.tryCatch, ExceptT.run_mk, StateT.run_bind, Id.run_bind]
  have hleft : (StateT.run m contest).run = (.error e, left) := h
  rw [hleft]
  rfl

/-! ## What a computation ends with -/

/-- Whatever the others do, its result and its events are in `P`. -/
def EndsWith (m : Contended S F V E α) (P : Except E α → List V → Prop) : Prop :=
  ∀ contest, ∃ events, (runOn m contest).2.events = contest.events ++ events ∧
    P (runOn m contest).1 events

variable {P : Except E α → List V → Prop} {Q : Except E β → List V → Prop}
variable {m : Contended S F V E α}

theorem EndsWith.pure (h : P (.ok a) []) : EndsWith (pure a : Contended S F V E α) P :=
  fun _ => ⟨[], (List.append_nil _).symm, h⟩

theorem EndsWith.throw (h : P (.error e) []) : EndsWith (throw e : Contended S F V E α) P :=
  fun _ => ⟨[], (List.append_nil _).symm, h⟩

theorem EndsWith.note {events : List V} {P : Except E Unit → List V → Prop}
    (h : P (.ok ()) events) : EndsWith (note events : Contended S F V E Unit) P :=
  fun _ => ⟨events, rfl, h⟩

theorem EndsWith.mono {P' : Except E α → List V → Prop} (h : EndsWith m P)
    (himp : ∀ result events, P result events → P' result events) : EndsWith m P' := by
  intro contest
  obtain ⟨events, hevents, hend⟩ := h contest
  exact ⟨events, hevents, himp _ _ hend⟩

/-- The first computation, and what follows from each of its results. -/
theorem EndsWith.bind {f : α → Contended S F V E β} (hm : EndsWith m P)
    (hok : ∀ a events, P (.ok a) events →
      EndsWith (f a) fun result later => Q result (events ++ later))
    (herror : ∀ e events, P (.error e) events → Q (.error e) events) : EndsWith (m >>= f) Q := by
  intro contest
  obtain ⟨events, hevents, hend⟩ := hm contest
  rcases hrun : runOn m contest with ⟨e | a, left⟩
  · rw [hrun] at hevents hend
    rw [runOn_bind_error hrun]
    exact ⟨events, hevents, herror e events hend⟩
  · rw [hrun] at hevents hend
    rw [runOn_bind_ok hrun]
    obtain ⟨later, hlater, hend'⟩ := hok a events hend left
    refine ⟨events ++ later, ?_, hend'⟩
    rw [← List.append_assoc, ← hevents]
    exact hlater

theorem EndsWith.tryCatch {f : E → Contended S F V E α} {R : Except E α → List V → Prop}
    (hm : EndsWith m P) (hok : ∀ a events, P (.ok a) events → R (.ok a) events)
    (herror : ∀ e events, P (.error e) events →
      EndsWith (f e) fun result later => R result (events ++ later)) :
    EndsWith (tryCatch m f) R := by
  intro contest
  obtain ⟨events, hevents, hend⟩ := hm contest
  rcases hrun : runOn m contest with ⟨e | a, left⟩
  · rw [hrun] at hevents hend
    rw [runOn_tryCatch_error hrun]
    obtain ⟨later, hlater, hend'⟩ := herror e events hend left
    refine ⟨events ++ later, ?_, hend'⟩
    rw [← List.append_assoc, ← hevents]
    exact hlater
  · rw [hrun] at hevents hend
    rw [runOn_tryCatch_ok hrun]
    exact ⟨events, hevents, hok a events hend⟩

/-- An operation fails before it does anything, or does what it does on some state. -/
theorem EndsWith.operation {thrown : F → E} {f : S → Except E (α × S × List V)}
    (hfault : ∀ fault, P (.error (thrown fault)) [])
    (herror : ∀ state e, f state = .error e → P (.error e) [])
    (hok : ∀ state a after events, f state = .ok (a, after, events) → P (.ok a) events) :
    EndsWith (operation thrown f) P := by
  intro contest
  have hfound : (Contest.found contest).events = contest.events := by
    rcases contest with ⟨_, _ | ⟨_, _⟩, _⟩ <;> rfl
  rcases hmeanwhile : contest.meanwhile.head?.bind Meanwhile.fault with _ | fault
  · have hrun : runOn (Contended.operation thrown f) contest =
        operated (Contest.found contest) (f (Contest.found contest).state) := by
      simp only [runOn, Contended.operation, ExceptT.run_mk, StateT.run_mk, hmeanwhile]
      rfl
    rw [hrun]
    rcases hf : f (Contest.found contest).state with e | ⟨a, state, events⟩
    · exact ⟨[], by simpa [operated] using hfound, herror _ _ hf⟩
    · exact ⟨events, by simp [operated, hfound], hok _ _ _ _ hf⟩
  · have hrun : runOn (Contended.operation thrown f) contest =
        (.error (thrown fault), Contest.found contest) := by
      simp only [runOn, Contended.operation, ExceptT.run_mk, StateT.run_mk, hmeanwhile]
      rfl
    rw [hrun]
    exact ⟨[], by simpa using hfound, hfault fault⟩

/-! ## Trying again -/

/-- Tries again, so often at most, until there is a result. -/
def retry (round : Contended S F V E (Option α)) (spent : E) : Nat → Contended S F V E α
  | 0 => throw spent
  | rounds + 1 => do
    let outcome ← round
    outcome.elim (retry round spent rounds) pure

/-- A round was lost, or it is the last one. -/
def Lost (lost : List V → Prop) (last : Except E α → List V → Prop) :
    Except E (Option α) → List V → Prop
  | .ok none => lost
  | .ok (some a) => last (.ok a)
  | .error e => last (.error e)

/-- So many rounds were lost before the last one; or all of them. -/
def Rounds (lost : List V → Prop) (last : Except E α → List V → Prop) (spent : E) (rounds : Nat)
    (result : Except E α) (events : List V) : Prop :=
  ∃ (before : List (List V)) (final : List V), events = before.flatten ++ final ∧
    (∀ round ∈ before, lost round) ∧
    (before.length < rounds ∧ last result final ∨
      before.length = rounds ∧ final = [] ∧ result = .error spent)

variable {round : Contended S F V E (Option α)} {lost : List V → Prop}
  {last : Except E α → List V → Prop}

/-- **What every round ends with, trying again ends with**, by induction on the rounds left. -/
theorem EndsWith.retry {spent : E} (h : EndsWith round (Lost lost last)) (rounds : Nat) :
    EndsWith (retry round spent rounds) (Rounds lost last spent rounds) := by
  induction rounds with
  | zero => exact .throw ⟨[], [], rfl, nofun, .inr ⟨rfl, rfl, rfl⟩⟩
  | succ rounds ih =>
    refine h.bind (fun outcome events hround => ?_) fun e events hround => ?_
    · cases outcome with
      | none =>
        refine ih.mono ?_
        rintro result later ⟨before, final, rfl, hlost, hend⟩
        refine ⟨events :: before, final, by simp, ?_, ?_⟩
        · exact List.forall_mem_cons.mpr ⟨hround, hlost⟩
        · exact hend.imp (.imp_left (Nat.add_lt_add_right · 1))
            (.imp_left (congrArg (· + 1)))
      | some a =>
        refine .pure ⟨[], events, by simp, nofun, .inl ⟨Nat.zero_lt_succ _, ?_⟩⟩
        exact hround
    · exact ⟨[], events, by simp, nofun, .inl ⟨Nat.zero_lt_succ _, hround⟩⟩

end Contended

end Catamorphic
