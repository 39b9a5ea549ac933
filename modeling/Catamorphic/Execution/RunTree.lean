import Catamorphic.Execution.RunCoordinator

/-!
# The tree of runs

A run in a terminal status stays in it, and it has no live attempt; an active run has at most
one, the one its row names. An attempt that called a child waits until the child's end is told
to it. Within a transaction some ends are not told yet, and some children of a failed run
still work: the invariant names these runs.
-/

namespace Catamorphic.Execution.Coordinator

open Function Option

/-- The run is in a terminal status. -/
def World.Over (w : World) (runId : RunId) : Prop :=
  ∃ run, w.runs runId = some run ∧ run.status.isTerminal = true

def World.Waits (w : World) (attemptId : AttemptId) : Prop :=
  ∃ attempt, w.attempts attemptId = some attempt ∧ attempt.status = .waiting

def World.ParentIs (w : World) (child : RunId) (parent : RunId) (attemptId : AttemptId) : Prop :=
  ∃ run, w.runs child = some run ∧ run.parent = some (parent, attemptId)

/-- The attempt began, and does not run any more. -/
def AttemptStatus.past (status : AttemptStatus) : Prop := status ≠ .pending ∧ status ≠ .running

/-- What holds of the rows. -/
structure Base (w : World) : Prop where
  runs_lt : ∀ r run, w.runs r = some run → r < w.nextRun
  attempts_lt : ∀ a attempt, w.attempts a = some attempt → a < w.nextAttempt
  /-- A parent is older, and a boundary's attempt called the child. -/
  parent : ∀ c p a, w.ParentIs c p a → p < c ∧ ∃ attempt, w.attempts a = some attempt ∧
    attempt.runId = p ∧ attempt.step.executor = .boundary ∧ attempt.status.past
  onlyChild : ∀ c c' p p' a, w.ParentIs c p a → w.ParentIs c' p' a → c = c'
  owner : ∀ a attempt, w.attempts a = some attempt → ∃ run, w.runs attempt.runId = some run ∧
    run.executionPlan[attempt.stepIndex]? = some attempt.step ∧
    attempt.stepIndex ≤ run.currentStepIndex
  /-- The active attempt is the last of its step. -/
  active : ∀ r run a, w.runs r = some run → run.activeAttempt = some a →
    ∃ attempt, w.attempts a = some attempt ∧ attempt.runId = r ∧
      attempt.stepIndex = run.currentStepIndex ∧
      ∀ b other, w.attempts b = some other → other.runId = r →
        other.stepIndex = run.currentStepIndex → other.attempt ≤ attempt.attempt
  numbers : ∀ a attempt, w.attempts a = some attempt →
    1 ≤ attempt.attempt ∧ attempt.attempt ≤ attempt.step.attempts
  distinct : ∀ a b attempt other, w.attempts a = some attempt → w.attempts b = some other →
    attempt.runId = other.runId → attempt.stepIndex = other.stepIndex →
    attempt.attempt = other.attempt → a = b
  /-- Only the active attempt of a run that goes on is live. -/
  live : ∀ a attempt, w.attempts a = some attempt → attempt.status.isLive = true →
    ∃ run, w.runs attempt.runId = some run ∧ run.activeAttempt = some a ∧
      run.status.isTerminal = false
  status : ∀ r run, w.runs r = some run → run.status ≠ .canceling
  paused : ∀ r run, w.runs r = some run → run.status = .paused →
    ∃ a attempt, run.activeAttempt = some a ∧ w.attempts a = some attempt ∧
      attempt.step.executor = .batch
  previous : ∀ r run status phase, w.runs r = some run →
    run.operatorPausePrevious = some (status, phase) → status.isActive = true
  /-- An attempt that pauses calls no child. -/
  pauses : ∀ pause ∈ w.pauses, ∃ attempt, w.attempts pause.attemptId = some attempt ∧
    attempt.runId = pause.runId ∧ attempt.status.past ∧
    ∀ c p, ¬w.ParentIs c p pause.attemptId

/-- Ends are told but for the runs in `T`, and work is waited for but for the runs in `O`. -/
structure Linked (T O : RunId → Prop) (w : World) : Prop where
  told : ∀ c p a, w.ParentIs c p a → w.Over c → w.Waits a → T c
  working : ∀ c p a, w.ParentIs c p a → ¬w.Over c → w.Waits a ∨ O c

/-- Runs stay, and terminal statuses. -/
def Stays (w w' : World) : Prop :=
  ∀ r run, w.runs r = some run → ∃ run', w'.runs r = some run' ∧
    (run.status.isTerminal = true → run'.status = run.status)

/-- No attempt of the run is live. -/
def World.NoLive (w : World) (runId : RunId) : Prop :=
  ∀ a attempt, w.attempts a = some attempt → attempt.runId = runId →
    attempt.status.isLive = false

variable {w w' w'' : World} {T T' O O' : RunId → Prop} {r c p : RunId} {a : AttemptId}
  {run run' : Run} {attempt attempt' : Attempt}

theorem Stays.refl (w : World) : Stays w w := fun _ run hrun => ⟨run, hrun, fun _ => rfl⟩

theorem Stays.trans (h : Stays w w') (h' : Stays w' w'') : Stays w w'' := by
  intro r run hrun
  obtain ⟨run', hrun', hstatus⟩ := h r run hrun
  obtain ⟨run'', hrun'', hstatus'⟩ := h' r run' hrun'
  refine ⟨run'', hrun'', fun hterminal => ?_⟩
  have hsame := hstatus hterminal
  exact (hstatus' (hsame ▸ hterminal)).trans hsame

theorem Stays.over (h : Stays w w') (hover : w.Over r) : w'.Over r := by
  obtain ⟨run, hrun, hterminal⟩ := hover
  obtain ⟨run', hrun', hstatus⟩ := h r run hrun
  exact ⟨run', hrun', hstatus hterminal ▸ hterminal⟩

theorem Linked.mono (h : Linked T O w) (hT : ∀ c, T c → T' c) (hO : ∀ c, O c → O' c) :
    Linked T' O' w where
  told := fun c p a hparent hover hwaits => hT c (h.told c p a hparent hover hwaits)
  working := fun c p a hparent hover => (h.working c p a hparent hover).imp_right (hO c)

variable {status : AttemptStatus} {r' : RunId}

theorem isLive_waiting (h : status = .waiting) : status.isLive = true := by
  rw [h]
  rfl

theorem isTerminal_of_isActive {status : RunStatus} (h : status.isActive = true) :
    status.isTerminal = false := by
  cases status <;> first | rfl | cases h

theorem past_of_not_live (h : status.isLive = false) : status.past := by
  refine ⟨?_, ?_⟩ <;>
  · rintro rfl
    cases h

/-! ## Reading updated rows -/

theorem setRun_runs_self : (w.setRun r run).runs r = some run := update_self ..

theorem setRun_runs_of_ne (h : r' ≠ r) : (w.setRun r run).runs r' = w.runs r' :=
  update_of_ne h ..

theorem setAttempt_attempts_self : (w.setAttempt a attempt).attempts a = some attempt :=
  update_self ..

variable {b : AttemptId}

theorem setAttempt_attempts_of_ne (h : b ≠ a) :
    (w.setAttempt a attempt).attempts b = w.attempts b :=
  update_of_ne h ..

/-- A run's row after one of them was set. -/
theorem setRun_runs {other : Run} (h : (w.setRun r run).runs r' = some other) :
    r' = r ∧ other = run ∨ r' ≠ r ∧ w.runs r' = some other := by
  by_cases hsame : r' = r
  · subst hsame
    rw [setRun_runs_self, some.injEq] at h
    exact .inl ⟨rfl, h.symm⟩
  · rw [setRun_runs_of_ne hsame] at h
    exact .inr ⟨hsame, h⟩

theorem setAttempt_attempts {other : Attempt} (h : (w.setAttempt a attempt).attempts b = some other)
    : b = a ∧ other = attempt ∨ b ≠ a ∧ w.attempts b = some other := by
  by_cases hsame : b = a
  · subst hsame
    rw [setAttempt_attempts_self, some.injEq] at h
    exact .inl ⟨rfl, h.symm⟩
  · rw [setAttempt_attempts_of_ne hsame] at h
    exact .inr ⟨hsame, h⟩

/-- An update that keeps every run's parent. -/
theorem parentIs_setRun (hrun : w.runs r = some run) (hparent : run'.parent = run.parent) :
    (w.setRun r run').ParentIs c p a ↔ w.ParentIs c p a := by
  constructor
  · rintro ⟨child, hchild, hof⟩
    rcases setRun_runs hchild with ⟨rfl, rfl⟩ | ⟨-, hold⟩
    · exact ⟨run, hrun, hparent.symm.trans hof⟩
    · exact ⟨child, hold, hof⟩
  · rintro ⟨child, hchild, hof⟩
    by_cases hsame : c = r
    · subst hsame
      cases hrun.symm.trans hchild
      exact ⟨run', setRun_runs_self, hparent.trans hof⟩
    · exact ⟨child, (setRun_runs_of_ne hsame).trans hchild, hof⟩

theorem over_setRun : (w.setRun r run').Over c ↔
    c = r ∧ run'.status.isTerminal = true ∨ c ≠ r ∧ w.Over c := by
  constructor
  · rintro ⟨child, hchild, hover⟩
    rcases setRun_runs hchild with ⟨rfl, rfl⟩ | ⟨hne, hold⟩
    · exact .inl ⟨rfl, hover⟩
    · exact .inr ⟨hne, child, hold, hover⟩
  · rintro (⟨rfl, hover⟩ | ⟨hne, child, hchild, hover⟩)
    · exact ⟨run', setRun_runs_self, hover⟩
    · exact ⟨child, (setRun_runs_of_ne hne).trans hchild, hover⟩

theorem waits_setAttempt : (w.setAttempt a attempt').Waits b ↔
    b = a ∧ attempt'.status = .waiting ∨ b ≠ a ∧ w.Waits b := by
  constructor
  · rintro ⟨other, hother, hwaits⟩
    rcases setAttempt_attempts hother with ⟨rfl, rfl⟩ | ⟨hne, hold⟩
    · exact .inl ⟨rfl, hwaits⟩
    · exact .inr ⟨hne, other, hold, hwaits⟩
  · rintro (⟨rfl, hwaits⟩ | ⟨hne, other, hother, hwaits⟩)
    · exact ⟨attempt', setAttempt_attempts_self, hwaits⟩
    · exact ⟨other, (setAttempt_attempts_of_ne hne).trans hother, hwaits⟩

/-! ## Updates inside a transaction -/

/-- In a transaction from `w₀`, before it starts a run. -/
structure Tree (T O : RunId → Prop) (w₀ w : World) : Prop extends Base w, Linked T O w where
  stays : Stays w₀ w
  family : ∀ c p a, w.ParentIs c p a → w₀.ParentIs c p a

/-- Where an attempt is in its run's plan. -/
def Attempt.place (attempt : Attempt) : RunId × Nat × Step × Nat :=
  (attempt.runId, attempt.stepIndex, attempt.step, attempt.attempt)

/-- Runs stay as they are; attempts and pauses keep their places, and no attempt revives. -/
structure Ages (w w' : World) : Prop where
  runs : w'.runs = w.runs
  nextRun : w'.nextRun = w.nextRun
  nextAttempt : w'.nextAttempt = w.nextAttempt
  pauses : ∀ pause ∈ w'.pauses, ∃ old ∈ w.pauses, old.attemptId = pause.attemptId ∧
    old.runId = pause.runId
  old : ∀ b attempt', w'.attempts b = some attempt' → ∃ attempt, w.attempts b = some attempt ∧
    attempt'.place = attempt.place ∧
    (attempt'.status.isLive = true → attempt.status.isLive = true)
  new : ∀ b attempt, w.attempts b = some attempt → ∃ attempt', w'.attempts b = some attempt' ∧
    attempt'.place = attempt.place ∧ (attempt.status.past → attempt'.status.past)

theorem place_eq {attempt : Attempt} (h : attempt'.place = attempt.place) :
    attempt'.runId = attempt.runId ∧ attempt'.stepIndex = attempt.stepIndex ∧
      attempt'.step = attempt.step ∧ attempt'.attempt = attempt.attempt := by
  injection h with hrun hrest
  injection hrest with hindex hrest
  injection hrest with hstep hnumber
  exact ⟨hrun, hindex, hstep, hnumber⟩

theorem Ages.parentIs (h : Ages w w') : w'.ParentIs c p a ↔ w.ParentIs c p a := by
  rw [World.ParentIs, World.ParentIs, h.runs]

theorem Ages.over (h : Ages w w') : w'.Over c ↔ w.Over c := by
  rw [World.Over, World.Over, h.runs]

theorem Base.ages (h : Base w) (hages : Ages w w') : Base w' where
  runs_lt := by
    rw [hages.runs, hages.nextRun]
    exact h.runs_lt
  attempts_lt := by
    intro b attempt' hattempt'
    obtain ⟨attempt, hattempt, -⟩ := hages.old b attempt' hattempt'
    exact hages.nextAttempt ▸ h.attempts_lt b attempt hattempt
  parent := by
    intro c p b hparent
    obtain ⟨hlt, attempt, hattempt, hrun, hboundary, hpast⟩ :=
      h.parent c p b (hages.parentIs.mp hparent)
    obtain ⟨attempt', hattempt', hplace, hpast'⟩ := hages.new b attempt hattempt
    obtain ⟨hrun', -, hstep', -⟩ := place_eq hplace
    exact ⟨hlt, attempt', hattempt', hrun'.trans hrun, hstep' ▸ hboundary, hpast' hpast⟩
  onlyChild := fun c c' p p' b hparent hparent' =>
    h.onlyChild c c' p p' b (hages.parentIs.mp hparent) (hages.parentIs.mp hparent')
  owner := by
    intro b attempt' hattempt'
    obtain ⟨attempt, hattempt, hplace, -⟩ := hages.old b attempt' hattempt'
    obtain ⟨hrun', hindex', hstep', -⟩ := place_eq hplace
    rw [hages.runs, hrun', hindex', hstep']
    exact h.owner b attempt hattempt
  active := by
    intro r run b hrun hactive
    obtain ⟨attempt, hattempt, howner, hindex, hlast⟩ :=
      h.active r run b (hages.runs ▸ hrun) hactive
    obtain ⟨attempt', hattempt', hplace, -⟩ := hages.new b attempt hattempt
    obtain ⟨hrun', hindex', -, hnumber'⟩ := place_eq hplace
    refine ⟨attempt', hattempt', hrun'.trans howner, hindex'.trans hindex, ?_⟩
    intro b' other' hother' hof hat
    obtain ⟨other, hother, hplace', -⟩ := hages.old b' other' hother'
    obtain ⟨hof', hat', -, hnumber''⟩ := place_eq hplace'
    rw [hnumber', hnumber'']
    exact hlast b' other hother (hof'.symm.trans hof) (hat'.symm.trans hat)
  numbers := by
    intro b attempt' hattempt'
    obtain ⟨attempt, hattempt, hplace, -⟩ := hages.old b attempt' hattempt'
    obtain ⟨-, -, hstep', hnumber'⟩ := place_eq hplace
    rw [hstep', hnumber']
    exact h.numbers b attempt hattempt
  distinct := by
    intro b b' attempt' other' hattempt' hother' hrun hindex hnumber
    obtain ⟨attempt, hattempt, hplace, -⟩ := hages.old b attempt' hattempt'
    obtain ⟨other, hother, hplace', -⟩ := hages.old b' other' hother'
    obtain ⟨hr, hi, -, hn⟩ := place_eq hplace
    obtain ⟨hr', hi', -, hn'⟩ := place_eq hplace'
    exact h.distinct b b' attempt other hattempt hother (hr ▸ hr' ▸ hrun) (hi ▸ hi' ▸ hindex)
      (hn ▸ hn' ▸ hnumber)
  live := by
    intro b attempt' hattempt' hlive'
    obtain ⟨attempt, hattempt, hplace, hlive⟩ := hages.old b attempt' hattempt'
    rw [hages.runs, (place_eq hplace).1]
    exact h.live b attempt hattempt (hlive hlive')
  status := by
    rw [hages.runs]
    exact h.status
  paused := by
    intro r run hrun hpaused
    obtain ⟨b, attempt, hactive, hattempt, hbatch⟩ := h.paused r run (hages.runs ▸ hrun) hpaused
    obtain ⟨attempt', hattempt', hplace, -⟩ := hages.new b attempt hattempt
    exact ⟨b, attempt', hactive, hattempt', (place_eq hplace).2.2.1 ▸ hbatch⟩
  previous := by
    rw [hages.runs]
    exact h.previous
  pauses := by
    intro pause hpause
    obtain ⟨old, hold, hattempt, hrun⟩ := hages.pauses pause hpause
    obtain ⟨attempt, hrow, howner, hpast, hno⟩ := h.pauses old hold
    obtain ⟨attempt', hrow', hplace, hpast'⟩ := hages.new _ attempt hrow
    rw [← hattempt, ← hrun]
    exact ⟨attempt', hrow', (place_eq hplace).1.trans howner, hpast' hpast,
      fun c p hparent => hno c p (hages.parentIs.mp hparent)⟩

variable {w₀ : World}

theorem Tree.ages (h : Tree T O w₀ w) (hages : Ages w w')
    (hwaits : ∀ c p a, w.ParentIs c p a → w'.Waits a → w.Waits a)
    (hfree : ∀ c p a, w.ParentIs c p a → ¬w.Over c → w.Waits a → w'.Waits a ∨ O c) :
    Tree T O w₀ w' where
  toBase := h.toBase.ages hages
  told := by
    intro c p b hparent hover hwaiting
    have hparent := hages.parentIs.mp hparent
    exact h.told c p b hparent (hages.over.mp hover) (hwaits c p b hparent hwaiting)
  working := by
    intro c p b hparent hover
    have hparent := hages.parentIs.mp hparent
    have hover : ¬w.Over c := fun hold => hover (hages.over.mpr hold)
    rcases h.working c p b hparent hover with hwaiting | hO
    · exact hfree c p b hparent hover hwaiting
    · exact .inr hO
  stays := by
    intro r run hrun
    rw [hages.runs]
    exact h.stays r run hrun
  family := fun c p a hparent => h.family c p a (hages.parentIs.mp hparent)

/-- Attempts and runs are the same ones. -/
theorem Ages.same (hruns : w'.runs = w.runs) (hattempts : w'.attempts = w.attempts)
    (hnextRun : w'.nextRun = w.nextRun) (hnextAttempt : w'.nextAttempt = w.nextAttempt)
    (hpauses : ∀ pause ∈ w'.pauses, ∃ old ∈ w.pauses, old.attemptId = pause.attemptId ∧
      old.runId = pause.runId) : Ages w w' where
  runs := hruns
  nextRun := hnextRun
  nextAttempt := hnextAttempt
  pauses := hpauses
  old := fun _ attempt hattempt => ⟨attempt, hattempts ▸ hattempt, rfl, id⟩
  new := fun _ attempt hattempt => ⟨attempt, hattempts.symm ▸ hattempt, rfl, id⟩

/-- Pauses may change but for the attempts they are of; attempts and runs do not. -/
theorem Tree.same (h : Tree T O w₀ w) (hages : Ages w w') (hattempts : w'.attempts = w.attempts) :
    Tree T O w₀ w' := by
  have hwaits : ∀ b, w'.Waits b ↔ w.Waits b := by
    intro b
    rw [World.Waits, World.Waits, hattempts]
  exact h.ages hages (fun c p b _ => (hwaits b).mp) fun c p b _ _ hb => .inl ((hwaits b).mpr hb)

variable {set : Pause → Pause}

section

variable (h : Tree T O w₀ w)
include h

theorem Tree.map_pauses {resolved : List (PauseId × Resolution)}
    {signals : List Signal} {sequence : Nat}
    (hset : ∀ pause, (set pause).attemptId = pause.attemptId ∧ (set pause).runId = pause.runId) :
    Tree T O w₀ { w with pauses := w.pauses.map set, resolved, signals, nextSequence := sequence
      } := by
  refine h.same (.same rfl rfl rfl rfl ?_) rfl
  intro pause hpause
  obtain ⟨old, hold, rfl⟩ := List.mem_map.mp hpause
  exact ⟨old, hold, (hset old).1.symm, (hset old).2.symm⟩

theorem Tree.signals (signals : List Signal) (sequence : Nat) :
    Tree T O w₀ { w with signals, nextSequence := sequence } :=
  h.same (.same rfl rfl rfl rfl fun pause hpause => ⟨pause, hpause, rfl, rfl⟩) rfl

theorem Tree.cancelPauses (which : Pause → Bool) : Tree T O w₀ (w.cancelPauses which) := by
  refine h.map_pauses fun pause => ?_
  split
  · exact ⟨rfl, rfl⟩
  · exact ⟨rfl, rfl⟩

theorem Tree.resolve (pauseId : PauseId) (resolution : Resolution)
    (hset : ∀ pause, (set pause).attemptId = pause.attemptId ∧ (set pause).runId = pause.runId) :
    Tree T O w₀ (w.resolve pauseId resolution set) := by
  refine h.map_pauses fun pause => ?_
  split
  · exact hset pause
  · exact ⟨rfl, rfl⟩

omit h in
/-- An attempt changes in its place. -/
theorem Ages.setAttempt (hattempt : w.attempts a = some attempt)
    (hplace : attempt'.place = attempt.place)
    (hlive : attempt'.status.isLive = true → attempt.status.isLive = true)
    (hpast : attempt.status.past → attempt'.status.past) : Ages w (w.setAttempt a attempt') where
  runs := rfl
  nextRun := rfl
  nextAttempt := rfl
  pauses := fun pause hpause => ⟨pause, hpause, rfl, rfl⟩
  old := by
    intro b other' hother'
    rcases setAttempt_attempts hother' with ⟨rfl, rfl⟩ | ⟨-, hother⟩
    · exact ⟨attempt, hattempt, hplace, hlive⟩
    · exact ⟨other', hother, rfl, id⟩
  new := by
    intro b other hother
    by_cases hsame : b = a
    · subst hsame
      cases hattempt.symm.trans hother
      exact ⟨attempt', setAttempt_attempts_self, hplace, hpast⟩
    · exact ⟨other, (setAttempt_attempts_of_ne hsame).trans hother, rfl, id⟩

/-- A live attempt ends, and no work is left that it waited for. -/
theorem Tree.endAttempt (attempt' : Attempt)
    (hattempt : w.attempts a = some attempt) (hplace : attempt'.place = attempt.place)
    (hend : attempt'.status.isLive = false) (hfree : ∀ c p, w.ParentIs c p a → ¬w.Over c → O c)
    (hT : ∀ c p b, w.ParentIs c p b → b ≠ a → T c → T' c) :
    Tree T' O w₀ (w.setAttempt a attempt') := by
  have hold : ∀ b, (w.setAttempt a attempt').Waits b → b ≠ a ∧ w.Waits b := by
    intro b hwaits
    rcases waits_setAttempt.mp hwaits with ⟨-, hwaiting⟩ | hother
    · rw [isLive_waiting hwaiting] at hend
      cases hend
    · exact hother
  have hset := h.ages (.setAttempt hattempt hplace (fun hlive => by rw [hend] at hlive; cases hlive)
    fun _ => past_of_not_live hend) (fun c p b _ hwaits => (hold b hwaits).2) ?_
  · exact ⟨hset.toBase, ⟨fun c p b hparent hover hwaits => hT c p b hparent (hold b hwaits).1
      (hset.told c p b hparent hover hwaits), hset.working⟩, hset.stays, hset.family⟩
  · intro c p b hparent hover hwaits
    by_cases hsame : b = a
    · exact .inr (hfree c p (hsame ▸ hparent) hover)
    · exact .inl (waits_setAttempt.mpr (.inr ⟨hsame, hwaits⟩))

end

/-- The only live attempt of a run ended. -/
theorem Base.noLive_setAttempt (h : Base w) (attempt' : Attempt) (hrun : w.runs r = some run)
    (hactive : run.activeAttempt = some a) (hend : attempt'.status.isLive = false) :
    (w.setAttempt a attempt').NoLive r := by
  intro b other hother hof
  rcases setAttempt_attempts hother with ⟨-, rfl⟩ | ⟨hne, hold⟩
  · exact hend
  · refine Bool.eq_false_iff.mpr fun hlive => hne ?_
    obtain ⟨run', hrun', hactive', -⟩ := h.live b other hold hlive
    rw [hof, hrun] at hrun'
    cases hrun'
    exact some.inj (hactive'.symm.trans hactive)

/-! ## Updates of a run's row -/

/-- Where a run is in its plan and in the tree. -/
def Run.place (run : Run) : Option (RunId × AttemptId) × List Step × Nat :=
  (run.parent, run.executionPlan, run.currentStepIndex)

/-- What an update of a run's row may do. -/
structure Updates (w : World) (r : RunId) (run run' : Run) : Prop where
  place : run'.place = run.place
  active : run'.activeAttempt = run.activeAttempt ∨ run'.activeAttempt = none
  live : w.NoLive r ∨ run'.activeAttempt = run.activeAttempt ∧ run'.status.isTerminal = false
  status : run'.status ≠ .canceling
  paused : run'.status = .paused → run'.activeAttempt = run.activeAttempt ∧
    (run.status = .paused ∨ (w.activeBatch run).isSome = true)
  previous : ∀ status phase, run'.operatorPausePrevious = some (status, phase) →
    run.operatorPausePrevious = some (status, phase) ∨ status.isActive = true
  stays : run.status.isTerminal = true → run'.status = run.status

theorem activeBatch_spec (h : w.activeBatch run = some attempt) :
    ∃ a, run.activeAttempt = some a ∧ w.attempts a = some attempt ∧
      attempt.step.executor = .batch := by
  rw [World.activeBatch, filter_eq_some_iff, bind_eq_some_iff] at h
  obtain ⟨⟨a, hactive, hattempt⟩, hbatch⟩ := h
  exact ⟨a, hactive, hattempt, of_decide_eq_true hbatch⟩

theorem runPlace_eq (h : run'.place = run.place) : run'.parent = run.parent ∧
    run'.executionPlan = run.executionPlan ∧ run'.currentStepIndex = run.currentStepIndex := by
  injection h with hparent hrest
  injection hrest with hplan hindex
  exact ⟨hparent, hplan, hindex⟩

theorem Base.setRun (h : Base w) (hrun : w.runs r = some run) (hupdate : Updates w r run run') :
    Base (w.setRun r run') := by
  obtain ⟨hparent', hplan', hindex'⟩ := runPlace_eq hupdate.place
  have hparentIs : ∀ c p a, (w.setRun r run').ParentIs c p a → w.ParentIs c p a :=
    fun c p a => (parentIs_setRun hrun hparent').mp
  refine ⟨?_, h.attempts_lt, fun c p a hparent => h.parent c p a (hparentIs c p a hparent), ?_,
    ?_, ?_, h.numbers, h.distinct, ?_, ?_, ?_, ?_, ?_⟩
  · intro r' other hother
    rcases setRun_runs hother with ⟨rfl, -⟩ | ⟨-, hold⟩
    · exact h.runs_lt r' run hrun
    · exact h.runs_lt r' other hold
  · exact fun c c' p p' a hparent hparent' =>
      h.onlyChild c c' p p' a (hparentIs c p a hparent) (hparentIs c' p' a hparent')
  · intro a attempt hattempt
    obtain ⟨owner, howner, hplan, hindex⟩ := h.owner a attempt hattempt
    by_cases hsame : attempt.runId = r
    · subst hsame
      cases hrun.symm.trans howner
      exact ⟨run', setRun_runs_self, hplan' ▸ hplan, hindex' ▸ hindex⟩
    · exact ⟨owner, (setRun_runs_of_ne hsame).trans howner, hplan, hindex⟩
  · intro r' other a hother hactive
    rcases setRun_runs hother with ⟨rfl, rfl⟩ | ⟨-, hold⟩
    · rw [hindex']
      rcases hupdate.active with hsame | hnone
      · exact h.active r' run a hrun (hsame.symm.trans hactive)
      · rw [hnone] at hactive
        cases hactive
    · exact h.active r' other a hold hactive
  · intro a attempt hattempt hlive
    obtain ⟨owner, howner, hactive, hterminal⟩ := h.live a attempt hattempt hlive
    by_cases hsame : attempt.runId = r
    · rw [hsame] at howner
      cases hrun.symm.trans howner
      rw [hsame]
      rcases hupdate.live with hnone | ⟨hkept, hterminal'⟩
      · rw [hnone a attempt hattempt hsame] at hlive
        cases hlive
      · exact ⟨run', setRun_runs_self, hkept.trans hactive, hterminal'⟩
    · exact ⟨owner, (setRun_runs_of_ne hsame).trans howner, hactive, hterminal⟩
  · intro r' other hother
    rcases setRun_runs hother with ⟨-, rfl⟩ | ⟨-, hold⟩
    · exact hupdate.status
    · exact h.status r' other hold
  · intro r' other hother hpaused
    rcases setRun_runs hother with ⟨rfl, rfl⟩ | ⟨-, hold⟩
    · obtain ⟨hkept, hwas | hbatch⟩ := hupdate.paused hpaused
      · rw [hkept]
        exact h.paused r' run hrun hwas
      · obtain ⟨attempt, hattempt⟩ := isSome_iff_exists.mp hbatch
        obtain ⟨a, hactive, hrow, hexecutor⟩ := activeBatch_spec hattempt
        exact ⟨a, attempt, hkept.trans hactive, hrow, hexecutor⟩
    · exact h.paused r' other hold hpaused
  · intro r' other status phase hother hprevious
    rcases setRun_runs hother with ⟨rfl, rfl⟩ | ⟨-, hold⟩
    · exact (hupdate.previous status phase hprevious).elim (h.previous r' run status phase hrun) id
    · exact h.previous r' other status phase hold hprevious
  · intro pause hpause
    obtain ⟨attempt, hattempt, howner, hpast, hno⟩ := h.pauses pause hpause
    exact ⟨attempt, hattempt, howner, hpast, fun c p hparent => hno c p (hparentIs c p _ hparent)⟩

/-- A run's row changes; a run that ends is among the ends to be told. -/
theorem Tree.setRun (h : Tree T O w₀ w) (hrun : w.runs r = some run)
    (hupdate : Updates w r run run') (hT : ∀ c, T c → T' c)
    (hended : run'.status.isTerminal = true → run.status.isTerminal = false → T' r) :
    Tree T' O w₀ (w.setRun r run') where
  toBase := h.toBase.setRun hrun hupdate
  told := by
    intro c p b hparent' hover hwaits
    have hparent := (parentIs_setRun hrun (runPlace_eq hupdate.place).1).mp hparent'
    rcases over_setRun.mp hover with ⟨rfl, hterminal'⟩ | ⟨-, hold⟩
    · cases hterminal : run.status.isTerminal with
      | true => exact hT c (h.told c p b hparent ⟨run, hrun, hterminal⟩ hwaits)
      | false => exact hended hterminal' hterminal
    · exact hT c (h.told c p b hparent hold hwaits)
  working := by
    intro c p b hparent hover
    have hparent := (parentIs_setRun hrun (runPlace_eq hupdate.place).1).mp hparent
    refine h.working c p b hparent fun hold => hover ?_
    by_cases hsame : c = r
    · subst hsame
      obtain ⟨run₁, hrun₁, hterminal⟩ := hold
      cases hrun.symm.trans hrun₁
      exact over_setRun.mpr (.inl ⟨rfl, hupdate.stays hterminal ▸ hterminal⟩)
    · exact over_setRun.mpr (.inr ⟨hsame, hold⟩)
  stays := by
    refine h.stays.trans fun r' other hother => ?_
    by_cases hsame : r' = r
    · subst hsame
      cases hrun.symm.trans hother
      exact ⟨run', setRun_runs_self, hupdate.stays⟩
    · exact ⟨other, (setRun_runs_of_ne hsame).trans hother, fun _ => rfl⟩
  family := fun c p a hparent =>
    h.family c p a ((parentIs_setRun hrun (runPlace_eq hupdate.place).1).mp hparent)

theorem Tree.discardSignals (h : Tree T O w₀ w) (runId : RunId) :
    Tree T O w₀ (w.discardSignals runId) := h.signals _ _

theorem Tree.setStatus (h : Tree T O w₀ w) (hrun : w.runs r = some run)
    (hupdate : Updates w r run run') (hT : ∀ c, T c → T' c)
    (hended : run'.status.isTerminal = true → run.status.isTerminal = false → T' r) :
    Tree T' O w₀ (w.setStatus r run') := by
  have hset := h.setRun hrun hupdate hT hended
  unfold World.setStatus
  split
  · exact hset.discardSignals r
  · exact hset

/-! ## The next attempt -/

theorem attempts_pos (descriptor : Step) : 1 ≤ descriptor.attempts := by
  unfold Step.attempts finiteInteger
  cases descriptor.maxAttempts with
  | none => exact Nat.le_refl 1
  | some number =>
    rw [bind_some]
    split
    · rename_i hpos
      rw [getD_some]
      omega
    · exact Nat.le_refl 1

/-- The new attempt of an active run, and the run's row that names it. -/
theorem createStepAttempt_eq (hrun : w.runs r = some run) (hactive : run.status.isActive = true)
    (k n : Nat) (descriptor : Step) (input : Json) : w.createStepAttempt r k descriptor input n =
      ({ w.setAttempt w.nextAttempt
          { runId := r, stepIndex := k, step := descriptor, attempt := n, input } with
        nextAttempt := w.nextAttempt + 1 } : World).setRun r
        { run with
          currentStepIndex := k
          currentInput := input
          activeAttempt := some w.nextAttempt
          status := .pending
          phase := phaseFor descriptor } := by
  have hrun' : ({ w.setAttempt w.nextAttempt
      { runId := r, stepIndex := k, step := descriptor, attempt := n, input } with
    nextAttempt := w.nextAttempt + 1 } : World).runs r = some run := hrun
  unfold World.createStepAttempt
  dsimp only at hrun' ⊢
  rw [hrun']
  dsimp only
  rw [if_pos hactive]

section

variable {w₀ : World} {k n : Nat} {descriptor : Step} {input : Json}

theorem parentIs_createStepAttempt (hrun : w.runs r = some run)
    (hactive : run.status.isActive = true)
    (hparent : (w.createStepAttempt r k descriptor input n).ParentIs c p a) : w.ParentIs c p a := by
  rw [createStepAttempt_eq hrun hactive] at hparent
  obtain ⟨child, hchild, hof⟩ := hparent
  rcases setRun_runs hchild with ⟨rfl, rfl⟩ | ⟨-, hold⟩
  · exact ⟨run, hrun, hof⟩
  · exact ⟨child, hold, hof⟩

theorem Base.createStepAttempt (h : Base w) (input : Json) (hrun : w.runs r = some run)
    (hactive : run.status.isActive = true) (hplan : run.executionPlan[k]? = some descriptor)
    (hk : run.currentStepIndex ≤ k) (hnone : w.NoLive r) (hfirst : 1 ≤ n)
    (hmax : n ≤ descriptor.attempts)
    (hlast : ∀ b other, w.attempts b = some other → other.runId = r → other.stepIndex = k →
      other.attempt < n) : Base (w.createStepAttempt r k descriptor input n) := by
  have hparentIs : ∀ c p a, (w.createStepAttempt r k descriptor input n).ParentIs c p a →
      w.ParentIs c p a := fun c p a => parentIs_createStepAttempt hrun hactive
  rw [createStepAttempt_eq hrun hactive] at hparentIs ⊢
  have hfresh : ∀ b other, w.attempts b = some other → b ≠ w.nextAttempt :=
    fun b other hother => Nat.ne_of_lt (h.attempts_lt b other hother)
  refine ⟨?_, ?_, ?_, ?_, ?_, ?_, ?_, ?_, ?_, ?_, ?_, ?_, ?_⟩
  · intro r' other hother
    rcases setRun_runs hother with ⟨rfl, -⟩ | ⟨-, hold⟩
    · exact h.runs_lt r' run hrun
    · exact h.runs_lt r' other hold
  · intro b other hother
    rcases setAttempt_attempts hother with ⟨rfl, -⟩ | ⟨-, hold⟩
    · exact Nat.lt_succ_self _
    · exact Nat.lt_succ_of_lt (h.attempts_lt b other hold)
  · intro c p a hparent
    obtain ⟨hlt, attempt, hattempt, hrest⟩ := h.parent c p a (hparentIs c p a hparent)
    exact ⟨hlt, attempt, (setAttempt_attempts_of_ne (hfresh a attempt hattempt)).trans hattempt,
      hrest⟩
  · exact fun c c' p p' a hparent hparent' =>
      h.onlyChild c c' p p' a (hparentIs c p a hparent) (hparentIs c' p' a hparent')
  · intro b other hother
    rcases setAttempt_attempts hother with ⟨rfl, rfl⟩ | ⟨-, hold⟩
    · exact ⟨_, setRun_runs_self, hplan, Nat.le_refl k⟩
    · obtain ⟨owner, howner, hownerPlan, hindex⟩ := h.owner b other hold
      by_cases hsame : other.runId = r
      · rw [hsame] at howner ⊢
        cases hrun.symm.trans howner
        exact ⟨_, setRun_runs_self, hownerPlan, Nat.le_trans hindex hk⟩
      · exact ⟨owner, (setRun_runs_of_ne hsame).trans howner, hownerPlan, hindex⟩
  · intro r' other a hother hactive'
    rcases setRun_runs hother with ⟨rfl, rfl⟩ | ⟨hne, hold⟩
    · cases hactive'
      refine ⟨_, setAttempt_attempts_self, rfl, rfl, ?_⟩
      intro b other hother hof hat
      rcases setAttempt_attempts hother with ⟨-, rfl⟩ | ⟨-, hold⟩
      · exact Nat.le_refl n
      · exact Nat.le_of_lt (hlast b other hold hof hat)
    · obtain ⟨attempt, hattempt, howner, hindex, hmost⟩ := h.active r' other a hold hactive'
      refine ⟨attempt, (setAttempt_attempts_of_ne (hfresh a attempt hattempt)).trans hattempt,
        howner, hindex, ?_⟩
      intro b other' hother' hof hat
      rcases setAttempt_attempts hother' with ⟨-, rfl⟩ | ⟨-, hold'⟩
      · exact absurd hof.symm hne
      · exact hmost b other' hold' hof hat
  · intro b other hother
    rcases setAttempt_attempts hother with ⟨-, rfl⟩ | ⟨-, hold⟩
    · exact ⟨hfirst, hmax⟩
    · exact h.numbers b other hold
  · intro b b' other other' hother hother' hrun' hindex hnumber
    rcases setAttempt_attempts hother with ⟨rfl, rfl⟩ | ⟨-, hold⟩
    · rcases setAttempt_attempts hother' with ⟨rfl, -⟩ | ⟨-, hold'⟩
      · rfl
      · exact absurd hnumber (Nat.ne_of_gt (hlast b' other' hold' hrun'.symm hindex.symm))
    · rcases setAttempt_attempts hother' with ⟨rfl, rfl⟩ | ⟨-, hold'⟩
      · exact absurd hnumber (Nat.ne_of_lt (hlast b other hold hrun' hindex))
      · exact h.distinct b b' other other' hold hold' hrun' hindex hnumber
  · intro b other hother hlive
    rcases setAttempt_attempts hother with ⟨rfl, rfl⟩ | ⟨-, hold⟩
    · exact ⟨_, setRun_runs_self, rfl, rfl⟩
    · obtain ⟨owner, howner, hrest⟩ := h.live b other hold hlive
      by_cases hsame : other.runId = r
      · rw [hnone b other hold hsame] at hlive
        cases hlive
      · exact ⟨owner, (setRun_runs_of_ne hsame).trans howner, hrest⟩
  · intro r' other hother
    rcases setRun_runs hother with ⟨-, rfl⟩ | ⟨-, hold⟩
    · nofun
    · exact h.status r' other hold
  · intro r' other hother hpaused
    rcases setRun_runs hother with ⟨-, rfl⟩ | ⟨-, hold⟩
    · cases hpaused
    · obtain ⟨a, attempt, hactive', hattempt, hbatch⟩ := h.paused r' other hold hpaused
      exact ⟨a, attempt, hactive',
        (setAttempt_attempts_of_ne (hfresh a attempt hattempt)).trans hattempt, hbatch⟩
  · intro r' other status phase hother hprevious
    rcases setRun_runs hother with ⟨-, rfl⟩ | ⟨-, hold⟩
    · exact h.previous r run status phase hrun hprevious
    · exact h.previous r' other status phase hold hprevious
  · intro pause hpause
    obtain ⟨attempt, hattempt, howner, hpast, hno⟩ := h.pauses pause hpause
    exact ⟨attempt, (setAttempt_attempts_of_ne (hfresh _ attempt hattempt)).trans hattempt,
      howner, hpast, fun c p hparent => hno c p (hparentIs c p _ hparent)⟩

theorem Tree.createStepAttempt (h : Tree T O w₀ w) (input : Json) (hrun : w.runs r = some run)
    (hactive : run.status.isActive = true) (hplan : run.executionPlan[k]? = some descriptor)
    (hk : run.currentStepIndex ≤ k) (hnone : w.NoLive r) (hfirst : 1 ≤ n)
    (hmax : n ≤ descriptor.attempts)
    (hlast : ∀ b other, w.attempts b = some other → other.runId = r → other.stepIndex = k →
      other.attempt < n) : Tree T O w₀ (w.createStepAttempt r k descriptor input n) := by
  have hbase := h.toBase.createStepAttempt input hrun hactive hplan hk hnone hfirst
    hmax hlast
  have hparentIs : ∀ c p a, (w.createStepAttempt r k descriptor input n).ParentIs c p a →
      w.ParentIs c p a := fun c p a => parentIs_createStepAttempt hrun hactive
  rw [createStepAttempt_eq hrun hactive] at hbase hparentIs ⊢
  have hterminal := isTerminal_of_isActive hactive
  refine ⟨hbase, ⟨?_, ?_⟩, ?_, fun c p a hparent => h.family c p a (hparentIs c p a hparent)⟩
  · intro c p a hparent hover hwaits
    refine h.told c p a (hparentIs c p a hparent) ?_ ?_
    · rcases over_setRun.mp hover with ⟨-, hover⟩ | ⟨-, hover⟩
      · cases hover
      · exact hover
    · rcases waits_setAttempt.mp hwaits with ⟨-, hwaiting⟩ | ⟨-, hwaiting⟩
      · cases hwaiting
      · exact hwaiting
  · intro c p a hparent hover
    have hworks : ¬w.Over c := by
      rintro ⟨other, hother, hended⟩
      refine hover (over_setRun.mpr (.inr ⟨?_, other, hother, hended⟩))
      rintro rfl
      cases hrun.symm.trans hother
      rw [hterminal] at hended
      cases hended
    refine (h.working c p a (hparentIs c p a hparent) hworks).imp_left fun hwaits => ?_
    obtain ⟨other, hother, -⟩ := id hwaits
    exact waits_setAttempt.mpr (.inr ⟨Nat.ne_of_lt (h.attempts_lt a other hother), hwaits⟩)
  · refine h.stays.trans fun r' other hother => ?_
    by_cases hsame : r' = r
    · subst hsame
      cases hrun.symm.trans hother
      refine ⟨_, setRun_runs_self, fun hover => ?_⟩
      rw [hterminal] at hover
      cases hover
    · exact ⟨other, (setRun_runs_of_ne hsame).trans hother, fun _ => rfl⟩

end

variable {which : RunId → Bool}

/-! ## Ends of runs, told up the tree -/

section

variable {w₀ : World} {ended : Ended} {result : World × Option Ended} {output : Json}
  {error : String}

/-- The ends to be told, with the one that is told next. -/
def Telling (T : RunId → Prop) (ended : Option Ended) (c : RunId) : Prop :=
  T c ∨ ∃ e, ended = some e ∧ e.childRunId = c

/-- A part of a transaction that may have ended the run `r`. -/
structure Ends (T O : RunId → Prop) (w₀ : World) (r : RunId) (result : World × Option Ended) :
    Prop where
  tree : Tree (Telling T result.2) O w₀ result.1
  ended : ∀ e, result.2 = some e → e.childRunId = r ∧ result.1.Over r

section

variable (h : Tree T O w₀ w)
include h

theorem Tree.drop
    (hT : ∀ c p a, w.ParentIs c p a → w.Over c → w.Waits a → T c → T' c) : Tree T' O w₀ w :=
  ⟨h.toBase, ⟨fun c p a hparent hover hwaits => hT c p a hparent hover hwaits
    (h.told c p a hparent hover hwaits), h.working⟩, h.stays, h.family⟩

theorem Tree.ends : Ends T O w₀ r (w, none) :=
  ⟨h.drop fun _ _ _ _ _ _ => .inl, nofun⟩

omit h in
theorem over_setStatus (h : run'.status.isTerminal = true) : (w.setStatus r run').Over r := by
  unfold World.setStatus
  split
  · exact ⟨run', setRun_runs_self, h⟩
  · exact ⟨run', setRun_runs_self, h⟩

/-- A run without live attempts ends. -/
theorem Tree.endRun (ended : Ended) (hrun : w.runs r = some run) (hnone : w.NoLive r)
    (hnot : run.status.isTerminal = false) (hplace : run'.place = run.place)
    (hactive : run'.activeAttempt = run.activeAttempt ∨ run'.activeAttempt = none)
    (hprevious : run'.operatorPausePrevious = run.operatorPausePrevious)
    (hterminal : run'.status.isTerminal = true) (hended : ended.childRunId = r) :
    Ends T O w₀ r (w.setStatus r run', some ended) := by
  have hcanceling : run'.status ≠ .canceling := by
    intro hcanceling
    rw [hcanceling] at hterminal
    cases hterminal
  have hpaused : run'.status ≠ .paused := by
    intro hpaused
    rw [hpaused] at hterminal
    cases hterminal
  have hupdate : Updates w r run run' :=
    ⟨hplace, hactive, .inl hnone, hcanceling, fun h => absurd h hpaused,
      fun status phase h => .inl (hprevious ▸ h), fun hover => absurd (hover.symm.trans hnot) nofun⟩
  refine ⟨h.setStatus hrun hupdate (fun _ => .inl) fun _ _ => .inr ⟨ended, rfl, hended⟩, ?_⟩
  rintro _ ⟨⟩
  exact ⟨hended, over_setStatus hterminal⟩

theorem Tree.advance (hnone : w.NoLive r) (k : Nat) (output : Json) :
    Ends T O w₀ r (w.advance r k output) := by
  unfold World.advance
  cases hrun : w.runs r with
  | none => exact h.ends
  | some run =>
    dsimp only
    split
    · rename_i hcond
      obtain ⟨hactive, hindex⟩ := Bool.and_eq_true_iff.mp hcond
      have hindex : run.currentStepIndex = k := of_decide_eq_true hindex
      split
      · rename_i next hnext
        refine Tree.ends (h.createStepAttempt output hrun hactive hnext (by omega) hnone
          (Nat.le_refl 1) (attempts_pos next) ?_)
        -- The run was not at the next step before.
        intro b other hother hof hat
        obtain ⟨owner, howner, -, hle⟩ := h.owner b other hother
        rw [hof, hrun] at howner
        cases howner
        omega
      · exact h.endRun _ hrun hnone (isTerminal_of_isActive hactive) rfl (.inr rfl) rfl rfl rfl
    · exact h.ends

omit h in
theorem noLive_endAttempts {set : Attempt → Attempt}
    (hend : ∀ attempt, (set attempt).status.isLive = false) (hwhich : which r = true) :
    (w.endAttempts which set).NoLive r := by
  intro b attempt' hattempt' hof
  obtain ⟨attempt, -, rfl⟩ := map_eq_some_iff.mp hattempt'
  split
  · exact hend attempt
  · rename_i hnot
    rw [if_neg hnot] at hof
    rw [hof, hwhich, Bool.true_and] at hnot
    exact Bool.eq_false_iff.mpr hnot

/-- Live attempts end together, and no work is left that they waited for. -/
theorem Tree.endAttempts {set : Attempt → Attempt}
    (hplace : ∀ attempt, (set attempt).place = attempt.place)
    (hend : ∀ attempt, (set attempt).status.isLive = false)
    (hfree : ∀ c p a, w.ParentIs c p a → which p = true → ¬w.Over c → O c) :
    Tree T O w₀ (w.endAttempts which set) := by
  refine h.ages ⟨rfl, rfl, rfl, fun pause hpause => ⟨pause, hpause, rfl, rfl⟩, ?_, ?_⟩ ?_ ?_
  · intro b attempt' hattempt'
    obtain ⟨attempt, hattempt, rfl⟩ := map_eq_some_iff.mp hattempt'
    refine ⟨attempt, hattempt, ?_⟩
    split
    · refine ⟨hplace attempt, fun hlive => ?_⟩
      rw [hend attempt] at hlive
      cases hlive
    · exact ⟨rfl, id⟩
  · intro b attempt hattempt
    refine ⟨_, congrArg (Option.map _) hattempt, ?_⟩
    dsimp only
    split
    · exact ⟨hplace attempt, fun _ => past_of_not_live (hend attempt)⟩
    · exact ⟨rfl, id⟩
  · rintro c p b - ⟨attempt', hattempt', hwaiting⟩
    obtain ⟨attempt, hattempt, rfl⟩ := map_eq_some_iff.mp hattempt'
    split at hwaiting
    · have hlive := hend attempt
      rw [isLive_waiting hwaiting] at hlive
      cases hlive
    · exact ⟨attempt, hattempt, hwaiting⟩
  · rintro c p b hparent hover ⟨attempt, hattempt, hwaiting⟩
    obtain ⟨-, other, hother, hof, -⟩ := h.parent c p b hparent
    cases hattempt.symm.trans hother
    by_cases hwhich : which p = true
    · exact .inr (hfree c p b hparent hwhich hover)
    · refine .inl ⟨attempt, (congrArg (Option.map _) hattempt).trans (congrArg some ?_), hwaiting⟩
      exact if_neg fun hboth => hwhich (hof ▸ (Bool.and_eq_true_iff.mp hboth).1)

/-- A run without live attempts has no working child that is waited for. -/
theorem Tree.free_of_noLive (hnone : w.NoLive r) : ∀ c a, w.ParentIs c r a → ¬w.Over c → O c := by
  intro c b hparent hover
  obtain ⟨-, attempt, hattempt, hof, -⟩ := h.parent c r b hparent
  rcases h.working c r b hparent hover with ⟨other, hother, hwaiting⟩ | hO
  · cases hattempt.symm.trans hother
    have hlive := hnone b attempt hattempt hof
    rw [isLive_waiting hwaiting] at hlive
    cases hlive
  · exact hO

omit h in
theorem endAttempts_runs (w : World) (which : RunId → Bool) (set : Attempt → Attempt) :
    (w.endAttempts which set).runs = w.runs := rfl

omit h in
theorem cancelPauses_runs (w : World) (which : Pause → Bool) :
    (w.cancelPauses which).runs = w.runs := rfl

theorem Tree.cleanupRunScope (hfree : ∀ c a, w.ParentIs c r a → ¬w.Over c → O c) (error : String) :
    Tree T O w₀ (w.cleanupRunScope r error) ∧ (w.cleanupRunScope r error).NoLive r ∧
      (w.cleanupRunScope r error).runs r =
        (w.runs r).map fun run => { run with operatorPausePrevious := none } := by
  let w₁ := (w.cancelPauses fun pause =>
    pause.runId = r && (w.attempts pause.attemptId).any fun attempt =>
      attempt.runId = r && attempt.status.isLive).endAttempts (· = r) fun attempt =>
    { attempt with status := .failed, error := some error }
  have hscope : w.runs r = none ∧ w.cleanupRunScope r error = w₁ ∨
      ∃ run, w.runs r = some run ∧ w.cleanupRunScope r error =
        w₁.setRun r { run with operatorPausePrevious := none } := by
    unfold World.cleanupRunScope
    dsimp only
    rw [endAttempts_runs, cancelPauses_runs]
    cases w.runs r with
    | none => exact .inl ⟨rfl, rfl⟩
    | some run => exact .inr ⟨run, rfl, rfl⟩
  have hruns : w₁.runs r = w.runs r := rfl
  have hended : Tree T O w₀ w₁ := by
    refine (h.cancelPauses _).endAttempts (fun _ => rfl) (fun _ => rfl) fun c p b hparent hp => ?_
    obtain rfl := of_decide_eq_true hp
    exact hfree c b hparent
  have hnone : w₁.NoLive r := noLive_endAttempts (fun _ => rfl) (decide_eq_true rfl)
  clear_value w₁
  rcases hscope with ⟨hrun, hscope⟩ | ⟨run, hrun, hscope⟩
  · rw [hscope, hrun]
    exact ⟨hended, hnone, hruns.trans hrun⟩
  · rw [hscope, hrun]
    have hrow := hruns.trans hrun
    refine ⟨hended.setRun hrow ⟨rfl, .inl rfl, .inl hnone, hended.status r run hrow,
      fun hpaused => ⟨rfl, .inl hpaused⟩, nofun, fun _ => rfl⟩ (fun _ => id)
      fun hover hnot => ?_, hnone, setRun_runs_self⟩
    rw [hnot] at hover
    cases hover

theorem Tree.failRun (hfree : ∀ c a, w.ParentIs c r a → ¬w.Over c → O c)
    (error : String) {statuses : RunStatus → Bool}
    (hstatuses : ∀ status, statuses status = true → status.isTerminal = false) :
    Ends T O w₀ r (w.failRun r error statuses) ∧
      ∀ run, w.runs r = some run → statuses run.status = true ∨ run.status.isTerminal = true →
        (w.failRun r error statuses).1.Over r := by
  obtain ⟨hclean, hnone, hruns⟩ := h.cleanupRunScope hfree error
  unfold World.failRun
  dsimp only
  rw [hruns]
  cases hrun : w.runs r with
  | none => exact ⟨hclean.ends, fun run hnot => absurd hnot nofun⟩
  | some run =>
    rw [map_some]
    dsimp only
    have hrow := hruns.trans (congrArg (Option.map _) hrun)
    split
    · rename_i hstatus
      have hnot := hstatuses run.status hstatus
      refine ⟨hclean.endRun _ hrow hnone hnot rfl (.inl rfl) rfl rfl rfl, fun _ _ _ => ?_⟩
      dsimp only
      exact over_setStatus rfl
    · rename_i hstatus
      refine ⟨hclean.ends, ?_⟩
      rintro _ ⟨⟩ (hcan | hterminal)
      · exact absurd hcan hstatus
      · exact ⟨_, hrow, hterminal⟩

end

theorem lockActiveAttempt_spec (h : w.lockActiveAttempt a = some (run, attempt)) :
    w.attempts a = some attempt ∧ w.runs attempt.runId = some run ∧
      run.status.isActive = true ∧ run.activeAttempt = some a := by
  unfold World.lockActiveAttempt at h
  split at h
  · cases h
  · rename_i attempt' hattempt
    split at h
    · cases h
    · rename_i run' hrun
      split at h
      · rename_i hcond
        obtain ⟨rfl, rfl⟩ := Prod.mk.inj (some.inj h)
        obtain ⟨hactive, hnamed⟩ := Bool.and_eq_true_iff.mp hcond
        exact ⟨hattempt, hrun, hactive, of_decide_eq_true hnamed⟩
      · cases h

/-- The attempt that called a child is locked where it waits. -/
theorem Base.lockActiveAttempt_of_waits (h : Base w) (hparent : w.ParentIs c p a)
    (hwaits : w.Waits a) : ∃ run attempt, w.lockActiveAttempt a = some (run, attempt) ∧
      attempt.status = .waiting := by
  obtain ⟨attempt, hattempt, hwaiting⟩ := hwaits
  obtain ⟨-, other, hother, -, hboundary, -⟩ := h.parent c p a hparent
  cases hattempt.symm.trans hother
  obtain ⟨run, hrun, hactive, hterminal⟩ := h.live a attempt hattempt (isLive_waiting hwaiting)
  -- A paused run's attempt is a batch's, and this one is a boundary's.
  have hpaused : run.status ≠ .paused := by
    intro hpaused
    obtain ⟨b, batch, hnamed, hrow, hbatch⟩ := h.paused _ run hrun hpaused
    cases hactive.symm.trans hnamed
    cases hattempt.symm.trans hrow
    rw [hboundary] at hbatch
    cases hbatch
  have hcanceling := h.status _ run hrun
  have hisActive : run.status.isActive = true := by
    cases hstatus : run.status <;> simp_all [RunStatus.isActive, RunStatus.isTerminal]
  refine ⟨run, attempt, ?_, hwaiting⟩
  rw [World.lockActiveAttempt, hattempt]
  dsimp only
  rw [hrun]
  dsimp only
  rw [if_pos (Bool.and_eq_true_iff.mpr ⟨hisActive, decide_eq_true hactive⟩)]

/-- The active attempt fails, and no work is left that it waited for. -/
theorem Tree.failAttempt (h : Tree T O w₀ w) (hlock : w.lockActiveAttempt a = some (run, attempt))
    (hfree : ∀ c p, w.ParentIs c p a → ¬w.Over c → O c)
    (hT : ∀ c p b, w.ParentIs c p b → b ≠ a → T c → T' c) {allow : Bool}
    (hresult : w.failAttempt a run attempt error allow = some result) :
    Ends T' O w₀ attempt.runId result := by
  obtain ⟨hattempt, hrun, hisActive, hactive⟩ := lockActiveAttempt_spec hlock
  unfold World.failAttempt at hresult
  have hscope := h.cancelPauses fun pause =>
    pause.runId = attempt.runId && pause.attemptId = a
  have hfailed : Tree T' O w₀ ((w.cleanupStepScope attempt.runId a).setAttempt a
      { attempt with status := .failed, error := some error }) :=
    hscope.endAttempt _ hattempt rfl rfl hfree hT
  have hnone := hscope.noLive_setAttempt
    { attempt with status := .failed, error := some error } hrun hactive rfl
  have hrun' : ((w.cleanupStepScope attempt.runId a).setAttempt a
      { attempt with status := .failed, error := some error }).runs attempt.runId = some run :=
    hrun
  have hattempt' : ((w.cleanupStepScope attempt.runId a).setAttempt a
      { attempt with status := .failed, error := some error }).attempts a =
      some { attempt with status := .failed, error := some error } := setAttempt_attempts_self
  split at hresult
  · rename_i hcond
    obtain ⟨descriptor, hplan, rfl⟩ := map_eq_some_iff.mp hresult
    have hmore : attempt.attempt < attempt.step.attempts :=
      of_decide_eq_true (Bool.and_eq_true_iff.mp hcond).2
    obtain ⟨owner, howner, hownerPlan, -⟩ := hfailed.owner a _ hattempt'
    cases hrun'.symm.trans howner
    cases hownerPlan.symm.trans hplan
    obtain ⟨last, hlast, -, hindex, hmost⟩ := hfailed.active _ run a hrun' hactive
    cases hattempt'.symm.trans hlast
    refine Tree.ends (hfailed.createStepAttempt attempt.input hrun' hisActive hplan
      (Nat.le_of_eq hindex.symm) hnone (Nat.succ_pos _) hmore fun b other hother hof hat => ?_)
    exact Nat.lt_succ_of_le (hmost b other hother hof (hat.trans hindex))
  · cases hresult
    exact (hfailed.failRun (hfailed.free_of_noLive hnone) error fun _ => isTerminal_of_isActive).1

theorem finishParent_spec (h : Tree (Telling T (some ended)) O w₀ w)
    (hover : w.Over ended.childRunId) (hresult : w.finishParent ended = some result) :
    ∃ p, Ends T O w₀ p result ∧ (result.2.isSome = true → p < ended.childRunId) := by
  -- Where no attempt waits for the run, nothing is left to be told.
  have hdrop : (∀ p a, w.ParentIs ended.childRunId p a → ¬w.Waits a) →
      Ends T O w₀ ended.childRunId (w, none) := by
    intro hnot
    refine Tree.ends (h.drop fun c p a hparent _ hwaits htold => ?_)
    rcases htold with hT | ⟨e, he, rfl⟩
    · exact hT
    · cases he
      exact absurd hwaits (hnot p a hparent)
  unfold World.finishParent at hresult
  split at hresult
  · rename_i hnone
    cases hresult
    refine ⟨_, hdrop ?_, nofun⟩
    rintro p a ⟨child, hchild, hof⟩
    rw [hchild, bind_some, hof] at hnone
    cases hnone
  · rename_i p a hsome
    obtain ⟨child, hchild, hof⟩ := bind_eq_some_iff.mp hsome
    have hparent : w.ParentIs ended.childRunId p a := ⟨child, hchild, hof⟩
    have honly : ∀ p' a', w.ParentIs ended.childRunId p' a' → p' = p ∧ a' = a := by
      rintro p' a' ⟨child', hchild', hof'⟩
      cases hchild.symm.trans hchild'
      exact Prod.mk.inj (some.inj (hof'.symm.trans hof))
    have hwaits : ∀ run attempt, w.lockActiveAttempt a = some (run, attempt) →
        attempt.status ≠ .waiting → ∀ p' a', w.ParentIs ended.childRunId p' a' → ¬w.Waits a' := by
      rintro run attempt hlock hnot p' a' hparent' ⟨other, hother, hwaiting⟩
      obtain ⟨-, rfl⟩ := honly p' a' hparent'
      rw [(lockActiveAttempt_spec hlock).1] at hother
      cases hother
      exact hnot hwaiting
    split at hresult
    · rename_i hlock
      cases hresult
      refine ⟨_, hdrop fun p' a' hparent' hwaits => ?_, nofun⟩
      obtain ⟨run, attempt, hlock', -⟩ := h.lockActiveAttempt_of_waits hparent' hwaits
      obtain ⟨-, rfl⟩ := honly p' a' hparent'
      rw [hlock] at hlock'
      cases hlock'
    · rename_i run attempt hlock
      obtain ⟨hattempt, hrun, hisActive, hactive⟩ := lockActiveAttempt_spec hlock
      obtain ⟨hlt, other, hother, howner, -⟩ := h.parent _ p a hparent
      cases hattempt.symm.trans hother
      have hfree : ∀ c p, w.ParentIs c p a → ¬w.Over c → O c := by
        intro c p' hparent' hnot
        rw [h.onlyChild c _ p' p a hparent' hparent] at hnot
        exact absurd hover hnot
      have hT : ∀ c p b, w.ParentIs c p b → b ≠ a → Telling T (some ended) c → T c := by
        rintro c p' b hparent' hne (hT | ⟨e, he, rfl⟩)
        · exact hT
        · cases he
          exact absurd (honly p' b hparent').2 hne
      split at hresult
      · rename_i hwaiting
        split at hresult
        · exact ⟨_, h.failAttempt hlock hfree hT hresult, fun _ => howner ▸ hlt⟩
        · cases hresult
          refine ⟨p, ?_, fun _ => hlt⟩
          have hset := h.endAttempt { attempt with
            status := .completed, output := some (attempt.called ended.output) } hattempt rfl rfl
            hfree hT
          exact hset.advance (howner ▸ h.noLive_setAttempt _ hrun hactive rfl) _ _
      · rename_i hnot
        cases hresult
        exact ⟨_, hdrop (hwaits run attempt hlock hnot), nofun⟩

theorem Ends.untold (h : Ends T O w₀ r (w, none)) : Tree T O w₀ w := by
  refine h.tree.drop fun c p a _ _ _ htold => ?_
  rcases htold with hT | ⟨e, he, -⟩
  · exact hT
  · cases he

/-- The ends are told one after the other: a parent is older than its child. -/
theorem finishParents_spec {depth : Nat} (h : Ends T O w₀ r result)
    (hdepth : result.2.isSome = true → r < depth) (hresult : finishParents depth result = some w') :
    Tree T O w₀ w' := by
  induction depth generalizing result r with
  | zero =>
    obtain ⟨w, _ | e⟩ := result
    · cases hresult
      exact h.untold
    · exact absurd (hdepth rfl) (Nat.not_lt_zero _)
  | succ depth ih =>
    obtain ⟨w, _ | e⟩ := result
    · cases hresult
      exact h.untold
    · obtain ⟨result, hnext, hrest⟩ := bind_eq_some_iff.mp hresult
      obtain ⟨rfl, hover⟩ := h.ended e rfl
      obtain ⟨p, hends, hlt⟩ := finishParent_spec h.tree hover hnext
      have hlast := hdepth rfl
      exact ih hends (fun hsome => Nat.lt_of_lt_of_le (hlt hsome) (Nat.le_of_lt_succ hlast))
        hrest

theorem Ends.finish (h : Ends T O w₀ r result) (hresult : World.finish result = some w') :
    Tree T O w₀ w' := by
  refine finishParents_spec h (fun hsome => ?_) hresult
  obtain ⟨e, he⟩ := isSome_iff_exists.mp hsome
  obtain ⟨hr, -⟩ := h.ended e he
  rw [he, ← hr]
  exact Nat.lt_succ_self _

/-- A child's end that may not be told yet is told. -/
theorem Tree.reconcile {child : RunId} (h : Tree T' O w₀ w) (hT : ∀ c, T' c → T c ∨ c = child)
    (hresult : w.reconcileParentFromTerminalChild child = some w') : Tree T O w₀ w' := by
  unfold World.reconcileParentFromTerminalChild at hresult
  have hdrop : ¬w.Over child → Tree T O w₀ w := by
    intro hnot
    refine h.drop fun c p a _ hover _ htold => ?_
    rcases hT c htold with hold | rfl
    · exact hold
    · exact absurd hover hnot
  split at hresult
  · rename_i hnone
    cases hresult
    refine hdrop ?_
    rintro ⟨run, hrun, -⟩
    rw [hnone] at hrun
    cases hrun
  · rename_i run hrun
    split at hresult
    · rename_i hterminal
      refine Ends.finish (r := child) ⟨h.drop fun c p a _ _ _ htold => ?_, ?_⟩ hresult
      · refine (hT c htold).imp id ?_
        rintro rfl
        refine ⟨_, rfl, ?_⟩
        split
        · rfl
        · rfl
      · rintro e ⟨⟩
        refine ⟨?_, run, hrun, hterminal⟩
        split
        · rfl
        · rfl
    · rename_i hnot
      cases hresult
      refine hdrop ?_
      rintro ⟨run', hrun', hterminal⟩
      cases hrun.symm.trans hrun'
      exact hnot hterminal

end

end Catamorphic.Execution.Coordinator
